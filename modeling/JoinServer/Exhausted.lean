import JoinServer.Outstanding

namespace JoinServer.Exhausted

open JoinServer.Lib.Vectors JoinServer.Lib.Runs
open JoinServer.Store JoinServer.Server JoinServer.Server.Session JoinServer.Outstanding

variable {s s' : Session} {a : Act}

def Deaf (s : Session) : Prop := s.reads = [] ∧ s.writes = []

def failsWrite : Act → Nat
  | .failWrite _ => 1
  | _ => 0

def failedWrites (acts : List Act) : Nat := (acts.map failsWrite).sum

/-- Outstanding operations, and those that ended without starting another. An
empty line and a failed read end a read, a failed write a write. -/
def spent (s : Session) (acts : List Act) : Nat :=
  s.reads.length + s.writes.length + s.skipped + failedWrites acts

theorem next_spent (h : Next s a s') (acts : List Act) :
    spent s' (acts ++ [a]) + s.executed.length = spent s acts + s'.executed.length := by
  unfold spent failedWrites
  rw [List.map_append, List.sum_append, List.map_singleton, List.sum_singleton]
  cases h with
  | receive hi => simp [failsWrite]
  | command hi hn =>
    have hlen := List.length_eraseIdx_add_one (List.getElem?_eq_some_iff.mp hi).1
    simp only [runCommand_reads, runCommand_writes_length, runCommand_skipped,
      runCommand_executed, List.length_append, List.length_singleton, failsWrite]
    omega
  | emptyLine hi hn =>
    have hlen := List.length_eraseIdx_add_one (List.getElem?_eq_some_iff.mp hi).1
    simp only [skipLine, failsWrite]
    omega
  | transmit hj hlen hbytes => simp [failsWrite]
  | written hj hsent =>
    have hlen := List.length_eraseIdx_add_one (List.getElem?_eq_some_iff.mp hj).1
    simp only [writeHandler_reads, writeHandler_writes_length, List.length_append,
      List.length_singleton, failsWrite]
    change _ + s.skipped + _ + _ = _ + s.executed.length
    omega
  | failRead hi =>
    have hlen := List.length_eraseIdx_add_one (List.getElem?_eq_some_iff.mp hi).1
    simp only [skipLine, failsWrite]
    omega
  | failWrite hj =>
    have hlen := List.length_eraseIdx_add_one hj
    simp only [failsWrite]
    omega
  | others storage => simp [failsWrite]

theorem run_spent (storage : Storage) {acts : List Act}
    (h : run step (new storage).start acts = some s) : spent s acts = s.executed.length + 2 := by
  induction acts using List.reverseRecOn generalizing s with
  | nil =>
    cases h
    rfl
  | append_singleton acts a ih =>
    obtain ⟨s₁, h₁, hstep⟩ := run_concat.mp h
    have hspent := next_spent (next_of_step hstep) acts
    have hbefore := ih h₁
    omega

theorem deaf_run {acts : List Act} (hd : Deaf s) (h : run step s acts = some s') :
    s' = { s with storage := s'.storage } := by
  induction acts generalizing s with
  | nil =>
    cases h
    rfl
  | cons a acts ih =>
    obtain ⟨s₁, hstep, hrun⟩ := Option.bind_eq_some_iff.mp h
    obtain ⟨hr, hw⟩ := hd
    cases next_of_step hstep with
    | others storage => exact ih (s := { s with storage := storage }) ⟨hr, hw⟩ hrun
    | receive hi | command hi hn | emptyLine hi hn | failRead hi => simp [hr] at hi
    | transmit hj hlen hbytes | written hj hsent => simp [hw] at hj
    | failWrite hj => simp [hw] at hj

/-- Every operation that is neither outstanding nor used up by an empty line
or an error belongs to a command, or to `start`. A session that has used up
all of them never does anything again. -/
theorem deaf_for_good (storage : Storage) (acts : List Act) (s : Session)
    (h : run step (new storage).start acts = some s) :
    s.skipped + failedWrites acts ≤ s.executed.length + 2 ∧
      (Deaf s ↔ s.skipped + failedWrites acts = s.executed.length + 2) ∧
      (Deaf s → ∀ acts' s', run step s acts' = some s' → s' = { s with storage := s'.storage }) := by
  have hspent := run_spent storage h
  unfold spent at hspent
  refine ⟨by omega, ?_, fun hd acts' s' => deaf_run hd⟩
  rw [Deaf, ← List.length_eq_zero_iff, ← List.length_eq_zero_iff]
  omega

def twoEmptyLines : List Act :=
  [.receive 0 ['\n', '\n'], .handleRead 0 0, .transmit 0 ['>', ' '], .handleWrite 0, .handleRead 0 0]

theorem deaf_for_good_sample :
    ∃ s, run step (new (Storage.new doubling)).start twoEmptyLines = some s ∧ s.skipped = 2 ∧
      ∀ acts' s', run step s acts' = some s' → s' = { s with storage := s'.storage } := by
  obtain ⟨-, hdeaf, hgood⟩ := deaf_for_good (Storage.new doubling) twoEmptyLines _ rfl
  exact ⟨_, rfl, rfl, hgood (hdeaf.mpr rfl)⟩

end JoinServer.Exhausted
