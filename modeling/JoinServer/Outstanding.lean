import JoinServer.Server
import JoinServer.Lib.Runs
import Mathlib.Algebra.Order.Group.Nat

namespace JoinServer.Outstanding

open JoinServer.Lib.Lines JoinServer.Lib.Vectors JoinServer.Lib.Runs
open JoinServer.Store JoinServer.Server JoinServer.Server.Session

variable {s s' : Session} {a : Act}

def Listening (s : Session) : Prop := s.reads ≠ [] ∨ s.writes ≠ []

/-- A command trades a read for two writes, a write a write for a read, and
an empty line gives its read away. -/
def Balanced (s : Session) : Prop :=
  s.reads.length + s.writes.length + s.skipped = s.executed.length + 2

theorem next_failed (h : Next s a s') (hf : s'.failed = false) : s.failed = false := by
  cases h with
  | failRead hi => cases hf
  | failWrite hj => cases hf
  | receive | command | emptyLine | transmit | written | others => exact hf

theorem next_balanced (h : Next s a s') (hf : s'.failed = false) (hb : Balanced s) :
    Balanced s' := by
  unfold Balanced at hb ⊢
  cases h with
  | receive hi => simpa using hb
  | command hi hn =>
    have hlen := List.length_eraseIdx_add_one (List.getElem?_eq_some_iff.mp hi).1
    simp only [runCommand_reads, runCommand_writes_length, runCommand_skipped,
      runCommand_executed, List.length_append, List.length_singleton]
    omega
  | emptyLine hi hn =>
    have hlen := List.length_eraseIdx_add_one (List.getElem?_eq_some_iff.mp hi).1
    simp only [skipLine]
    omega
  | transmit hj hlen hbytes => simpa using hb
  | written hj hsent =>
    have hlen := List.length_eraseIdx_add_one (List.getElem?_eq_some_iff.mp hj).1
    simp only [writeHandler_reads, writeHandler_writes_length, List.length_append,
      List.length_singleton]
    change _ + (s.writes.eraseIdx _).length + s.skipped = s.executed.length + 2
    omega
  | failRead hi => cases hf
  | failWrite hj => cases hf
  | others storage => exact hb

/-- An empty line is handled only when no more empty lines than commands were
handled before. -/
def Covered (s : Session) : Act → Prop
  | .handleRead i _ =>
    s.failed = false → ∀ n, s.reads[i]? = some (some n) → n ≤ 1 → s.skipped ≤ s.executed.length
  | _ => True

def Spared (s : Session) : Prop :=
  s.failed = false → Balanced s ∧ s.skipped ≤ s.executed.length + 1

theorem spared_start (storage : Storage) : Spared (new storage).start :=
  fun _ => ⟨rfl, Nat.zero_le _⟩

theorem listening_iff (h : Balanced s) : Listening s ↔ s.skipped ≤ s.executed.length + 1 := by
  unfold Balanced at h
  rw [Listening, ← List.length_pos_iff, ← List.length_pos_iff]
  omega

theorem next_spared (h : Next s a s') (hs : Spared s) (hc : Covered s a) : Spared s' := by
  intro hf
  have hf₀ := next_failed h hf
  obtain ⟨hb, hle⟩ := hs hf₀
  refine ⟨next_balanced h hf hb, ?_⟩
  cases h with
  | command hi hn =>
    simp only [runCommand_skipped, runCommand_executed, List.length_append, List.length_singleton]
    omega
  | emptyLine hi hn =>
    have hcov := hc hf₀ _ hi hn
    simp only [skipLine]
    omega
  | failRead hi => cases hf
  | receive | transmit | written | failWrite | others => exact hle

/-- A session keeps an operation outstanding exactly as long as it handles no
empty line that no earlier command makes up for. A handler whose behaviour is
undefined reaches no state, and nothing is said of it. -/
theorem stays_listening_iff (storage : Storage) (acts : List Act) :
    Throughout step (fun s => s.failed = false → Listening s) (new storage).start acts ↔
      Along step Covered (new storage).start acts := by
  apply throughout_iff_along (I := Spared) (spared_start storage)
  · intro s hs hf
    obtain ⟨hb, hle⟩ := hs hf
    exact (listening_iff hb).mpr hle
  · exact fun s a s' hs hc h => next_spared (next_of_step h) hs hc
  · intro s a s' hs h hl
    cases next_of_step h with
    | emptyLine hi hn =>
      intro hf n hn' hle
      obtain ⟨hb, -⟩ := hs hf
      -- The session still listens after this line, so the balance has room for it.
      have hb' := next_balanced (next_of_step h) hf hb
      have hskip := (listening_iff hb').mp (hl hf)
      simp only [skipLine] at hskip
      omega
    | command hi hn =>
      intro hf n hn' hle
      obtain rfl := count_unique hi hn'
      omega
    | receive | transmit | written | failRead | failWrite | others => trivial

theorem goes_deaf : ¬ ∀ storage acts,
    Throughout step (fun s => s.failed = false → Listening s) (new storage).start acts := by
  intro h
  have hdeaf := h (Storage.new doubling) [.receive 0 ['\n', '\n'], .handleRead 0 0,
    .transmit 0 ['>', ' '], .handleWrite 0, .handleRead 0 0] _ _ (List.prefix_refl _) rfl rfl
  exact absurd hdeaf (by unfold Listening; decide)

def OneEach (s : Session) : Prop := s.reads.length ≤ 1 ∧ s.writes.length ≤ 1

theorem oneEach_start (storage : Storage) : OneEach (new storage).start :=
  ⟨Nat.le_refl 1, Nat.le_refl 1⟩

/-- No command runs, and a write completes only when no read is outstanding. -/
def Alternates (s : Session) : Act → Prop
  | .handleRead i _ => ∀ n, s.reads[i]? = some (some n) → n ≤ 1
  | .handleWrite _ => s.reads = []
  | _ => True

theorem next_oneEach (h : Next s a s') (hs : OneEach s) (hc : Alternates s a) : OneEach s' := by
  obtain ⟨hr, hw⟩ := hs
  cases h with
  | receive hi => exact ⟨by simpa using hr, hw⟩
  | command hi hn => exact absurd (hc _ hi) (Nat.not_le_of_lt hn)
  | emptyLine hi hn =>
    have hlen := List.length_eraseIdx_add_one (List.getElem?_eq_some_iff.mp hi).1
    exact ⟨by simp only [skipLine]; omega, hw⟩
  | transmit hj hlen hbytes => exact ⟨hr, by simpa using hw⟩
  | written hj hsent =>
    have hlen := List.length_eraseIdx_add_one (List.getElem?_eq_some_iff.mp hj).1
    have hnone : s.reads = [] := hc
    exact ⟨by simp [hnone], by simp only [writeHandler_writes_length]; omega⟩
  | failRead hi =>
    have hlen := List.length_eraseIdx_add_one (List.getElem?_eq_some_iff.mp hi).1
    exact ⟨by simp only [skipLine]; omega, hw⟩
  | failWrite hj =>
    have hlen := List.length_eraseIdx_add_one hj
    exact ⟨hr, by simp only; omega⟩
  | others storage => exact ⟨hr, hw⟩

/-- A session keeps to one read and one write exactly as long as no command
runs, which starts two writes, and no write completes beside an outstanding
read, which starts a second one. -/
theorem one_in_flight_iff (storage : Storage) (acts : List Act) :
    Throughout step OneEach (new storage).start acts ↔
      Along step Alternates (new storage).start acts := by
  apply throughout_iff_along (I := OneEach) (oneEach_start storage) (fun s h => h)
  · exact fun s a s' hs hc h => next_oneEach (next_of_step h) hs hc
  · rintro s a s' hs h ⟨hr, hw⟩
    cases next_of_step h with
    | command hi hn =>
      simp only [runCommand_writes_length] at hw
      omega
    | emptyLine hi hn =>
      intro n hn'
      exact count_unique hi hn' ▸ hn
    | written hj hsent =>
      simp only [writeHandler_reads, List.length_append, List.length_singleton] at hr
      exact List.eq_nil_of_length_eq_zero (by omega)
    | receive | transmit | failRead | failWrite | others => trivial

theorem two_reads_in_flight : ¬ ∀ storage acts,
    Throughout step OneEach (new storage).start acts := by
  intro h
  have htwo := h (Storage.new doubling) [.transmit 0 ['>', ' '], .handleWrite 0] _ _
    (List.prefix_refl _) rfl
  exact absurd htwo.1 (by decide)

end JoinServer.Outstanding
