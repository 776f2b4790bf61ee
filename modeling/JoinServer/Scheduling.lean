import JoinServer.Framing
import JoinServer.Outstanding

namespace JoinServer.Scheduling

open JoinServer.Lib.Lines JoinServer.Lib.Runs
open JoinServer.Store JoinServer.Server JoinServer.Server.Session
open JoinServer.Framing

variable {s s' : Session} {a : Act}

def ready (reads : List (Option Nat)) : Nat := reads.countP Option.isSome

/-- A read handler that is ready runs before anything else is done that could
make a second one ready. -/
def ReadsFirst (s : Session) : Act → Prop
  | .receive _ _ => ready s.reads = 0
  | .handleWrite _ => ready s.reads = 0
  | _ => True

theorem ready_set {reads : List (Option Nat)} {i : Nat} (hi : reads[i]? = some none)
    (found : Option Nat) : ready (reads.set i found) = ready reads + ready [found] := by
  obtain ⟨hlt, hi⟩ := List.getElem?_eq_some_iff.mp hi
  simp [ready, List.countP_set, hlt, hi]

theorem ready_eraseIdx {reads : List (Option Nat)} {i : Nat} {r : Option Nat}
    (hi : reads[i]? = some r) : ready (reads.eraseIdx i) + ready [r] = ready reads := by
  induction reads generalizing i with
  | nil => simp at hi
  | cons x reads ih =>
    cases i with
    | zero =>
      obtain rfl : x = r := by simpa using hi
      simp [ready, List.countP_cons]
    | succ i =>
      have hrest := ih (i := i) (by simpa using hi)
      simp only [ready, List.eraseIdx_cons_succ, List.countP_cons] at hrest ⊢
      omega

theorem ready_pos {reads : List (Option Nat)} {n : Nat} (h : some n ∈ reads) : 0 < ready reads :=
  List.countP_pos_iff.mpr ⟨some n, h, rfl⟩

theorem fresh_of_ready (h : ready s.reads ≤ 1) : Fresh s a := by
  cases a with
  | handleRead i early =>
    intro n m hi hm
    have hothers := ready_pos hm
    have hall := ready_eraseIdx hi
    have hone : ready [some n] = 1 := rfl
    omega
  | receive | transmit | handleWrite | failRead | failWrite | others => trivial

theorem next_ready (h : Next s a s') (hs : ready s.reads ≤ 1) (hc : ReadsFirst s a) :
    ready s'.reads ≤ 1 := by
  cases h with
  | receive hi =>
    have hnone : ready s.reads = 0 := hc
    rw [ready_set hi, hnone, Nat.zero_add]
    exact List.countP_le_length
  | command hi hn | emptyLine hi hn | failRead hi =>
    have hall := ready_eraseIdx hi
    exact Nat.le_trans (Nat.le.intro hall) hs
  | written hj hsent =>
    have hnone : ready s.reads = 0 := hc
    rw [writeHandler_reads, ready, List.countP_append]
    change ready s.reads + _ ≤ 1
    rw [hnone, Nat.zero_add]
    exact List.countP_le_length
  | transmit | failWrite | others => exact hs

theorem line_of_ready (hs : InStep s) (h : ready s.reads ≠ 0) :
    ∃ n, firstLine '\n' s.streambuf = some n := by
  obtain ⟨found, hm, hn⟩ := List.countP_pos_iff.mp (Nat.pos_of_ne_zero h)
  obtain ⟨n, rfl⟩ := Option.isSome_iff_exists.mp hn
  exact ⟨n, hs.counts n hm⟩

/-- At most one read handler is ready at a time, and with that all commands are
framed right, exactly as long as a handler that is ready runs before more bytes
are taken and before the completion of a write starts another read. -/
theorem one_ready_iff (storage : Storage) (acts : List Act) :
    Throughout step (fun s => ready s.reads ≤ 1 ∧ Framed s) (new storage).start acts ↔
      Along step ReadsFirst (new storage).start acts := by
  apply throughout_iff_along (I := fun s => InStep s ∧ ready s.reads ≤ 1)
    ⟨inStep_start storage, Nat.zero_le 1⟩
  · rintro s ⟨hs, hone⟩
    exact ⟨hone, framed_of_inStep hs⟩
  · rintro s a s' ⟨hs, hone⟩ hc h
    exact ⟨next_inStep (next_of_step h) hs (fresh_of_ready hone),
      next_ready (next_of_step h) hone hc⟩
  · rintro s a s' ⟨hs, -⟩ h ⟨hone, -⟩
    cases next_of_step h with
    | receive hi =>
      by_contra hready
      obtain ⟨n, hn⟩ := line_of_ready hs hready
      rw [ready_set hi, firstLine_append _ hn] at hone
      have hpos := Nat.pos_of_ne_zero hready
      change _ + 1 ≤ 1 at hone
      omega
    | written hj hsent =>
      by_contra hready
      obtain ⟨n, hn⟩ := line_of_ready hs hready
      rw [writeHandler_reads, ready, List.countP_append] at hone
      change ready s.reads + ready [firstLine '\n' s.streambuf] ≤ 1 at hone
      rw [hn] at hone
      have hpos := Nat.pos_of_ne_zero hready
      change _ + 1 ≤ 1 at hone
      omega
    | command | emptyLine | transmit | failRead | failWrite | others => trivial

end JoinServer.Scheduling
