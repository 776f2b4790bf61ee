import JoinServer.Server
import JoinServer.Lib.Runs

namespace JoinServer.Framing

open JoinServer.Lib.Lines JoinServer.Lib.Vectors JoinServer.Lib.Runs
open JoinServer.Store JoinServer.Server JoinServer.Server.Session

variable {s s' : Session} {a : Act}

/-- The non-empty lines that are complete, without their line ends. -/
def commands (received : Bytes) : List String :=
  ((lines '\n' received).filter (fun line => line ≠ [])).map String.ofList

/-- The commands executed so far are the first ones received, and a read
handler that is ready, and so may run at once, has as its count the offset
just past the first line end in `streambuf`. -/
structure Framed (s : Session) : Prop where
  inOrder : s.executed <+: commands s.received
  counts : ∀ n, some n ∈ s.reads → firstLine '\n' s.streambuf = some n

/-- A handler runs while another one is ready only if the next line is
complete and as long as the line it consumes. -/
def Fresh (s : Session) : Act → Prop
  | .handleRead i _ => ∀ n m, s.reads[i]? = some (some n) → some m ∈ s.reads.eraseIdx i →
    firstLine '\n' (s.streambuf.drop n) = some n
  | _ => True

structure InStep (s : Session) : Prop where
  consumed : ∃ consumed, s.received = consumed ++ s.streambuf ∧ rest '\n' consumed = [] ∧
    s.executed = commands consumed
  counts : ∀ n, some n ∈ s.reads → firstLine '\n' s.streambuf = some n

theorem inStep_start (storage : Storage) : InStep (new storage).start := by
  refine ⟨⟨[], rfl, rfl, rfl⟩, fun n hn => ?_⟩
  have hwaits : (new storage).start.reads = [none] := rfl
  simp [hwaits] at hn

theorem commands_grow {consumed : Bytes} (h : rest '\n' consumed = []) (xs : Bytes) :
    commands consumed <+: commands (consumed ++ xs) :=
  ((lines_grow h xs).filter _).map _

theorem commands_concat {consumed line : Bytes} (h : rest '\n' consumed = [])
    (hline : '\n' ∉ line) :
    commands (consumed ++ (line ++ ['\n'])) =
      commands consumed ++ if line = [] then [] else [String.ofList line] := by
  rw [commands, (lines_concat h hline).1]
  by_cases hl : line = [] <;> simp [commands, hl]

theorem framed_of_inStep (h : InStep s) : Framed s := by
  obtain ⟨⟨consumed, hr, hrest, he⟩, hcounts⟩ := h
  refine ⟨?_, hcounts⟩
  rw [hr, he]
  exact commands_grow hrest s.streambuf

theorem consume_line {n : Nat} (h : InStep s) (hn : firstLine '\n' s.streambuf = some n) :
    ∃ consumed, s.received = consumed ++ s.streambuf.drop n ∧ rest '\n' consumed = [] ∧
      commands consumed =
        s.executed ++ if 1 < n then [String.ofList (s.streambuf.take (n - 1))] else [] := by
  obtain ⟨⟨consumed, hr, hrest, he⟩, -⟩ := h
  obtain ⟨line, tail, hline, hbuf, rfl⟩ := firstLine_eq_some.mp hn
  refine ⟨consumed ++ (line ++ ['\n']), ?_, (lines_concat hrest hline).2, ?_⟩
  · rw [hr, hbuf]
    simp [List.drop_append]
  · rw [commands_concat hrest hline, he, hbuf]
    by_cases hl : line = []
    · simp [hl]
    · have hpos : 0 < line.length := List.length_pos_iff.mpr hl
      simp [hl, hpos]

theorem counts_drop {i early n : Nat} (hs : InStep s) (hi : s.reads[i]? = some (some n))
    (hc : Fresh s (.handleRead i early)) :
    ∀ m, some m ∈ s.reads.eraseIdx i → firstLine '\n' (s.streambuf.drop n) = some m := by
  intro m hm
  have hn := hs.counts n (List.mem_of_getElem? hi)
  have hm' := hs.counts m (List.mem_of_mem_eraseIdx hm)
  obtain rfl : n = m := by simpa [hn] using hm'
  exact hc n n hi hm

theorem next_inStep (h : Next s a s') (hs : InStep s) (hc : Fresh s a) : InStep s' := by
  cases h with
  | receive hi =>
    obtain ⟨consumed, hr, hrest, he⟩ := hs.consumed
    refine ⟨⟨consumed, by simp [hr], hrest, he⟩, fun n hn => ?_⟩
    obtain hn | hn := List.mem_or_eq_of_mem_set hn
    · exact firstLine_append _ (hs.counts n hn)
    · exact hn.symm
  | command hi hn =>
    obtain ⟨consumed, hr, hrest, he⟩ := consume_line hs (hs.counts _ (List.mem_of_getElem? hi))
    rw [if_pos hn] at he
    exact ⟨⟨consumed, hr, hrest, he.symm⟩, counts_drop hs hi hc⟩
  | emptyLine hi hn =>
    obtain ⟨consumed, hr, hrest, he⟩ := consume_line hs (hs.counts _ (List.mem_of_getElem? hi))
    rw [if_neg (Nat.not_lt_of_le hn), List.append_nil] at he
    exact ⟨⟨consumed, hr, hrest, he.symm⟩, counts_drop hs hi hc⟩
  | written hj hsent =>
    refine ⟨hs.consumed, fun n hn => ?_⟩
    rw [writeHandler_reads] at hn
    obtain hn | hn := List.mem_append.mp hn
    · exact hs.counts n hn
    · exact (List.mem_singleton.mp hn).symm
  | failRead hi => exact ⟨hs.consumed, fun n hn => hs.counts n (List.mem_of_mem_eraseIdx hn)⟩
  | transmit | failWrite | others => exact ⟨hs.consumed, hs.counts⟩

/-- Commands are framed right exactly as long as a read handler runs alone,
or the line after the one it consumes is complete and of the same length: the
count of any other handler that is ready was taken before the line went. -/
theorem commands_framed_iff (storage : Storage) (acts : List Act) :
    Throughout step Framed (new storage).start acts ↔
      Along step Fresh (new storage).start acts := by
  apply throughout_iff_along (I := InStep) (inStep_start storage) (fun s => framed_of_inStep)
  · exact fun s a s' hs hc h => next_inStep (next_of_step h) hs hc
  · intro s a s' hs h hf
    cases next_of_step h with
    | command hi hn | emptyLine hi hn =>
      intro n' m hi' hm
      obtain rfl := count_unique hi hi'
      -- Before the step both counts belong to the same line.
      have hn' := hs.counts _ (List.mem_of_getElem? hi)
      have hm' := hs.counts m (List.mem_of_mem_eraseIdx hm)
      obtain rfl : _ = m := by simpa [hn'] using hm'
      exact hf.counts _ hm
    | receive | transmit | written | failRead | failWrite | others => trivial

/-- Three lines arrive at once. The reads that two completed writes start both
find the second line; the handler that runs second cuts the third one. -/
theorem third_line_cut :
    ∃ s', run step (new (Storage.new doubling)).start
        [.transmit 0 "> ".toList, .receive 0 "a\nbcd\nefghi\n".toList, .handleRead 0 15,
          .handleWrite 0, .handleWrite 0, .handleRead 0 0, .handleRead 0 0] = some s' ∧
      s'.executed = ["a", "bcd", "efg"] ∧ commands s'.received = ["a", "bcd", "efghi"] ∧
      ¬ s'.executed <+: commands s'.received :=
  ⟨_, rfl, rfl, rfl, by decide⟩

end JoinServer.Framing
