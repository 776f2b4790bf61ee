import JoinServer.Scheduling
import JoinServer.Sending

namespace JoinServer.Draining

open JoinServer.Lib.Lines JoinServer.Lib.Vectors JoinServer.Lib.Runs
open JoinServer.Store JoinServer.Server JoinServer.Server.Session
open JoinServer.Framing JoinServer.Outstanding JoinServer.Scheduling JoinServer.Sending

variable {s s' : Session} {a : Act}

/-- A complete line is not left behind: a handler is ready for it, or a write
is outstanding, whose completion looks for a line again. -/
def Attended (s : Session) : Prop :=
  s.failed = false → ∀ n, firstLine '\n' s.streambuf = some n → ready s.reads ≠ 0 ∨ s.writes ≠ []

/-- A handler with a count of at most 1 starts nothing. It runs beside another
handler that is ready or a write, or leaves no complete line in the buffer. -/
def Relieved (s : Session) : Act → Prop
  | .handleRead i _ => s.failed = false → ∀ n, s.reads[i]? = some (some n) → n ≤ 1 →
    ∀ m, firstLine '\n' (s.streambuf.drop n) = some m →
      ready (s.reads.eraseIdx i) ≠ 0 ∨ s.writes ≠ []
  | _ => True

theorem next_attended (h : Next s a s') (hs : Attended s) (hc : Relieved s a) : Attended s' := by
  intro hf n hn
  cases h with
  | receive hi =>
    left
    rw [ready_set hi, hn]
    exact Nat.succ_ne_zero _
  | command hi hn' =>
    right
    rw [← List.length_pos_iff, runCommand_writes_length]
    omega
  | emptyLine hi hn' => exact hc hf _ hi hn' n hn
  | transmit hj hlen hbytes =>
    obtain hready | hw := hs hf n hn
    · exact .inl hready
    · right
      simpa using hw
  | written hj hsent =>
    left
    change firstLine '\n' s.streambuf = some n at hn
    rw [writeHandler_reads, ready, List.countP_append, hn]
    exact Nat.succ_ne_zero _
  | failRead hi => cases hf
  | failWrite hj => cases hf
  | others storage => exact hs hf n hn

theorem next_unskipped (h : Next s a s') (hskip : s'.skipped = 0) :
    s.skipped = 0 ∧ Relieved s a := by
  cases h with
  | emptyLine | failRead => cases hskip
  | command hi hn =>
    refine ⟨hskip, fun _ n hi' hle => ?_⟩
    obtain rfl := count_unique hi hi'
    omega
  | receive | transmit | written | failWrite | others => exact ⟨hskip, trivial⟩

def Backed (s : Session) : Prop := ∀ w ∈ s.writes, w.intact = true → w.length = s.reply.length

theorem doWrite_backed {early : Nat} (hs : ∀ w ∈ s.writes, w.intact = false) :
    Backed (s.doWrite early) := by
  intro w hw hi
  obtain hw | hw := List.mem_append.mp hw
  · cases (hs w hw).symm.trans hi
  · obtain rfl := List.mem_singleton.mp hw
    rfl

theorem setReply_intact (s : Session) (text : Bytes) :
    ∀ w ∈ (s.setReply text).writes, w.intact = false := by
  intro w hw
  obtain ⟨v, -, rfl⟩ := List.mem_map.mp hw
  rfl

theorem next_backed (h : Next s a s') (hs : Backed s) : Backed s' := by
  cases h with
  | command hi hn => exact doWrite_backed (setReply_intact _ _)
  | written hj hsent =>
    intro w hw hi
    cases (setReply_intact _ [] w hw).symm.trans hi
  | @transmit j bytes w hj hlen hbytes =>
    intro v hv hi
    obtain hv | rfl := List.mem_or_eq_of_mem_set hv
    · exact hs v hv hi
    · exact hs w (List.mem_of_getElem? hj) hi
  | failWrite hj => exact fun w hw => hs w (List.mem_of_mem_eraseIdx hw)
  | receive | emptyLine | failRead | others => exact hs

/-- The empty lines among those that were consumed are the ones skipped. -/
def Noticed (s : Session) : Prop :=
  s.failed = false → ∃ consumed, s.received = consumed ++ s.streambuf ∧
    rest '\n' consumed = [] ∧ (s.skipped ≠ 0 → [] ∈ lines '\n' consumed)

theorem consumed_line {consumed : Bytes} {n : Nat} (hr : s.received = consumed ++ s.streambuf)
    (hrest : rest '\n' consumed = []) (hn : firstLine '\n' s.streambuf = some n) :
    ∃ line, n = line.length + 1 ∧
      s.received = (consumed ++ (line ++ ['\n'])) ++ s.streambuf.drop n ∧
      lines '\n' (consumed ++ (line ++ ['\n'])) = lines '\n' consumed ++ [line] ∧
      rest '\n' (consumed ++ (line ++ ['\n'])) = [] := by
  obtain ⟨line, tail, hline, hbuf, rfl⟩ := firstLine_eq_some.mp hn
  obtain ⟨hlines, hrest'⟩ := lines_concat hrest hline
  exact ⟨line, rfl, by simp [hr, hbuf, List.drop_append], hlines, hrest'⟩

theorem next_noticed (h : Next s a s') (hi : InStep s) (hs : Noticed s) : Noticed s' := by
  intro hf
  obtain ⟨consumed, hr, hrest, hskip⟩ := hs (next_failed h hf)
  cases h with
  | receive hi' => exact ⟨consumed, by simp [hr], hrest, hskip⟩
  | command hi' hn =>
    obtain ⟨line, -, hr', hlines, hrest'⟩ :=
      consumed_line hr hrest (hi.counts _ (List.mem_of_getElem? hi'))
    refine ⟨_, hr', hrest', fun hne => ?_⟩
    rw [hlines]
    exact List.mem_append_left _ (hskip hne)
  | emptyLine hi' hn =>
    obtain ⟨line, hlen, hr', hlines, hrest'⟩ :=
      consumed_line hr hrest (hi.counts _ (List.mem_of_getElem? hi'))
    refine ⟨_, hr', hrest', fun _ => ?_⟩
    obtain rfl : line = [] := List.eq_nil_of_length_eq_zero (by omega)
    rw [hlines]
    exact List.mem_append_right _ (List.mem_singleton.mpr rfl)
  | failRead => cases hf
  | failWrite => cases hf
  | transmit | written | others => exact ⟨consumed, hr, hrest, hskip⟩

structure Orderly (s : Session) : Prop where
  inStep : InStep s
  one : ready s.reads ≤ 1
  balanced : s.failed = false → Outstanding.Balanced s
  attended : s.skipped = 0 → Attended s
  backed : Backed s
  noticed : Noticed s

theorem orderly_start (storage : Storage) : Orderly (new storage).start where
  inStep := inStep_start storage
  one := Nat.zero_le 1
  balanced _ := rfl
  attended _ _ n hn := by cases hn
  backed := doWrite_backed (fun w hw => absurd hw List.not_mem_nil)
  noticed _ := ⟨[], rfl, rfl, fun hne => absurd rfl hne⟩

theorem next_orderly (h : Next s a s') (hs : Orderly s) (hc : ReadsFirst s a) : Orderly s' where
  inStep := next_inStep h hs.inStep (fresh_of_ready hs.one)
  one := next_ready h hs.one hc
  balanced hf := next_balanced h hf (hs.balanced (next_failed h hf))
  attended hskip :=
    have hbefore := next_unskipped h hskip
    next_attended h (hs.attended hbefore.1) hbefore.2
  backed := next_backed h hs.backed
  noticed := next_noticed h hs.inStep hs.noticed

def unsent (ws : List Write) : Nat := ws.countP (fun w => w.sent ≠ w.length)

theorem transmit_rest {j : Nat} {w : Write} (hb : Backed s) (hj : s.writes[j]? = some w)
    (hw : ¬ Sent w) : ∃ bytes s', s.step (.transmit j bytes) = some s' ∧ bytes ≠ [] ∧
      unsent s'.writes < unsent s.writes ∧ s'.writes.length = s.writes.length ∧
      s' = { s with writes := s'.writes, delivered := s'.delivered } := by
  have hbytes : ∃ bytes : Bytes, bytes.length = w.length - w.sent ∧
      (w.intact = true → bytes = (s.reply.drop w.sent).take bytes.length) := by
    cases hi : w.intact with
    | true =>
      have hlen := hb w (List.mem_of_getElem? hj) hi
      exact ⟨s.reply.drop w.sent, by simp [hlen], fun _ => List.take_length.symm⟩
    | false => exact ⟨List.replicate (w.length - w.sent) ' ', by simp, fun h => by cases h⟩
  obtain ⟨bytes, hlen, hbytes⟩ := hbytes
  have hall : w.sent + bytes.length = w.length := by
    have hfits := w.fits
    omega
  obtain ⟨hlt, hget⟩ := List.getElem?_eq_some_iff.mp hj
  have hpos : 0 < unsent s.writes :=
    List.countP_pos_iff.mpr ⟨w, List.mem_of_getElem? hj, decide_eq_true hw⟩
  refine ⟨bytes, { s with
    writes := s.writes.set j (w.advance bytes.length (Nat.le_of_eq hall))
    delivered := s.delivered ++ bytes }, ?_, ?_, ?_, by simp, rfl⟩
  · simp only [step, hj]
    exact dif_pos ⟨Nat.le_of_eq hall, hbytes⟩
  · rintro rfl
    exact hw hall
  · have hnew : decide ((w.advance bytes.length (Nat.le_of_eq hall)).sent ≠
        (w.advance bytes.length (Nat.le_of_eq hall)).length) = false :=
      decide_eq_false (not_not.mpr hall)
    have hold : decide (s.writes[j].sent ≠ s.writes[j].length) = true :=
      decide_eq_true (hget ▸ hw)
    unfold unsent at hpos ⊢
    rw [List.countP_set hlt, hnew, hold]
    simp only [if_true, Bool.false_eq_true, if_false]
    omega

theorem flush (hs : Orderly s) : ∃ acts s', run step s acts = some s' ∧ Orderly s' ∧
    AllSent s'.writes ∧ s'.writes.length = s.writes.length ∧
    s' = { s with writes := s'.writes, delivered := s'.delivered } ∧
    (s.failed = false → OnTrack s → OnTrack s') := by
  induction hn : unsent s.writes using Nat.strong_induction_on generalizing s with
  | _ n ih =>
    by_cases hall : AllSent s.writes
    · exact ⟨[], s, rfl, hs, hall, rfl, rfl, fun _ h => h⟩
    · obtain ⟨w, hm, hw⟩ : ∃ w ∈ s.writes, ¬ Sent w := by simpa [AllSent] using hall
      obtain ⟨j, hj⟩ := List.mem_iff_getElem?.mp hm
      obtain ⟨bytes, s₁, hstep, -, hless, hlen₁, hframe₁⟩ := transmit_rest hs.backed hj hw
      have hs₁ := next_orderly (next_of_step hstep) hs trivial
      obtain ⟨acts, s', hrun, hs', hsent, hlen, hframe, htrack⟩ := ih _ (hn ▸ hless) hs₁ rfl
      have hfailed : s₁.failed = s.failed := by rw [hframe₁]
      refine ⟨.transmit j bytes :: acts, s', by rw [run, hstep, Option.bind_some, hrun], hs', hsent,
        hlen.trans hlen₁, by rw [hframe, hframe₁], fun hf h => ?_⟩
      rw [← hfailed] at hf
      exact htrack hf (next_onTrack (next_of_step hstep) hf h trivial)

def work (s : Session) : Nat := 2 * s.streambuf.length + s.writes.length

theorem skipped_zero (hs : Orderly s) (hf : s.failed = false)
    (hlines : ∀ line ∈ lines '\n' s.received, line ≠ []) : s.skipped = 0 := by
  obtain ⟨consumed, hr, hrest, hskip⟩ := hs.noticed hf
  by_contra hne
  exact hlines [] (hr ▸ (lines_grow hrest s.streambuf).subset (hskip hne)) rfl

theorem ready_command (hs : Orderly s) (hf : s.failed = false)
    (hlines : ∀ line ∈ lines '\n' s.received, line ≠ []) (hready : ready s.reads ≠ 0) :
    ∃ i n : Nat, s.reads[i]? = some (some n) ∧ 1 < n ∧ n ≤ s.streambuf.length := by
  obtain ⟨found, hm, hfound⟩ := List.countP_pos_iff.mp (Nat.pos_of_ne_zero hready)
  obtain ⟨n, rfl⟩ := Option.isSome_iff_exists.mp hfound
  obtain ⟨i, hi⟩ := List.mem_iff_getElem?.mp hm
  have hn := hs.inStep.counts n hm
  obtain ⟨consumed, hr, hrest, -⟩ := hs.noticed hf
  obtain ⟨line, rfl, hr', hl, hrest'⟩ := consumed_line hr hrest hn
  have hline : line ∈ lines '\n' s.received := by
    rw [hr']
    exact (lines_grow hrest' _).subset (hl ▸ List.mem_append_right _ (List.mem_singleton.mpr rfl))
  have hpos := List.length_pos_iff.mpr (hlines line hline)
  obtain ⟨_, tail, -, hbuf, hlen⟩ := firstLine_eq_some.mp hn
  refine ⟨i, _, hi, by omega, ?_⟩
  rw [hbuf, List.length_append, List.length_cons]
  omega

theorem drain_step (hs : Orderly s) (hf : s.failed = false)
    (hlines : ∀ line ∈ lines '\n' s.received, line ≠ [])
    (hleft : ready s.reads ≠ 0 ∨ s.writes ≠ []) :
    ∃ acts s', run step s acts = some s' ∧ Orderly s' ∧ s'.failed = false ∧
      s'.received = s.received ∧ work s' < work s ∧ (OnTrack s → OnTrack s') := by
  obtain ⟨acts, s₁, hrun, hs₁, hsent, hlen, hframe, htrack⟩ := flush hs
  have hfailed : s₁.failed = false := by rw [hframe, hf]
  have hreceived : s₁.received = s.received := by rw [hframe]
  have hreads : s₁.reads = s.reads := by rw [hframe]
  have hbuf : s₁.streambuf = s.streambuf := by rw [hframe]
  by_cases hready : ready s.reads = 0
  · have hw : s₁.writes ≠ [] := by
      rw [← List.length_pos_iff, hlen, List.length_pos_iff]
      exact hleft.resolve_left (not_not.mpr hready)
    obtain ⟨w, ws, hws⟩ := List.exists_cons_of_ne_nil hw
    have hj : s₁.writes[0]? = some w := by rw [hws, List.getElem?_cons_zero]
    have hstep : s₁.step (.handleWrite 0) =
        some (writeHandler { s₁ with writes := s₁.writes.eraseIdx 0 }) := by
      simp only [step, hj]
      exact if_pos (hsent w (List.mem_of_getElem? hj))
    have hothers : AllSent (s₁.writes.eraseIdx 0) :=
      fun v hv => hsent v (List.mem_of_mem_eraseIdx hv)
    have hfirst : ReadsFirst s₁ (.handleWrite 0) := by
      change ready s₁.reads = 0
      rw [hreads, hready]
    refine ⟨acts ++ [.handleWrite 0], _, run_concat.mpr ⟨s₁, hrun, hstep⟩,
      next_orderly (next_of_step hstep) hs₁ hfirst, hfailed, hreceived, ?_, fun h =>
        next_onTrack (next_of_step hstep) hfailed (htrack hf h) (fun _ => hothers)⟩
    have hless := List.length_eraseIdx_add_one (List.getElem?_eq_some_iff.mp hj).1
    unfold work
    rw [writeHandler_writes_length]
    change 2 * s₁.streambuf.length + (s₁.writes.eraseIdx 0).length < _
    rw [hbuf]
    omega
  · obtain ⟨i, n, hi, hn, hle⟩ := ready_command hs₁ hfailed (hreceived ▸ hlines) (hreads ▸ hready)
    have hstep : s₁.step (.handleRead i (resultText s₁ n).length) =
        some (runCommand { s₁ with reads := s₁.reads.eraseIdx i } n (resultText s₁ n).length) := by
      simp only [step, hi, readHandler, if_pos hn]
      exact if_pos (by omega)
    have hsettled : Settled s₁ (.handleRead i (resultText s₁ n).length) := by
      intro _ n' hi' _
      obtain rfl := count_unique hi hi'
      exact ⟨hsent, Nat.le_refl _⟩
    refine ⟨acts ++ [.handleRead i (resultText s₁ n).length], _, run_concat.mpr ⟨s₁, hrun, hstep⟩,
      next_orderly (next_of_step hstep) hs₁ trivial, hfailed, hreceived, ?_, fun h =>
        next_onTrack (next_of_step hstep) hfailed (htrack hf h) hsettled⟩
    unfold work
    rw [runCommand_writes_length]
    change 2 * (s₁.streambuf.drop n).length + (s₁.writes.length + 2) < _
    rw [List.length_drop, hlen]
    rw [hbuf] at hle ⊢
    omega

theorem drain (hs : Orderly s) (hf : s.failed = false)
    (hlines : ∀ line ∈ lines '\n' s.received, line ≠ []) :
    ∃ acts s', run step s acts = some s' ∧ Orderly s' ∧ s'.failed = false ∧
      s'.received = s.received ∧ ready s'.reads = 0 ∧ s'.writes = [] ∧ (OnTrack s → OnTrack s') := by
  induction hn : work s using Nat.strong_induction_on generalizing s with
  | _ n ih =>
    by_cases hleft : ready s.reads ≠ 0 ∨ s.writes ≠ []
    · obtain ⟨acts, s₁, hrun, hs₁, hf₁, hr₁, hless, htrack⟩ := drain_step hs hf hlines hleft
      obtain ⟨acts', s', hrun', hs', hf', hr', hready, hw, htrack'⟩ :=
        ih _ (hn ▸ hless) hs₁ hf₁ (hr₁ ▸ hlines) rfl
      refine ⟨acts ++ acts', s', ?_, hs', hf', hr'.trans hr₁, hready, hw, htrack' ∘ htrack⟩
      rw [run_append, hrun, Option.bind_some, hrun']
    · obtain ⟨hready, hw⟩ := not_or.mp hleft
      exact ⟨[], s, rfl, hs, hf, rfl, not_not.mp hready, not_not.mp hw, id⟩

theorem lines_eq_nil {xs : Bytes} (h : firstLine '\n' xs = none) : lines '\n' xs = [] := by
  induction xs with
  | nil => rfl
  | cons x xs ih =>
    by_cases hx : x = '\n'
    · simp [firstLine, hx] at h
    · have hrest : firstLine '\n' xs = none := by simpa [firstLine, hx] using h
      have hlines := ih hrest
      unfold lines at hlines
      simp [lines, split, hx, hlines]

theorem drained_executed (hs : Orderly s) (hf : s.failed = false)
    (hlines : ∀ line ∈ lines '\n' s.received, line ≠ []) (hready : ready s.reads = 0)
    (hw : s.writes = []) : s.executed = commands s.received := by
  obtain ⟨consumed, hr, hrest, he⟩ := hs.inStep.consumed
  have hnone : firstLine '\n' s.streambuf = none := by
    cases hn : firstLine '\n' s.streambuf with
    | none => rfl
    | some n =>
      obtain hready' | hw' := hs.attended (skipped_zero hs hf hlines) hf n hn
      · exact absurd hready hready'
      · exact absurd hw hw'
  have hlast : lines '\n' s.streambuf = [] := lines_eq_nil hnone
  rw [he, hr, commands, commands, (split_append hrest s.streambuf).1, hlast, List.append_nil]

theorem orderly_of_run (storage : Storage) {acts : List Act}
    (hfirst : Along step ReadsFirst (new storage).start acts)
    (hrun : run step (new storage).start acts = some s) : Orderly s :=
  throughout_of_along (orderly_start storage)
    (fun _ _ _ hs hc h => next_orderly (next_of_step h) hs hc) hfirst acts s
    (List.prefix_refl _) hrun

/-- Until something fails, lines are left behind by those handlers with a count
of at most 1 that have nothing beside them. Where read handlers go first and
no line is empty, none is left behind. -/
theorem lines_attended (storage : Storage) (acts : List Act) :
    (Throughout step Attended (new storage).start acts ↔
      Along step Relieved (new storage).start acts) ∧
    (Along step ReadsFirst (new storage).start acts →
      Throughout step (fun s => (∀ line ∈ lines '\n' s.received, line ≠ []) → Attended s)
        (new storage).start acts) := by
  constructor
  · apply throughout_iff_along (I := Attended) (fun _ n hn => by cases hn) (fun s hs => hs)
    · exact fun s a s' hs hc h => next_attended (next_of_step h) hs hc
    · intro s a s' _ h hs'
      cases next_of_step h with
      | emptyLine hi hn =>
        intro hf n hi' _ m hm
        obtain rfl := count_unique hi hi'
        exact hs' hf m hm
      | command hi hn =>
        intro _ n hi' hle
        obtain rfl := count_unique hi hi'
        omega
      | receive | transmit | written | failRead | failWrite | others => trivial
  · intro hfirst bs s hp hrun hlines hf
    have hs := throughout_of_along (orderly_start storage)
      (fun _ _ _ hs hc h => next_orderly (next_of_step h) hs hc) hfirst bs s hp hrun
    exact hs.attended (skipped_zero hs hf hlines) hf

/-- Every line of the client is executed, every write is completed, and the
session waits for more. -/
structure CaughtUp (input : Bytes) (s : Session) : Prop where
  received : s.received = input
  executed : s.executed = commands input
  writes : s.writes = []
  reads : s.reads = List.replicate ((commands input).length + 2) none

theorem caughtUp_of_idle (hs : Orderly s) (hf : s.failed = false)
    (hlines : ∀ line ∈ lines '\n' s.received, line ≠ []) (hready : ready s.reads = 0)
    (hw : s.writes = []) : CaughtUp s.received s where
  received := rfl
  executed := drained_executed hs hf hlines hready hw
  writes := hw
  reads := by
    have hbalance := hs.balanced hf
    rw [Outstanding.Balanced, hw, skipped_zero hs hf hlines,
      drained_executed hs hf hlines hready hw] at hbalance
    refine List.eq_replicate_iff.mpr ⟨by simpa using hbalance, fun found hm => ?_⟩
    have hnone := List.countP_eq_zero.mp hready found hm
    simpa using hnone

/-- Where read handlers went first and no line was empty, a session can go on
without another arrival until it has caught up. If no reply was spoiled before,
the client has then been sent exactly what it should see. -/
theorem lines_can_be_answered (storage : Storage) (acts : List Act) (s : Session)
    (hrun : run step (new storage).start acts = some s)
    (hfirst : Along step ReadsFirst (new storage).start acts) (hf : s.failed = false)
    (hlines : ∀ line ∈ lines '\n' s.received, line ≠ []) :
    ∃ acts' s', run step s acts' = some s' ∧ CaughtUp s.received s' ∧
      (Along step Settled (new storage).start acts → s'.delivered = Output.expected s') := by
  obtain ⟨acts', s', hrun', hs', hf', hr', hready, hw, htrack⟩ :=
    drain (orderly_of_run storage hfirst hrun) hf hlines
  refine ⟨acts', s', hrun', hr' ▸ caughtUp_of_idle hs' hf' (hr' ▸ hlines) hready hw, ?_⟩
  intro hsettled
  have hdone := htrack (onTrack_throughout storage hsettled acts s (List.prefix_refl _) hrun hf)
  exact hdone.complete (by rw [hw]; exact fun w hm => absurd hm List.not_mem_nil)

theorem lines_can_be_answered_sample :
    ∃ s, run step (new (Storage.new doubling)).start [.receive 0 "a\nbcd\n".toList] = some s ∧
      ∃ acts' s', run step s acts' = some s' ∧ s'.executed = ["a", "bcd"] ∧
        s'.reads = [none, none, none, none] ∧ s'.delivered = Output.expected s' := by
  have hfirst : Along step ReadsFirst (new (Storage.new doubling)).start
      [.receive 0 "a\nbcd\n".toList] :=
    along_step rfl rfl along_nil
  have hsettled : Along step Settled (new (Storage.new doubling)).start
      [.receive 0 "a\nbcd\n".toList] :=
    along_step rfl trivial along_nil
  obtain ⟨acts', s', hrun, hcaught, hdelivered⟩ :=
    lines_can_be_answered (Storage.new doubling) [.receive 0 "a\nbcd\n".toList] _ rfl hfirst rfl
      (by decide)
  exact ⟨_, rfl, acts', s', hrun, hcaught.executed, hcaught.reads, hdelivered hsettled⟩

end JoinServer.Draining
