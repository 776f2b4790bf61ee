import JoinServer.Output
import JoinServer.Outstanding

namespace JoinServer.Sending

open JoinServer.Lib.Runs
open JoinServer.Store JoinServer.Commands JoinServer.Server JoinServer.Server.Session
open JoinServer.Output

variable {s s' : Session} {a : Act}

def Sent (w : Write) : Prop := w.sent = w.length

def AllSent (ws : List Write) : Prop := ∀ w ∈ ws, Sent w

def Unspoiled (s : Session) : Prop := ∀ w ∈ s.writes, w.intact = true ∨ Sent w

/-- What the client sees is right so far, and will be. -/
def Sound (s : Session) : Prop := s.failed = false → Unspoiled s ∧ s.delivered <+: expected s

def resultText (s : Session) (n : Nat) : Bytes :=
  (execute s.storage (String.ofList (s.streambuf.take (n - 1)))).1.print.toList ++ ['\n']

/-- A handler that modifies `reply_` runs when all other writes are sent, and
the result of a command is sent before `prompt` comes. -/
def Settled (s : Session) : Act → Prop
  | .handleRead i early => s.failed = false → ∀ n, s.reads[i]? = some (some n) → 1 < n →
    AllSent s.writes ∧ (resultText s n).length ≤ early
  | .handleWrite j => s.failed = false → AllSent (s.writes.eraseIdx j)
  | _ => True

/-- What is missing from `expected` is what the last write has still to send. -/
inductive OnTrack (s : Session) : Prop
  | busy (older : List Write) (w : Write) (hw : s.writes = older ++ [w]) (hsent : AllSent older)
      (hintact : w.intact = true) (hlen : w.length = s.reply.length)
      (hd : s.delivered ++ s.reply.drop w.sent = expected s)
  | done (hsent : AllSent s.writes) (hd : s.delivered = expected s)

theorem onTrack_start (storage : Storage) : OnTrack (new storage).start :=
  .busy [] ⟨2, 0, true, Nat.zero_le 2⟩ rfl (fun _ hw => absurd hw List.not_mem_nil) rfl rfl rfl

theorem OnTrack.unspoiled (h : OnTrack s) : Unspoiled s := by
  intro v hv
  cases h with
  | busy older w hw hsent hintact hlen hd =>
    rw [hw] at hv
    obtain hv | hv := List.mem_append.mp hv
    · exact .inr (hsent v hv)
    · exact .inl (List.mem_singleton.mp hv ▸ hintact)
  | done hsent hd => exact .inr (hsent v hv)

theorem OnTrack.delivered_grows (h : OnTrack s) : s.delivered <+: expected s := by
  cases h with
  | busy older w hw hsent hintact hlen hd => exact ⟨_, hd⟩
  | done hsent hd => exact hd ▸ List.prefix_refl _

theorem OnTrack.complete (h : OnTrack s) (hsent : AllSent s.writes) : s.delivered = expected s := by
  cases h with
  | busy older w hw hsent' hintact hlen hd =>
    have hw' : w.sent = w.length := hsent w (by simp [hw])
    rwa [hw', hlen, List.drop_length, List.append_nil] at hd
  | done hsent' hd => exact hd

theorem allSent_spoil {ws : List Write} : AllSent (ws.map Write.spoil) ↔ AllSent ws := by
  simp [AllSent, Sent, Write.spoil]

theorem set_sent {ws : List Write} {j : Nat} {w : Write} {k : Nat} (hj : ws[j]? = some w)
    (hlen : w.sent + k ≤ w.length) (hsent : Sent w) : k = 0 ∧ ws.set j (w.advance k hlen) = ws := by
  obtain ⟨hlt, rfl⟩ := List.getElem?_eq_some_iff.mp hj
  obtain rfl : k = 0 := by
    unfold Sent at hsent
    omega
  exact ⟨rfl, List.set_getElem_self hlt⟩

theorem allSent_of_eraseIdx {ws : List Write} {j : Nat} {w : Write} (hj : ws[j]? = some w)
    (hsent : Sent w) (hothers : AllSent (ws.eraseIdx j)) : AllSent ws := by
  intro v hv
  obtain ⟨k, hk⟩ := List.mem_iff_getElem?.mp hv
  by_cases hkj : k = j
  · subst hkj
    obtain rfl : w = v := Option.some.inj (hj.symm.trans hk)
    exact hsent
  · exact hothers v (List.mem_eraseIdx_iff_getElem?.mpr ⟨k, hkj, hk⟩)

theorem transmit_onTrack {j : Nat} {bytes : Bytes} {w : Write} (hj : s.writes[j]? = some w)
    (hlen : w.sent + bytes.length ≤ w.length)
    (hbytes : w.intact → bytes = (s.reply.drop w.sent).take bytes.length) (h : OnTrack s) :
    OnTrack { s with
      writes := s.writes.set j (w.advance bytes.length hlen)
      delivered := s.delivered ++ bytes } := by
  have hidle : Sent w → OnTrack { s with
      writes := s.writes.set j (w.advance bytes.length hlen)
      delivered := s.delivered ++ bytes } := by
    intro hsent
    obtain ⟨hk, hset⟩ := set_sent hj hlen hsent
    rw [hset, List.eq_nil_of_length_eq_zero hk, List.append_nil]
    exact h
  cases h with
  | done hsent hd => exact hidle (hsent w (List.mem_of_getElem? hj))
  | busy older w₀ hw hsent hintact hreply hd =>
    rw [hw] at hj
    obtain hlt | hge := Nat.lt_or_ge j older.length
    · rw [List.getElem?_append_left hlt] at hj
      exact hidle (hsent w (List.mem_of_getElem? hj))
    · rw [List.getElem?_append_right hge] at hj
      obtain ⟨hj₀, rfl⟩ := List.getElem?_eq_some_iff.mp hj
      obtain rfl : j = older.length := by
        simp only [List.length_singleton] at hj₀
        omega
      simp only [Nat.sub_self, List.getElem_cons_zero] at hlen hbytes ⊢
      have hrest := List.take_append_drop bytes.length (s.reply.drop w₀.sent)
      rw [← hbytes hintact, List.drop_drop] at hrest
      refine .busy older (w₀.advance bytes.length hlen) (by simp [hw]) hsent hintact hreply ?_
      calc s.delivered ++ bytes ++ s.reply.drop (w₀.sent + bytes.length)
          = s.delivered ++ s.reply.drop w₀.sent := by rw [List.append_assoc, hrest]
        _ = expected s := hd

theorem runCommand_expected (s : Session) (n early : Nat) :
    expected (s.runCommand n early) = expected s ++ resultText s n ++ promptText := by
  simp [expected, resultText, runCommand, prompt, doWrite, setReply, promptText]

theorem runCommand_delivered (s : Session) (n early : Nat) :
    (s.runCommand n early).delivered = s.delivered ++ (resultText s n).take early := by
  simp [resultText, runCommand, prompt, doWrite, setReply]

theorem allSent_setReply (s : Session) (text : Bytes) :
    AllSent (s.setReply text).writes ↔ AllSent s.writes := allSent_spoil

theorem allSent_doWrite (s : Session) (early : Nat) :
    AllSent (s.doWrite early).writes ↔ AllSent s.writes ∧ s.reply.length ≤ early := by
  simp [AllSent, Sent, doWrite, or_imp, forall_and]

theorem runCommand_writes (s : Session) (n early : Nat) :
    ∃ older, (s.runCommand n early).writes = older ++ [⟨2, 0, true, Nat.zero_le 2⟩] ∧
      (∀ w ∈ older, w.intact = false) ∧
      (AllSent older ↔ AllSent s.writes ∧ (resultText s n).length ≤ early) := by
  refine ⟨_, rfl, ?_, ?_⟩
  · intro w hw
    obtain ⟨v, -, rfl⟩ := List.mem_map.mp hw
    rfl
  · rw [allSent_setReply, allSent_doWrite, allSent_setReply, allSent_setReply]
    exact Iff.rfl

theorem runCommand_onTrack {n early : Nat} (hsent : AllSent s.writes)
    (hearly : (resultText s n).length ≤ early) (hd : s.delivered = expected s) :
    OnTrack (s.runCommand n early) := by
  obtain ⟨older, hw, -, holder⟩ := runCommand_writes s n early
  refine .busy older _ hw (holder.mpr ⟨hsent, hearly⟩) rfl rfl ?_
  rw [runCommand_delivered, runCommand_expected, List.take_of_length_le hearly, hd]
  rfl

theorem writeHandler_onTrack (hsent : AllSent s.writes) (hd : s.delivered = expected s) :
    OnTrack s.writeHandler :=
  .done ((allSent_setReply s []).mpr hsent) hd

theorem next_onTrack (h : Next s a s') (hf : s'.failed = false) (hs : OnTrack s)
    (hc : Settled s a) : OnTrack s' := by
  cases h with
  | receive | emptyLine | others =>
    cases hs with
    | busy older w hw hsent hintact hlen hd => exact .busy older w hw hsent hintact hlen hd
    | done hsent hd => exact .done hsent hd
  | @command i early n hi hn =>
    obtain ⟨hsent, hearly⟩ := hc hf n hi hn
    exact runCommand_onTrack (s := { s with reads := s.reads.eraseIdx i }) hsent hearly
      (hs.complete hsent)
  | transmit hj hlen hbytes => exact transmit_onTrack hj hlen hbytes hs
  | @written j w hj hsent =>
    have hothers := hc hf
    exact writeHandler_onTrack (s := { s with writes := s.writes.eraseIdx j }) hothers
      (hs.complete (allSent_of_eraseIdx hj hsent hothers))
  | failRead => cases hf
  | failWrite => cases hf

theorem step_onTrack (hs : s.failed = false → OnTrack s) (hc : Settled s a)
    (h : s.step a = some s') : s'.failed = false → OnTrack s' := by
  intro hf
  have hnext := next_of_step h
  exact next_onTrack hnext hf (hs (Outstanding.next_failed hnext hf)) hc

theorem onTrack_throughout (storage : Storage) {acts : List Act}
    (h : Along step Settled (new storage).start acts) :
    Throughout step (fun s => s.failed = false → OnTrack s) (new storage).start acts :=
  throughout_of_along (I := fun s => s.failed = false → OnTrack s)
    (fun _ => onTrack_start storage) (fun _ _ _ hs hc h => step_onTrack hs hc h) h

/-- What the client is sent is right, and every outstanding write can finish,
exactly as long as no handler modifies `reply_` under a write that still has
bytes to send. -/
theorem output_sound_iff (storage : Storage) (acts : List Act) :
    Throughout step Sound (new storage).start acts ↔
      Along step Settled (new storage).start acts := by
  apply throughout_iff_along (I := fun s => s.failed = false → OnTrack s)
    (fun _ => onTrack_start storage)
  · exact fun s hs hf => ⟨(hs hf).unspoiled, (hs hf).delivered_grows⟩
  · exact fun s a s' hs hc h => step_onTrack hs hc h
  · intro s a s' hs h hP
    cases next_of_step h with
    | @command i early n hi hn =>
      intro hf n' hi' _
      obtain rfl := count_unique hi hi'
      obtain ⟨older, hw, hspoiled, holder⟩ :=
        runCommand_writes { s with reads := s.reads.eraseIdx i } n early
      apply holder.mp
      intro w hm
      obtain hi | hsent := (hP hf).1 w (by rw [hw]; exact List.mem_append_left _ hm)
      · cases (hspoiled w hm).symm.trans hi
      · exact hsent
    | emptyLine hi hn =>
      intro _ n' hi' hn'
      obtain rfl := count_unique hi hi'
      omega
    | @written j w hj hsent =>
      intro hf v hv
      obtain hi | hsent := (hP hf).1 v.spoil (List.mem_map_of_mem hv)
      · cases hi
      · exact hsent
    | receive | transmit | failRead | failWrite | others => trivial

end JoinServer.Sending
