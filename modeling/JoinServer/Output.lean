import JoinServer.Server
import JoinServer.Lib.Runs

namespace JoinServer.Output

open JoinServer.Lib.Vectors JoinServer.Lib.Runs
open JoinServer.Store JoinServer.Server JoinServer.Server.Session

variable {s s' : Session} {a : Act}

def promptText : Bytes := ['>', ' ']

/-- A prompt, and for every executed command its result, a line end and a
prompt. -/
def expected (s : Session) : Bytes :=
  promptText ++ s.printed.flatMap (fun text => text.toList ++ '\n' :: promptText)

/-- The client sees nothing else, and no reply was modified while a write was
sending it. -/
structure Faithful (s : Session) : Prop where
  delivered : s.delivered <+: expected s
  unmodified : s.clobbered = false

def NoCommand (s : Session) : Act → Prop
  | .handleRead i _ => ∀ n, s.reads[i]? = some (some n) → n ≤ 1
  | _ => True

inductive Prompting (s : Session) : Prop
  | sending (w : Write) (hw : s.writes = [w]) (hlen : w.length = 2) (hintact : w.intact = true)
      (hreply : s.reply = promptText) (hd : s.delivered = promptText.take w.sent)
  | sent (hw : s.writes = []) (hd : s.delivered <+: promptText)

structure Silent (s : Session) : Prop where
  unmodified : s.clobbered = false
  printed : s.printed = []
  prompting : Prompting s

theorem silent_start (storage : Storage) : Silent (new storage).start :=
  ⟨rfl, rfl, .sending ⟨2, 0, true, Nat.zero_le 2⟩ rfl rfl rfl rfl rfl⟩

theorem silent_faithful (h : Silent s) : Faithful s := by
  refine ⟨?_, h.unmodified⟩
  rw [expected, h.printed, List.flatMap_nil, List.append_nil]
  cases h.prompting with
  | sending w hw hlen hintact hreply hd => exact hd ▸ List.take_prefix _ _
  | sent hw hd => exact hd

theorem only_write {j : Nat} {w w₀ : Write} (hw : s.writes = [w₀]) (hj : s.writes[j]? = some w) :
    j = 0 ∧ w = w₀ := by
  rw [hw] at hj
  obtain ⟨hj₀, rfl⟩ := List.getElem?_eq_some_iff.mp hj
  obtain rfl : j = 0 := by simpa using hj₀
  exact ⟨rfl, rfl⟩

theorem transmit_prompting {j : Nat} {bytes : Bytes} {w : Write} (hj : s.writes[j]? = some w)
    (hlen : w.sent + bytes.length ≤ w.length)
    (hbytes : w.intact → bytes = (s.reply.drop w.sent).take bytes.length) (h : Prompting s) :
    Prompting { s with
      writes := s.writes.set j (w.advance bytes.length hlen)
      delivered := s.delivered ++ bytes } := by
  cases h with
  | sending w₀ hw htwo hintact hreply hd =>
    obtain ⟨rfl, rfl⟩ := only_write hw hj
    rw [hreply] at hbytes
    refine .sending (w.advance bytes.length hlen) (by simp [hw]) htwo hintact hreply ?_
    calc s.delivered ++ bytes
        = promptText.take w.sent ++ (promptText.drop w.sent).take bytes.length := by
          rw [hd, ← hbytes hintact]
      _ = promptText.take (w.sent + bytes.length) := List.take_add.symm
  | sent hw hd => simp [hw] at hj

theorem written_silent {j : Nat} {w : Write} (hj : s.writes[j]? = some w) (h : Silent s) :
    Silent (writeHandler { s with writes := s.writes.eraseIdx j }) := by
  cases h.prompting with
  | sending w₀ hw htwo hintact hreply hd =>
    obtain ⟨rfl, rfl⟩ := only_write hw hj
    have hall : s.delivered <+: promptText := hd ▸ List.take_prefix _ _
    refine ⟨?_, h.printed, .sent (by simp [writeHandler, doRead, setReply, hw]) hall⟩
    simp [writeHandler, doRead, setReply, hw, h.unmodified]
  | sent hw hd => simp [hw] at hj

theorem next_silent (h : Next s a s') (hs : Silent s) (hc : NoCommand s a) : Silent s' := by
  cases h with
  | receive | emptyLine | failRead | others =>
    refine ⟨hs.unmodified, hs.printed, ?_⟩
    cases hs.prompting with
    | sending w hw hlen hintact hreply hd => exact .sending w hw hlen hintact hreply hd
    | sent hw hd => exact .sent hw hd
  | command hi hn => exact absurd (hc _ hi) (Nat.not_le_of_lt hn)
  | transmit hj hlen hbytes =>
    exact ⟨hs.unmodified, hs.printed, transmit_prompting hj hlen hbytes hs.prompting⟩
  | written hj hsent => exact written_silent hj hs
  | failWrite hj =>
    refine ⟨hs.unmodified, hs.printed, ?_⟩
    cases hs.prompting with
    | sending w hw hlen hintact hreply hd =>
      obtain rfl := by simpa [hw] using hj
      exact .sent (by simp [hw]) (hd ▸ List.take_prefix _ _)
    | sent hw hd => simp [hw] at hj

/-- The output is right exactly as long as no command runs: the read handler
starts to send the result and lets the prompt replace it in `reply_`. -/
theorem output_faithful_iff (storage : Storage) (acts : List Act) :
    Throughout step Faithful (new storage).start acts ↔
      Along step NoCommand (new storage).start acts := by
  apply throughout_iff_along (I := Silent) (silent_start storage) (fun s => silent_faithful)
  · exact fun s a s' hs hc h => next_silent (next_of_step h) hs hc
  · intro s a s' hs h hf
    cases next_of_step h with
    | command hi hn =>
      -- The write of the result is outstanding when `prompt` assigns `reply_`.
      have hclob := hf.unmodified
      rw [runCommand_clobbered] at hclob
      cases hclob
    | emptyLine hi hn =>
      intro n hn'
      exact count_unique hi hn' ▸ hn
    | receive | transmit | written | failRead | failWrite | others => trivial

/-- The prompt of `start` is out, the client sends `x`, and the write of the
result sends its first bytes after `reply_` was set to the next prompt. -/
theorem prompt_replaces_result :
    ∃ s', run step (new (Storage.new doubling)).start
        [.transmit 0 ['>', ' '], .handleWrite 0, .receive 0 ['x', '\n'], .handleRead 0 0,
          .transmit 0 ['>', ' ']] = some s' ∧
      s'.printed = ["UnknownPrinter"] ∧ s'.delivered = "> > ".toList ∧
      ¬ s'.delivered <+: expected s' :=
  ⟨_, rfl, rfl, rfl, by decide⟩

end JoinServer.Output
