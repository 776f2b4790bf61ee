import JoinServer.Accepting
import JoinServer.Draining
import Mathlib.Algebra.BigOperators.Group.List.Basic

namespace JoinServer.Answering

open JoinServer.Lib.Lines JoinServer.Lib.Vectors JoinServer.Lib.Runs
open JoinServer.Lib.Products (actsOf)
open JoinServer.Store JoinServer.Commands JoinServer.Server JoinServer.Server.Session
open JoinServer.Framing JoinServer.Scheduling JoinServer.Sending
open JoinServer.Draining
open JoinServer.Accepting hiding step

variable {s s' : Session} {a : Act}

/-- The acts by which a session gets on with what it has: a handler runs, or
bytes of a write go out. -/
def Busy : Act → Prop
  | .handleRead _ _ | .handleWrite _ => True
  | .transmit _ bytes => bytes ≠ []
  | .receive _ _ | .failRead _ | .failWrite _ | .others _ => False

theorem sum_map_set {α : Type} (f : α → Nat) {xs : List α} {i : Nat} {x : α}
    (h : xs[i]? = some x) (y : α) : ((xs.set i y).map f).sum + f x = (xs.map f).sum + f y := by
  obtain ⟨hlt, rfl⟩ := List.getElem?_eq_some_iff.mp h
  have hold := ((List.getElem_cons_eraseIdx_perm hlt).map f).sum_eq
  have hnew := ((List.set_perm_cons_eraseIdx hlt y).map f).sum_eq
  rw [List.map_cons, List.sum_cons] at hold hnew
  omega

def toll (w : Write) : Nat := w.length - w.sent + 1

def due (ws : List Write) : Nat := (ws.map toll).sum

/-- A bound on the steps a session can take before more bytes arrive. -/
def load (s : Session) : Nat := 16 * s.streambuf.length + due s.writes

@[simp] theorem due_setReply (s : Session) (text : Bytes) :
    due (s.setReply text).writes = due s.writes := by
  rw [due, setReply, List.map_map, due]
  rfl

theorem due_doWrite (s : Session) (early : Nat) :
    due (s.doWrite early).writes ≤ due s.writes + s.reply.length + 1 := by
  simp only [due, toll, doWrite, List.map_append, List.sum_append, List.map_cons, List.map_nil,
    List.sum_cons, List.sum_nil]
  omega

theorem print_short (p : ResultPrinter) : p.print.toList.length ≤ 26 := by
  cases p <;> decide

theorem due_prompt (s : Session) : due s.prompt.writes ≤ due s.writes + 3 := by
  have hprompt := due_doWrite (s.setReply "> ".toList) 0
  rw [due_setReply] at hprompt
  exact hprompt

theorem due_runCommand (s : Session) (n early : Nat) :
    due (s.runCommand n early).writes ≤ due s.writes + 31 := by
  obtain ⟨t, ht, hdue, hreply⟩ : ∃ t : Session, s.runCommand n early = (t.doWrite early).prompt ∧
      due t.writes = due s.writes ∧ t.reply = resultText s n :=
    ⟨_, rfl, by rw [due_setReply, due_setReply], rfl⟩
  have hshort : (resultText s n).length ≤ 27 := by
    rw [resultText, List.length_append, List.length_singleton]
    exact Nat.succ_le_succ (print_short _)
  have hresult := due_doWrite t early
  have hprompt := due_prompt (t.doWrite early)
  rw [hdue, hreply] at hresult
  rw [ht]
  omega

theorem ready_fits (hs : Orderly s) {i n : Nat} (hi : s.reads[i]? = some (some n)) :
    0 < n ∧ n ≤ s.streambuf.length := by
  obtain ⟨line, tail, -, hbuf, rfl⟩ :=
    firstLine_eq_some.mp (hs.inStep.counts n (List.mem_of_getElem? hi))
  rw [hbuf, List.length_append, List.length_cons]
  omega

theorem load_decreases (hs : Orderly s) (hbusy : Busy a) (h : Next s a s') : load s' < load s := by
  unfold load
  cases h with
  | @command i early n hi hn =>
    have hdue := due_runCommand { s with reads := s.reads.eraseIdx i } n early
    have hfits := ready_fits hs hi
    change 16 * (s.streambuf.drop n).length + _ < _
    rw [List.length_drop]
    change _ ≤ due s.writes + 31 at hdue
    omega
  | @emptyLine i early n hi hn =>
    have hfits := ready_fits hs hi
    change 16 * (s.streambuf.drop n).length + due s.writes < _
    rw [List.length_drop]
    omega
  | @transmit j bytes w hj hlen hbytes =>
    have hset := sum_map_set toll hj (w.advance bytes.length hlen)
    have hpos := List.length_pos_iff.mpr hbusy
    have hless : toll (w.advance bytes.length hlen) < toll w := by
      simp only [toll, Write.advance]
      omega
    unfold due
    simp only
    omega
  | @written j w hj hsent =>
    obtain ⟨hlt, rfl⟩ := List.getElem?_eq_some_iff.mp hj
    have herase := ((List.getElem_cons_eraseIdx_perm hlt).map toll).sum_eq
    rw [List.map_cons, List.sum_cons] at herase
    have hpos : 0 < toll s.writes[j] := Nat.succ_pos _
    have hdue : due (writeHandler { s with writes := s.writes.eraseIdx j }).writes =
        due (s.writes.eraseIdx j) := due_setReply _ []
    rw [hdue]
    change 16 * s.streambuf.length + _ < _
    unfold due
    omega
  | receive | failRead | failWrite | others => cases hbusy

theorem busy_keeps (hbusy : Busy a) (h : Next s a s') :
    s'.received = s.received ∧ s'.failed = s.failed := by
  cases h with
  | command | emptyLine | transmit | written => exact ⟨rfl, rfl⟩
  | receive | failRead | failWrite | others => cases hbusy

theorem idle_of_stuck (hs : Orderly s) (hf : s.failed = false)
    (hlines : ∀ line ∈ lines '\n' s.received, line ≠ [])
    (hstuck : ∀ a, Busy a → ReadsFirst s a → s.step a = none) :
    ready s.reads = 0 ∧ s.writes = [] := by
  have hready : ready s.reads = 0 := by
    by_contra hready
    obtain ⟨i, n, hi, hn, hle⟩ := ready_command hs hf hlines hready
    have hnone := hstuck (.handleRead i 0) trivial trivial
    simp only [step, hi, readHandler, if_pos hn] at hnone
    rw [if_pos (by omega)] at hnone
    cases hnone
  refine ⟨hready, ?_⟩
  by_contra hw
  obtain ⟨w, ws, hws⟩ := List.exists_cons_of_ne_nil hw
  have hj : s.writes[0]? = some w := by rw [hws, List.getElem?_cons_zero]
  by_cases hsent : Sent w
  · have hnone := hstuck (.handleWrite 0) trivial hready
    have hall : w.sent = w.length := hsent
    simp only [step, hj] at hnone
    rw [if_pos hall] at hnone
    cases hnone
  · obtain ⟨bytes, s', hstep, hbytes, -⟩ := transmit_rest hs.backed hj hsent
    cases (hstuck (.transmit 0 bytes) hbytes trivial).symm.trans hstep

/-- A session goes on with what it has, and a handler that is ready goes first. -/
def Working (server : Server) : Event → Prop
  | .session i a => Busy a ∧ ∀ s, server.session[i]? = some s → ReadsFirst s a
  | .accept | .failAccept => False

structure InOrder (server : Server) : Prop where
  shared : Shared server
  orderly : ∀ s ∈ server.session, Orderly s

def totalLoad (server : Server) : Nat := (server.session.map load).sum

def Kept (s s' : Session) : Prop := s'.received = s.received ∧ s'.failed = s.failed

theorem stuck_of_idle (hready : ready s.reads = 0) (hw : s.writes = []) (hbusy : Busy a) :
    s.step a = none := by
  cases h : s.step a with
  | none => rfl
  | some s' =>
    exfalso
    cases next_of_step h with
    | command hi | emptyLine hi =>
      have hpos := ready_pos (List.mem_of_getElem? hi)
      omega
    | transmit hj | written hj => simp [hw] at hj
    | receive | failRead | failWrite | others => cases hbusy

variable {server server' : Server} {e : Event}

theorem own_of_busy (h : Busy a) : own a = true := by
  cases a with
  | others => cases h
  | _ => rfl

theorem session_step (hs : Shared server) {i : Nat} (hbusy : Busy a)
    (h : Accepting.step server (.session i a) = some server') :
    ∃ s s', server.session[i]? = some s ∧ s.step a = some s' ∧
      server' = ⟨server.storage, server.session.set i s'⟩ := by
  obtain ⟨s, s', hi, ho, rfl⟩ := step_session.mp h
  have hload : ({ s with storage := server.storage } : Session) = s := by
    rw [← hs s (List.mem_of_getElem? hi)]
  rw [hload, ownStep, if_pos (own_of_busy hbusy)] at ho
  exact ⟨s, s', hi, ho, rfl⟩

theorem work_step (hs : InOrder server) (hw : Working server e)
    (h : Accepting.step server e = some server') :
    InOrder server' ∧ totalLoad server' < totalLoad server ∧
      ∀ (i : Nat) s, server.session[i]? = some s → ∃ s', server'.session[i]? = some s' ∧ Kept s s' := by
  cases e with
  | accept | failAccept => cases hw
  | session i a =>
    obtain ⟨hbusy, hfirst⟩ := hw
    have hshared := shared_step hs.shared h
    obtain ⟨s, s', hi, hstep, rfl⟩ := session_step hs.shared hbusy h
    have hnext := next_of_step hstep
    have ho := hs.orderly s (List.mem_of_getElem? hi)
    refine ⟨⟨hshared, fun t ht => ?_⟩, ?_, fun j t hj => ?_⟩
    · obtain ht | rfl := List.mem_or_eq_of_mem_set ht
      · exact hs.orderly t ht
      · exact next_orderly hnext ho (hfirst s hi)
    · have hless := load_decreases ho hbusy hnext
      have hsum := sum_map_set load hi s'
      unfold totalLoad
      simp only
      omega
    · by_cases hij : i = j
      · subst hij
        cases hi.symm.trans hj
        have hlt := (List.getElem?_eq_some_iff.mp hi).1
        exact ⟨s', by simp [hlt], busy_keeps hbusy hnext⟩
      · exact ⟨t, by rw [List.getElem?_set_ne hij, hj], rfl, rfl⟩

theorem work_run (hs : InOrder server) {events : List Event}
    (h : run Accepting.step server events = some server')
    (hw : Along Accepting.step Working server events) :
    InOrder server' ∧ events.length ≤ totalLoad server ∧
      ∀ (i : Nat) s, server.session[i]? = some s → ∃ s', server'.session[i]? = some s' ∧ Kept s s' := by
  induction events generalizing server with
  | nil =>
    cases h
    exact ⟨hs, Nat.zero_le _, fun i s hi => ⟨s, hi, rfl, rfl⟩⟩
  | cons e events ih =>
    obtain ⟨server₁, h₁, h⟩ := Option.bind_eq_some_iff.mp h
    obtain ⟨hw₁, hw⟩ := along_cons.mp hw server₁ h₁
    obtain ⟨hs₁, hless, hkept₁⟩ := work_step hs hw₁ h₁
    obtain ⟨hs', hlen, hkept⟩ := ih hs₁ h hw
    refine ⟨hs', by rw [List.length_cons]; omega, fun i s hi => ?_⟩
    obtain ⟨s₁, hi₁, hreceived₁, hfailed₁⟩ := hkept₁ i s hi
    obtain ⟨s', hi', hreceived, hfailed⟩ := hkept i s₁ hi₁
    exact ⟨s', hi', hreceived.trans hreceived₁, hfailed.trans hfailed₁⟩

theorem run_own {acts : List Act} (h : run ownStep s acts = some s') :
    run step s acts = some s' := by
  induction acts generalizing s with
  | nil => exact h
  | cons a acts ih =>
    obtain ⟨s₁, h₁, h⟩ := Option.bind_eq_some_iff.mp h
    rw [run, (ownStep_cases h₁).1, Option.bind_some]
    exact ih h

theorem session_of_run (storage : Storage) {events : List Event}
    (h : run Accepting.step (Server.new storage) events = some server) {i : Nat}
    (hi : server.session[i]? = some s) :
    run step (new storage).start (actsOf i (events.map component)) = some s := by
  obtain ⟨-, hseparate⟩ := (run_iff_component (fun s hs => absurd hs List.not_mem_nil)).mp h
  exact run_own ((Lib.Products.run_iff_separate.mp hseparate).own i s hi)

theorem inOrder_of_run (storage : Storage) {events : List Event}
    (hfirst : ∀ i, Along step ReadsFirst (new storage).start (actsOf i (events.map component)))
    (h : run Accepting.step (Server.new storage) events = some server) : InOrder server := by
  have hshared : Throughout Accepting.step Shared (Server.new storage) events := by
    apply throughout_of_steps
    · exact fun s hs => absurd hs List.not_mem_nil
    · exact fun _ _ _ _ _ _ hs h => shared_step hs h
  refine ⟨hshared events server (List.prefix_refl _) h, fun s hs => ?_⟩
  obtain ⟨i, hi⟩ := List.mem_iff_getElem?.mp hs
  exact orderly_of_run storage (hfirst i) (session_of_run storage h hi)

theorem session_stuck (hs : Shared server)
    (hstuck : ∀ e, Working server e → Accepting.step server e = none) {i : Nat}
    (hi : server.session[i]? = some s) (hbusy : Busy a) (hfirst : ReadsFirst s a) :
    s.step a = none := by
  have hload : ({ s with storage := server.storage } : Session) = s := by
    rw [← hs s (List.mem_of_getElem? hi)]
  have hnone := hstuck (.session i a)
    ⟨hbusy, fun t ht => Option.some.inj (hi.symm.trans ht) ▸ hfirst⟩
  simpa [Accepting.step, hi, hload, ownStep, own_of_busy hbusy] using hnone

/-- Where read handlers go first, a server comes to rest until more bytes
arrive, and each session without errors and empty lines has then executed all
its lines and completed all its writes. If none of its replies was spoiled, the
client has been sent what it should see. -/
theorem sessions_catch_up (storage : Storage) (events : List Event) (server : Server)
    (hrun : run Accepting.step (Server.new storage) events = some server)
    (hfirst : ∀ i, Along step ReadsFirst (new storage).start (actsOf i (events.map component)))
    (more : List Event) (server' : Server)
    (hmore : run Accepting.step server more = some server')
    (hwork : Along Accepting.step Working server more) :
    more.length ≤ totalLoad server ∧
      ((∀ e, Working server' e → Accepting.step server' e = none) →
        ∀ (i : Nat) s, server.session[i]? = some s → s.failed = false →
          (∀ line ∈ lines '\n' s.received, line ≠ []) →
          ∃ s', server'.session[i]? = some s' ∧ CaughtUp s.received s' ∧
            (Along step Settled (new storage).start (actsOf i ((events ++ more).map component)) →
              s'.delivered = Output.expected s')) := by
  obtain ⟨hs', hlen, hkept⟩ := work_run (inOrder_of_run storage hfirst hrun) hmore hwork
  refine ⟨hlen, fun hstuck i s hi hf hlines => ?_⟩
  obtain ⟨s', hi', hreceived, hfailed⟩ := hkept i s hi
  have ho := hs'.orderly s' (List.mem_of_getElem? hi')
  have hf' : s'.failed = false := hfailed.trans hf
  rw [← hreceived] at hlines ⊢
  obtain ⟨hready, hw⟩ := idle_of_stuck ho hf' hlines
    (fun a hbusy hfirst => session_stuck hs'.shared hstuck hi' hbusy hfirst)
  refine ⟨s', hi', caughtUp_of_idle ho hf' hlines hready hw, fun hsettled => ?_⟩
  have hall : run Accepting.step (Server.new storage) (events ++ more) = some server' := by
    rw [run_append, hrun, Option.bind_some, hmore]
  have htrack := onTrack_throughout storage hsettled _ s' (List.prefix_refl _)
    (session_of_run storage hall hi') hf'
  exact htrack.complete (by rw [hw]; exact fun w hm => absurd hm List.not_mem_nil)

def oneLine : List Event :=
  [.accept, .session 0 (.transmit 0 ['>', ' ']), .session 0 (.receive 0 ['a', '\n'])]

def asked : Session :=
  { (new (Storage.new doubling)).start with
    streambuf := ['a', '\n']
    received := ['a', '\n']
    reads := [some 2]
    writes := [⟨2, 2, true, Nat.le_refl 2⟩]
    delivered := ['>', ' '] }

def oneAnswer : List Act :=
  [.handleRead 0 15, .transmit 2 ['>', ' '], .handleWrite 0, .handleWrite 0, .handleWrite 0]

def answered : Session where
  storage := Storage.new doubling
  streambuf := []
  reply := []
  reads := [none, none, none]
  writes := []
  received := ['a', '\n']
  executed := ["a"]
  printed := ["UnknownPrinter"]
  delivered := "> UnknownPrinter\n> ".toList
  clobbered := true
  skipped := 0
  failed := false

theorem oneAnswer_works :
    Along Accepting.step Working ⟨Storage.new doubling, [asked]⟩ (oneAnswer.map (.session 0)) := by
  refine along_step rfl ⟨trivial, fun _ _ => trivial⟩ ?_
  refine along_step rfl ⟨List.cons_ne_nil _ _, fun _ _ => trivial⟩ ?_
  refine along_step rfl ⟨trivial, fun s hs => by cases hs; rfl⟩ ?_
  refine along_step rfl ⟨trivial, fun s hs => by cases hs; rfl⟩ ?_
  refine along_step rfl ⟨trivial, fun s hs => by cases hs; rfl⟩ ?_
  exact along_nil

theorem oneAnswer_settled : Along step Settled (new (Storage.new doubling)).start
    (actsOf 0 ((oneLine ++ oneAnswer.map (Event.session 0)).map component)) := by
  change Along step Settled (new (Storage.new doubling)).start
    (.transmit 0 ['>', ' '] :: .receive 0 ['a', '\n'] :: oneAnswer)
  refine along_step rfl trivial (along_step rfl trivial ?_)
  refine along_step rfl (fun _ n hi _ => ?_) ?_
  · cases hi
    exact ⟨fun w hw => List.mem_singleton.mp hw ▸ rfl, by decide⟩
  refine along_step rfl trivial ?_
  refine along_step rfl (fun _ w hw => ?_) ?_
  · obtain rfl | rfl := List.mem_pair.mp hw <;> rfl
  refine along_step rfl (fun _ w hw => List.mem_singleton.mp hw ▸ rfl) ?_
  exact along_step rfl (fun _ w hw => absurd hw List.not_mem_nil) along_nil

theorem answered_stuck (e : Event) (hw : Working ⟨Storage.new doubling, [answered]⟩ e) :
    Accepting.step ⟨Storage.new doubling, [answered]⟩ e = none := by
  cases e with
  | accept | failAccept => cases hw
  | session i a =>
    cases i with
    | succ i => rfl
    | zero =>
      have hown : ownStep answered a = none := by
        rw [ownStep, stuck_of_idle rfl rfl hw.1, ite_self]
      cases h : Accepting.step ⟨Storage.new doubling, [answered]⟩ (.session 0 a) with
      | none => rfl
      | some server' =>
        obtain ⟨s, s', hi, ho, -⟩ := step_session.mp h
        cases hi
        cases hown.symm.trans ho

theorem sessions_catch_up_sample :
    run Accepting.step (Server.new (Storage.new doubling)) oneLine =
        some ⟨Storage.new doubling, [asked]⟩ ∧
      run Accepting.step ⟨Storage.new doubling, [asked]⟩ (oneAnswer.map (.session 0)) =
        some ⟨Storage.new doubling, [answered]⟩ ∧
      oneAnswer.length ≤ load asked ∧ CaughtUp asked.received answered ∧
      answered.delivered = Output.expected answered := by
  have hfirst : ∀ i, Along step ReadsFirst (new (Storage.new doubling)).start
      (actsOf i (oneLine.map component)) := by
    intro i
    by_cases hi : 0 = i
    · subst hi
      exact along_step rfl trivial (along_step rfl rfl along_nil)
    · simp only [oneLine, List.map_cons, List.map_nil, component, actsOf, if_neg hi]
      exact along_nil
  obtain ⟨hlen, hcaught⟩ := sessions_catch_up (Storage.new doubling) oneLine
    ⟨Storage.new doubling, [asked]⟩ rfl hfirst (oneAnswer.map (.session 0))
    ⟨Storage.new doubling, [answered]⟩ rfl oneAnswer_works
  obtain ⟨s', hs', h, hdelivered⟩ := hcaught answered_stuck 0 asked rfl rfl (by decide)
  cases hs'
  exact ⟨rfl, rfl, hlen, h, hdelivered oneAnswer_settled⟩

end JoinServer.Answering
