import JoinServer.Server
import JoinServer.Lib.Products

namespace JoinServer.Accepting

open JoinServer.Lib.Runs JoinServer.Lib.Products
open JoinServer.Store JoinServer.Commands JoinServer.Server

/-- The sessions a server has accepted, in the order of `session_`. They share
one store, and none is ever taken out. -/
@[ext]
structure Server where
  storage : Storage
  session : List Session

def Server.new (storage : Storage) : Server := ⟨storage, []⟩

/-- The handler of `async_accept` runs, without or with an error, and ends in a
call of `do_accept`, or a session acts. -/
inductive Event
  | accept
  | failAccept
  | session (i : Nat) (a : Act)

def own : Act → Bool
  | .others _ => false
  | _ => true

/-- A step of a session itself. Here the other sessions are part of the state,
and what they do to the store comes from steps of their own. -/
def ownStep (s : Session) (a : Act) : Option Session := if own a then s.step a else none

def step (server : Server) : Event → Option Server
  | .accept =>
    some { server with session := server.session ++ [(Session.new server.storage).start] }
  | .failAccept => some server
  | .session i a =>
    (server.session[i]?).bind (fun s =>
      (ownStep { s with storage := server.storage } a).map (fun s' =>
        ⟨s'.storage, server.session.set i s'⟩))

def component : Event → Lib.Products.Event Act
  | .accept => .spawn
  | .failAccept => .idle
  | .session i a => .act i a

theorem ownStep_cases {s s' : Session} {a : Act} (h : ownStep s a = some s') :
    s.step a = some s' ∧ s'.storage = s.storage := by
  unfold ownStep at h
  split_ifs at h with ha
  obtain hs | rfl := Session.next_storage (Session.next_of_step h)
  · exact ⟨h, hs⟩
  · cases ha

theorem step_session {server server' : Server} {i : Nat} {a : Act} :
    step server (.session i a) = some server' ↔
      ∃ s s', server.session[i]? = some s ∧
        ownStep { s with storage := server.storage } a = some s' ∧
        server' = ⟨server.storage, server.session.set i s'⟩ := by
  simp only [step, Option.bind_eq_some_iff, Option.map_eq_some_iff]
  constructor
  · rintro ⟨s, hi, s', hs', rfl⟩
    exact ⟨s, s', hi, hs', by rw [(ownStep_cases hs').2]⟩
  · rintro ⟨s, s', hi, hs', rfl⟩
    exact ⟨s, hi, s', hs', by rw [(ownStep_cases hs').2]⟩

def Shared (server : Server) : Prop := ∀ s ∈ server.session, s.storage = server.storage

/-- No step changes the store, and while the sessions share it the server
takes the steps of sessions that share nothing. -/
theorem step_iff_component {server server' : Server} {e : Event} (hs : Shared server) :
    step server e = some server' ↔
      server'.storage = server.storage ∧
        Lib.Products.step (Session.new server.storage).start ownStep server.session
          (component e) = some server'.session := by
  cases e with
  | accept | failAccept =>
    simp [step, component, Lib.Products.step, Server.ext_iff, eq_comm]
  | session i a =>
    have hload : ∀ s, server.session[i]? = some s →
        ({ s with storage := server.storage } : Session) = s := by
      intro s hi
      rw [← hs s (List.mem_of_getElem? hi)]
    rw [step_session]
    constructor
    · rintro ⟨s, s', hi, ho, rfl⟩
      rw [hload s hi] at ho
      exact ⟨rfl, step_act.mpr ⟨s, s', hi, ho, rfl⟩⟩
    · rintro ⟨hstorage, hstep⟩
      obtain ⟨s, s', hi, ho, hset⟩ := step_act.mp hstep
      rw [← hload s hi] at ho
      exact ⟨s, s', hi, ho, by rw [hset, ← hstorage]⟩

theorem shared_step {server server' : Server} {e : Event} (hs : Shared server)
    (h : step server e = some server') : Shared server' := by
  cases e with
  | accept =>
    cases h
    intro s hs'
    obtain hs' | hs' := List.mem_append.mp hs'
    · exact hs s hs'
    · obtain rfl := List.mem_singleton.mp hs'
      rfl
  | failAccept =>
    cases h
    exact hs
  | session i a =>
    obtain ⟨s, s', -, ho, rfl⟩ := step_session.mp h
    intro t ht
    obtain ht | rfl := List.mem_or_eq_of_mem_set ht
    · exact hs t ht
    · exact (ownStep_cases ho).2

theorem run_iff_component {server server' : Server} {events : List Event} (hs : Shared server) :
    run step server events = some server' ↔
      server'.storage = server.storage ∧
        run (Lib.Products.step (Session.new server.storage).start ownStep) server.session
          (events.map component) = some server'.session := by
  induction events generalizing server with
  | nil =>
    simp [run, Server.ext_iff, eq_comm]
  | cons e events ih =>
    simp only [run, List.map_cons, Option.bind_eq_some_iff]
    constructor
    · rintro ⟨server₁, h₁, h⟩
      obtain ⟨hstorage₁, hstep₁⟩ := (step_iff_component hs).mp h₁
      obtain ⟨hstorage, hrun⟩ := (ih (shared_step hs h₁)).mp h
      rw [hstorage₁] at hstorage hrun
      exact ⟨hstorage, server₁.session, hstep₁, hrun⟩
    · rintro ⟨hstorage, session₁, hstep₁, hrun⟩
      have h₁ : step server e = some ⟨server.storage, session₁⟩ :=
        (step_iff_component hs).mpr ⟨rfl, hstep₁⟩
      exact ⟨_, h₁, (ih (shared_step hs h₁)).mpr ⟨hstorage, hrun⟩⟩

/-- The clients of a server do not influence each other: whatever their
events are and however these interleave, the store stays as it is, and every
session is where its own acts alone take it. -/
theorem sessions_independent (storage : Storage) (events : List Event) (server : Server) :
    run step (Server.new storage) events = some server ↔
      server.storage = storage ∧
        Separate (Session.new storage).start ownStep (events.map component) server.session := by
  rw [run_iff_component (fun s hs => absurd hs List.not_mem_nil)]
  exact and_congr_right fun _ => run_iff_separate

def on (storage : Storage) (s : Session) : Session := { s with storage := storage }

theorem execute_result (storage storage' : Storage) (line : String) :
    (execute storage line).1 = (execute storage' line).1 := by
  unfold execute
  cases create line <;> rfl

theorem runCommand_on (storage : Storage) (s : Session) (n early : Nat) :
    (on storage s).runCommand n early = on storage (s.runCommand n early) := by
  have hresult := execute_result storage s.storage (String.ofList (s.streambuf.take (n - 1)))
  have hstorage := execute_storage storage (String.ofList (s.streambuf.take (n - 1)))
  simp only [Session.runCommand, Session.prompt, Session.doWrite, Session.setReply, on, hresult,
    hstorage]

theorem readHandler_on (storage : Storage) (s : Session) (n early : Nat) :
    (on storage s).readHandler n early = (s.readHandler n early).map (on storage) := by
  have hbuf : (on storage s).streambuf = s.streambuf := rfl
  unfold Session.readHandler
  rw [runCommand_on, hbuf]
  split_ifs <;> rfl

theorem ownStep_on (storage : Storage) (s : Session) (a : Act) :
    ownStep (on storage s) a = (ownStep s a).map (on storage) := by
  cases a with
  | receive i chunk =>
    by_cases h : s.reads[i]? = some none ∧ chunk ≠ [] <;> simp [ownStep, own, Session.step, on, h]
  | handleRead i early =>
    cases hi : s.reads[i]? with
    | none => simp [ownStep, own, Session.step, on, hi]
    | some ready =>
      cases ready with
      | none => simp [ownStep, own, Session.step, on, hi]
      | some n =>
        simpa [ownStep, own, Session.step, on, hi] using
          readHandler_on storage { s with reads := s.reads.eraseIdx i } n early
  | transmit j bytes =>
    cases hj : s.writes[j]? with
    | none => simp [ownStep, own, Session.step, on, hj]
    | some w =>
      have hreply : (on storage s).reply = s.reply := rfl
      have hj' : (on storage s).writes[j]? = some w := hj
      simp only [ownStep, own, if_true, Session.step, hj, hj', hreply]
      split_ifs <;> rfl
  | handleWrite j =>
    cases hj : s.writes[j]? with
    | none => simp [ownStep, own, Session.step, on, hj]
    | some w =>
      simp only [ownStep, own, Session.step, on, hj, if_true]
      split_ifs <;> rfl
  | failRead i =>
    by_cases h : s.reads[i]? = some none <;>
      simp [ownStep, own, Session.step, Session.readHandler, Session.skipLine, on, h]
  | failWrite j =>
    by_cases h : j < s.writes.length <;> simp [ownStep, own, Session.step, on, h]
  | others storage' => rfl

def Server.on (storage : Storage) (server : Server) : Server :=
  ⟨storage, server.session.map (Accepting.on storage)⟩

theorem step_on (storage : Storage) (server : Server) (e : Event) :
    step (server.on storage) e = (step server e).map (Server.on storage) := by
  cases e with
  | accept => simp [step, Server.on, on, Session.new, Session.start, Session.prompt,
      Session.setReply, Session.doWrite, Session.doRead]
  | failAccept => rfl
  | session i a =>
    cases hi : server.session[i]? with
    | none => simp [step, Server.on, hi]
    | some s =>
      have hthere := ownStep_on storage s a
      have hhere := ownStep_on server.storage s a
      unfold on at hthere hhere
      cases ha : ownStep s a with
      | none => simp [step, Server.on, on, hi, hthere, hhere, ha]
      | some s' => simp [step, Server.on, on, hi, hthere, hhere, ha, List.map_set]

/-- Nothing of the store reaches a client: on any two stores the same events
lead to the same sessions, but for the reference to the store. -/
theorem store_unseen (storage storage' : Storage) (events : List Event) :
    run step (Server.new storage) events =
      (run step (Server.new storage') events).map (Server.on storage) := by
  have hrun : ∀ server : Server, run step (server.on storage) events =
      (run step server events).map (Server.on storage) := by
    induction events with
    | nil => exact fun server => rfl
    | cons e events ih =>
      intro server
      rw [run, run, step_on, Option.map_bind]
      cases step server e with
      | none => rfl
      | some server₁ => exact ih server₁
  exact hrun (Server.new storage')

end JoinServer.Accepting
