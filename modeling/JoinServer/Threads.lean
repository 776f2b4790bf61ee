import JoinServer.Constructed
import JoinServer.Locking
import JoinServer.Lib.Completion

namespace JoinServer.Threads

open JoinServer.Lib.Vectors JoinServer.Lib.Runs JoinServer.Lib.Locks JoinServer.Lib.Completion
open JoinServer.Store JoinServer.Contents JoinServer.Locking JoinServer.Constructed

/-- Threads that call the store all get through, however they are scheduled:
there is no endless run, and where a run stops, every thread has the reply to
each of its calls. -/
theorem threads_finish {ι : Type*} [DecidableEq ι] [Fintype ι] (s : Storage) (hb : Bound s)
    (programs : ι → List Call) :
    (¬ ∃ f : Nat → Config ι Call Pc Storage Reply,
      f 0 = start s programs ∧ ∀ n, Step storageMonitor (f n) (f (n + 1))) ∧
    ∀ cfg, Relation.ReflTransGen (Step storageMonitor) (start s programs) cfg →
      (∀ cfg', ¬ Step storageMonitor cfg cfg') →
      ∀ i, cfg.todo i = [] ∧ cfg.inside i = none ∧
        (cfg.returned i).length = (programs i).length := by
  refine ⟨no_endless_run storageMonitor_implements hb, fun cfg hrun hstuck => ?_⟩
  have hdone := complete_of_stuck storageMonitor_implements hb hrun hstuck
  obtain ⟨rs, hserial, hthreads⟩ := complete_run_serial storageMonitor_implements hb hrun hdone
  intro i
  obtain ⟨htodo, hinside⟩ := hdone i
  obtain ⟨hreturned, hcalls⟩ := hthreads i
  have hlen : cfg.order.length = rs.length := by simpa using (trace_length hserial).symm
  exact ⟨htodo, hinside, by rw [hreturned, ← hcalls, length_returnsOf i hlen]⟩

theorem threads_finish_sample :
    (¬ ∃ f : Nat → Config Bool Call Pc Storage Reply,
      f 0 = start (boundStorage .empty .empty)
        (samplePrograms (.insert "A" 0 "lean") .intersection) ∧
        ∀ n, Step storageMonitor (f n) (f (n + 1))) ∧
    ∃ cfg, Relation.ReflTransGen (Step storageMonitor) (start (boundStorage .empty .empty)
        (samplePrograms (.insert "A" 0 "lean") .intersection)) cfg ∧
      (∀ cfg', ¬ Step storageMonitor cfg cfg') ∧ ∀ i, (cfg.returned i).length = 1 := by
  obtain ⟨hends, hstops⟩ := threads_finish (boundStorage .empty .empty) (boundStorage_bound _ _)
    (samplePrograms (.insert "A" 0 "lean") .intersection)
  obtain ⟨cfg, hrun, -, hdone⟩ := sample_completes (boundStorage_bound .empty .empty)
    (.insert "A" 0 "lean") .intersection
  have hstuck := complete_stuck (m := storageMonitor) hdone
  refine ⟨hends, cfg, hrun, hstuck, fun i => ?_⟩
  rw [(hstops cfg hrun hstuck i).2.2]
  cases i <;> rfl

abbrev LiveCall := { c : Call // tableOf c ≠ some "A" }

def liveMonitor : Monitor LiveCall Pc Storage Reply :=
  { storageMonitor with
    enter := fun c => .lock c.1
    body := fun c => body c.1
    code_enter := fun c => storageMonitor.code_enter c.1
    body_holds := fun c => storageMonitor.body_holds c.1 }

theorem liveMonitor_implements :
    Implements liveMonitor (fun s c => s.call c.1) Half := by
  intro s c hs
  obtain ⟨r, t, hc, -⟩ := call_refines (mend_bound hs.two) c.1
  have hcall : s.call c.1 = some (r, { t with names := s.names }) := by
    rw [call_live hs c.2, hc]
    rfl
  exact ⟨r, _, .done r, hcall, (call_half hs hc).1, call_steps hcall, rfl⟩

/-- On the constructed store, when no thread names the table `A`, every
schedule comes to an end with the replies and the tables of a serial execution
on the store that was meant. -/
theorem constructed_threads_finish {ι : Type*} [DecidableEq ι] [Fintype ι] (g : Growth)
    (programs : ι → List LiveCall) :
    (¬ ∃ f : Nat → Config ι LiveCall Pc Storage Reply,
      f 0 = start (Storage.new g) programs ∧ ∀ n, Step liveMonitor (f n) (f (n + 1))) ∧
    ∀ cfg, Relation.ReflTransGen (Step liveMonitor) (start (Storage.new g) programs) cfg →
      (∀ cfg', ¬ Step liveMonitor cfg cfg') →
      ∃ rs meant, (mend (Storage.new g)).calls (cfg.order.map (fun p => p.2.1)) =
          some (rs, meant) ∧ cfg.shared.tables = meant.tables ∧
        ∀ i, cfg.returned i = returnsOf i cfg.order rs ∧ callsOf i cfg.order = programs i := by
  refine ⟨no_endless_run liveMonitor_implements (new_half g), fun cfg hrun hstuck => ?_⟩
  have hdone := complete_of_stuck liveMonitor_implements (new_half g) hrun hstuck
  obtain ⟨rs, hserial, hthreads⟩ :=
    complete_run_serial liveMonitor_implements (new_half g) hrun hdone
  rw [trace_map Storage.call Subtype.val, List.map_map] at hserial
  change (Storage.new g).calls (cfg.order.map (fun p => p.2.1)) = some (rs, cfg.shared) at hserial
  have hlive : ∀ c ∈ cfg.order.map (fun p => p.2.1), tableOf c ≠ some "A" := by
    intro c hc
    obtain ⟨p, -, rfl⟩ := List.mem_map.mp hc
    exact p.2.2
  have hcalls := (calls_half (new_half g)).symm.trans hserial
  rw [if_pos hlive] at hcalls
  obtain ⟨⟨rs', meant⟩, hmeant, hp⟩ := Option.map_eq_some_iff.mp hcalls
  obtain ⟨rfl, hshared⟩ := Prod.mk.inj hp
  exact ⟨rs', meant, hmeant, by rw [← hshared], hthreads⟩

end JoinServer.Threads
