import JoinServer.Contents
import JoinServer.Lib.Locks

namespace JoinServer.Locking

open JoinServer.Lib.OrderedSet JoinServer.Lib.Merge JoinServer.Lib.Vectors JoinServer.Lib.Runs
open JoinServer.Lib.Locks JoinServer.Store JoinServer.Contents

inductive Query
  | intersection
  | symmetricDifference

def Query.merge : Query → List Int → List Int → List Int
  | .intersection => setIntersection
  | .symmetricDifference => setSymmetricDifference

/-- Where a thread is in a method, with its local variables. `lock` is the
first statement, `lock_t lock(m_)`, and `done` the end of the block. `extract`
is the loop of `extract_keys`, `fill` and `look` are those of `fill_result`. -/
inductive Pc
  | lock (c : Call)
  | find (table : String) (id : Int) (name : String)
  | emplace (found : Ref) (id : Int) (name : String)
  | findToClear (table : String)
  | clear (found : Ref)
  | extract (q : Query) (tableKeys : List (List Int))
  | fill (keysAb : List Int) (result : ResultTable)
  | look (key : Int) (i : Nat) (rr : ResultRecord) (keysAb : List Int) (result : ResultTable)
  | done (r : Reply)

def body : Call → Pc
  | .insert table id name => .find table id name
  | .truncate table => .findToClear table
  | .intersection => .extract .intersection []
  | .symmetricDifference => .extract .symmetricDifference []

/-- One access to the store or one statement on local variables: find the
table, emplace or clear; copy the keys of one table, merge, look up a key in
one table, add a row. -/
def micro : Pc → Storage → Option (Pc × Storage)
  | .find table id name, s =>
    match s.names.lookup table with
    | none => some (.done (.flag false), s)
    | some found => some (.emplace found id name, s)
  | .emplace found id name, s => do
    let t ← s.tables.deref found
    let rc := t.emplace ⟨id, name⟩
    some (.done (.flag rc.2), { s with tables := s.tables.assign found rc.1 })
  | .findToClear table, s =>
    match s.names.lookup table with
    | none => some (.done (.flag false), s)
    | some found => some (.clear found, s)
  | .clear found, s => do
    let _ ← s.tables.deref found
    some (.done (.flag true), { s with tables := s.tables.assign found .empty })
  | .extract q tableKeys, s =>
    match s.tables.elems[tableKeys.length]? with
    | some t => some (.extract q (tableKeys ++ [keys t]), s)
    | none => do
      let keysA ← tableKeys[0]?
      let keysB ← tableKeys[1]?
      some (.fill (q.merge keysA keysB) .empty, s)
  | .fill [] result, s => some (.done (.rows result), s)
  | .fill (key :: keysAb) result, s => some (.look key 0 (ResultRecord.new 2) keysAb result, s)
  | .look key i rr keysAb result, s =>
    match s.tables.elems[i]? with
    | none => some (.fill keysAb (result.emplace rr).1, s)
    | some t =>
      if (findName t key).2 then
        if i < rr.fields.length then
          some (.look key (i + 1) ⟨key, rr.fields.set i (findName t key).1⟩ keysAb result, s)
        else none
      else some (.look key (i + 1) rr keysAb result, s)
  | .lock _, _ | .done _, _ => none

def code : Pc → Statement Pc Storage Reply
  | .lock c => .acquire (body c)
  | .done r => .release r
  | l => .access (micro l)

theorem code_holds {l : Pc} (h : ∀ c, l ≠ .lock c) : (code l).takesLock = false := by
  cases l with
  | lock c => exact absurd rfl (h c)
  | _ => rfl

theorem body_not_lock (c d : Call) : body c ≠ .lock d := by
  cases c <;> simp [body]

theorem micro_not_lock {l : Pc} {s : Storage} {p : Pc × Storage} (h : micro l s = some p)
    (c : Call) : p.1 ≠ .lock c := by
  rintro hp
  cases l with
  | lock d => cases h
  | find table id name | findToClear table =>
    simp only [micro] at h
    split at h <;> cases h <;> cases hp
  | emplace found id name | clear found =>
    obtain ⟨t, -, h⟩ := Option.bind_eq_some_iff.mp h
    cases h
    cases hp
  | extract q tableKeys =>
    simp only [micro] at h
    split at h
    next => cases h; cases hp
    next =>
      obtain ⟨keysA, -, h⟩ := Option.bind_eq_some_iff.mp h
      obtain ⟨keysB, -, h⟩ := Option.bind_eq_some_iff.mp h
      cases h
      cases hp
  | fill keysAb result =>
    cases keysAb <;> cases h <;> cases hp
  | look key i rr keysAb result =>
    simp only [micro] at h
    split at h
    next => cases h; cases hp
    next => split_ifs at h <;> cases h <;> cases hp
  | done r => cases h

theorem micro_of_code {l : Pc} {f : Storage → Option (Pc × Storage)} (h : code l = .access f) :
    f = micro l := by
  cases l with
  | lock c | done r => cases h
  | _ => cases h; rfl

/-- All four methods take `m_` first and hold it until they return. -/
def storageMonitor : Monitor Call Pc Storage Reply where
  enter := .lock
  body := body
  code := code
  code_enter _ := rfl
  body_holds c := code_holds (body_not_lock c)
  access_holds _ _ _ _ hl hf := code_holds (micro_not_lock (micro_of_code hl ▸ hf))

theorem steps_cons {l : Pc} {s : Storage} (p : Pc × Storage) {q : Pc × Storage}
    (h : micro l s = some p) (hs : storageMonitor.Steps p q) : storageMonitor.Steps (l, s) q := by
  refine Relation.ReflTransGen.head ?_ hs
  cases l with
  | lock c | done r => cases h
  | _ => exact h

theorem look_steps {s : Storage} {key : Int} {keysAb : List Int} {result : ResultTable}
    {ts : List Table} {i : Nat} {rr rr' : ResultRecord} (hts : s.tables.elems.drop i = ts)
    (h : fillRow key i ts rr = some rr') :
    storageMonitor.Steps (.look key i rr keysAb result, s)
      (.fill keysAb (result.emplace rr').1, s) := by
  induction ts generalizing i rr with
  | nil =>
    cases h
    have hi : s.tables.elems[i]? = none := by
      rw [← List.head?_drop, hts]
      rfl
    apply steps_cons _ _ Relation.ReflTransGen.refl
    simp [micro, hi]
  | cons t ts ih =>
    have hi : s.tables.elems[i]? = some t := by
      rw [← List.head?_drop, hts]
      rfl
    have hnext : s.tables.elems.drop (i + 1) = ts := by
      rw [← List.tail_drop, hts]
      rfl
    simp only [fillRow] at h
    split_ifs at h with hfound hlen
    · apply steps_cons _ _ (ih hnext h)
      simp [micro, hi, hfound, hlen]
    · apply steps_cons _ _ (ih hnext h)
      simp [micro, hi, hfound]

theorem fill_steps {s : Storage} {keysAb : List Int} {result rows : ResultTable}
    (h : fillResult s.tables.elems keysAb result = some rows) :
    storageMonitor.Steps (.fill keysAb result, s) (.done (.rows rows), s) := by
  induction keysAb generalizing result with
  | nil =>
    cases h
    exact steps_cons _ rfl Relation.ReflTransGen.refl
  | cons key keysAb ih =>
    obtain ⟨rr, hrr, h⟩ := Option.bind_eq_some_iff.mp h
    apply steps_cons (.look key 0 (ResultRecord.new 2) keysAb result, s) rfl
    exact (look_steps rfl hrr).trans (ih h)

theorem extract_steps {s : Storage} (q : Query) (ts ts' : List Table)
    (hts : s.tables.elems = ts ++ ts') :
    storageMonitor.Steps (.extract q (extractKeys ts), s)
      (.extract q (extractKeys s.tables.elems), s) := by
  induction ts' generalizing ts with
  | nil =>
    rw [hts, List.append_nil]
    exact Relation.ReflTransGen.refl
  | cons t ts' ih =>
    have hi : s.tables.elems[(extractKeys ts).length]? = some t := by
      simp [hts, extractKeys]
    have hnext := ih (ts ++ [t]) (by rw [hts, List.append_cons])
    apply steps_cons _ _ hnext
    simp only [micro, hi]
    simp [extractKeys]

theorem query_steps {s : Storage} (q : Query) {rows : ResultTable}
    (h : s.query q.merge = some rows) :
    storageMonitor.Steps (.extract q [], s) (.done (.rows rows), s) := by
  obtain ⟨keysA, hA, h⟩ := Option.bind_eq_some_iff.mp h
  obtain ⟨keysB, hB, h⟩ := Option.bind_eq_some_iff.mp h
  have hend : s.tables.elems[(extractKeys s.tables.elems).length]? = none := by
    simp [extractKeys]
  apply (extract_steps q [] s.tables.elems rfl).trans
  apply steps_cons (.fill (q.merge keysA keysB) .empty, s)
  · simp only [micro, hend, hA, hB, Option.bind_eq_bind, Option.bind_some]
  · exact fill_steps h

/-- The small steps of a method, when nothing comes between them, have the
result and the effect of the call. -/
theorem call_steps {s s' : Storage} {c : Call} {r : Reply} (h : s.call c = some (r, s')) :
    storageMonitor.Steps (body c, s) (.done r, s') := by
  cases Storage.called_of_call h with
  | @insert table name id _ _ hi =>
    obtain ⟨hn, rfl, rfl⟩ | ⟨found, t, hf, ht, rfl, rfl⟩ := Storage.insert_cases hi
    · apply steps_cons _ _ Relation.ReflTransGen.refl
      simp [body, micro, hn]
    · apply steps_cons (.emplace found id name, s)
      · simp [body, micro, hf]
      · apply steps_cons _ _ Relation.ReflTransGen.refl
        simp [micro, ht]
  | truncate hi =>
    obtain ⟨hn, rfl, rfl⟩ | ⟨found, t, hf, ht, rfl, rfl⟩ := Storage.truncate_cases hi
    · apply steps_cons _ _ Relation.ReflTransGen.refl
      simp [body, micro, hn]
    · apply steps_cons (.clear found, s)
      · simp [body, micro, hf]
      · apply steps_cons _ _ Relation.ReflTransGen.refl
        simp [micro, ht]
  | intersection hq => exact query_steps .intersection hq
  | symmetricDifference hq => exact query_steps .symmetricDifference hq

theorem storageMonitor_implements : Implements storageMonitor Storage.call Bound := by
  intro s c hb
  obtain ⟨r, s', hc, hb', -⟩ := call_refines hb c
  exact ⟨r, s', .done r, hc, hb', call_steps hc, rfl⟩

theorem row_ids {s s' : Storage} (hb : Bound s) {c : Call} {rows : ResultTable}
    (h : s.call c = some (.rows rows, s')) :
    ∀ r ∈ rows, r.id ∈ keys (tableNamed s "A") ∨ r.id ∈ keys (tableNamed s "B") := by
  intro r hr
  cases Storage.called_of_call h with
  | intersection hq =>
    obtain ⟨rows', hq', -, hmem⟩ := Queries.intersection_rows hb.elems
    cases hq.symm.trans hq'
    obtain ⟨n, m, hA, -, -⟩ := (hmem r).mp hr
    exact .inl (Queries.mem_keys.mpr ⟨n, hA⟩)
  | symmetricDifference hq =>
    obtain ⟨rows', hq', -, hmem⟩ := Queries.symmetricDifference_rows hb.elems
    cases hq.symm.trans hq'
    obtain ⟨n, hA, -⟩ | ⟨n, hB, -⟩ := (hmem r).mp hr
    · exact .inl (Queries.mem_keys.mpr ⟨n, hA⟩)
    · exact .inr (Queries.mem_keys.mpr ⟨n, hB⟩)

/-- However the steps of the threads interleave, the replies and the final
tables are those of the calls made one after the other in the order in which
they acquired `m_`, and every query saw one state of the tables. -/
theorem runs_are_serial {ι : Type*} [DecidableEq ι] (s : Storage) (hb : Bound s)
    (programs : ι → List Call) (cfg : Config ι Call Pc Storage Reply)
    (hrun : Relation.ReflTransGen (Step storageMonitor) (start s programs) cfg)
    (hdone : ∀ i, cfg.todo i = [] ∧ cfg.inside i = none) :
    ∃ rs, s.calls (cfg.order.map Prod.snd) = some (rs, cfg.shared) ∧
      (∀ i, cfg.returned i = returnsOf i cfg.order rs ∧ callsOf i cfg.order = programs i) ∧
      ∀ before i c after, cfg.order = before ++ (i, c) :: after →
        ∃ rs₁ s₁ r s₂, s.calls (before.map Prod.snd) = some (rs₁, s₁) ∧
          s₁.call c = some (r, s₂) ∧ rs[before.length]? = some r ∧
          ∀ rows, r = .rows rows → ∀ row ∈ rows,
            row.id ∈ keys (tableNamed s₁ "A") ∨ row.id ∈ keys (tableNamed s₁ "B") := by
  obtain ⟨rs, hserial, hthreads⟩ := complete_run_serial storageMonitor_implements hb hrun hdone
  refine ⟨rs, hserial, hthreads, ?_⟩
  intro before i c after hsplit
  rw [hsplit, List.map_append, List.map_cons] at hserial
  obtain ⟨rs₁, s₁, r, s₂, h₁, h₂, hr⟩ := trace_middle hserial
  obtain ⟨rs₀, s₀, h₀, hb₁, -⟩ := calls_refine hb (before.map Prod.snd)
  cases h₁.symm.trans h₀
  refine ⟨rs₁, s₁, r, s₂, h₁, h₂, by simpa using hr, ?_⟩
  rintro rows rfl
  exact row_ids hb₁ h₂

def samplePrograms (c d : Call) : Bool → List Call
  | false => [c]
  | true => [d]

theorem sample_completes {s : Storage} (hb : Bound s) (c d : Call) :
    ∃ cfg, Relation.ReflTransGen (Step storageMonitor) (start s (samplePrograms c d)) cfg ∧
      cfg.order = [(false, c), (true, d)] ∧ ∀ i, cfg.todo i = [] ∧ cfg.inside i = none := by
  obtain ⟨r₁, s₁, hc₁, hb₁, -⟩ := call_refines hb c
  obtain ⟨r₂, s₂, hc₂, -⟩ := call_refines hb₁ d
  have h₁ := call_runs_alone (m := storageMonitor) (start s (samplePrograms c d)) false [] rfl rfl
    rfl (call_steps hc₁) rfl
  have h₂ := call_runs_alone (m := storageMonitor)
    ⟨s₁, none, Function.update (samplePrograms c d) false [], fun _ => none,
      Function.update (fun _ => []) false [r₁], [(false, c)]⟩ true [] rfl rfl rfl
    (call_steps hc₂) rfl
  refine ⟨_, h₁.trans h₂, rfl, fun i => ?_⟩
  cases i <;> exact ⟨rfl, rfl⟩

def leanTable : Table := ⟨[⟨0, "lean"⟩], List.pairwise_singleton _ _⟩

def leanRows : ResultTable := ⟨[⟨0, ["lean", ""]⟩], List.pairwise_singleton _ _⟩

theorem leanTable_query :
    (boundStorage leanTable .empty).symmetricDifference = some leanRows := by
  have hmerge : setSymmetricDifference [0] ([] : List Int) = [0] := by rw [setSymmetricDifference]
  change fillResult [leanTable, .empty] (setSymmetricDifference [0] []) .empty = _
  rw [hmerge]
  rfl

theorem runs_are_serial_sample :
    ∃ cfg : Config Bool Call Pc Storage Reply,
      Relation.ReflTransGen (Step storageMonitor) (start (boundStorage .empty .empty)
        (samplePrograms (.insert "A" 0 "lean") .symmetricDifference)) cfg ∧
      (∀ i, cfg.todo i = [] ∧ cfg.inside i = none) ∧ cfg.returned false = [.flag true] ∧
      cfg.returned true = [.rows leanRows] ∧ cfg.shared = boundStorage leanTable .empty := by
  obtain ⟨cfg, hrun, horder, hdone⟩ := sample_completes (boundStorage_bound .empty .empty)
    (.insert "A" 0 "lean") .symmetricDifference
  obtain ⟨rs, hserial, hthreads, -⟩ := runs_are_serial (boundStorage .empty .empty)
    (boundStorage_bound .empty .empty) _ cfg hrun hdone
  rw [horder] at hserial hthreads
  have hinsert : (boundStorage .empty .empty).call (.insert "A" 0 "lean") =
      some (.flag true, boundStorage leanTable .empty) := rfl
  have hquery : (boundStorage leanTable .empty).call .symmetricDifference =
      some (.rows leanRows, boundStorage leanTable .empty) := by
    rw [Storage.call, leanTable_query, Option.map_some]
  have hcalls : (boundStorage .empty .empty).calls [.insert "A" 0 "lean", .symmetricDifference] =
      some ([.flag true, .rows leanRows], boundStorage leanTable .empty) := by
    simp [Storage.calls, trace, hinsert, hquery]
  obtain ⟨rfl, hshared⟩ := Prod.mk.inj (Option.some.inj (hserial.symm.trans hcalls))
  exact ⟨cfg, hrun, hdone, (hthreads false).1, (hthreads true).1, hshared⟩

end JoinServer.Locking
