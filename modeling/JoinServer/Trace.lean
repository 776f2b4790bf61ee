import JoinServer.Contents

namespace JoinServer.Trace

open JoinServer.Lib.Vectors JoinServer.Lib.OrderedSet JoinServer.Lib.Runs JoinServer.Lib.FirstWins
open JoinServer.Store JoinServer.Contents

def firstInsert (t : String) (k : Int) (cs : List Call) : Option String :=
  firstPut t k (sinceClear t (cs.map event))

/-- What a call returns after the calls `before`, by these alone. -/
def Returns (before : List Call) : Call → Reply → Prop
  | .insert t k _, r => r = .flag (decide (Known t ∧ firstInsert t k before = none))
  | .truncate t, r => r = .flag (decide (Known t))
  | .intersection, r | .symmetricDifference, r => ∃ rows, r = .rows rows

def Holds (t : Table) (name : String) (cs : List Call) : Prop :=
  t.toList.Pairwise (fun r r' => r.id < r'.id) ∧
    ∀ k, t.toList.filter (fun r => r.id = k) = ((firstInsert name k cs).map (Record.mk k)).toList

theorem contents_of_empty {s : Storage} (he : ∀ t ∈ s.tables.elems, t = .empty) :
    contents s = fun _ _ => none := by
  funext name k
  have hn : tableNamed s name = .empty := by
    unfold tableNamed
    cases hi : (tableIndex name).bind (fun i => s.tables.elems[i]?) with
    | none => rfl
    | some t =>
      obtain ⟨i, -, ht⟩ := Option.bind_eq_some_iff.mp hi
      exact he t (List.mem_of_getElem? ht)
  simp [contents, hn]

theorem contents_calls {s s' : Storage} (he : ∀ t ∈ s.tables.elems, t = .empty) {cs : List Call}
    (hc : contents s' = applyAll Known (contents s) (cs.map event)) {name : String}
    (hk : Known name) (k : Int) : contents s' name k = firstInsert name k cs := by
  rw [hc, contents_of_empty he, applyAll_empty Known _ hk]
  rfl

theorem holds_of_contents {s : Storage} {name : String} {cs : List Call}
    (h : ∀ k, contents s name k = firstInsert name k cs) : Holds (tableNamed s name) name cs := by
  refine ⟨(tableNamed s name).sorted, fun k => ?_⟩
  rw [KeyedSet.filter_key, find?_of_contents (h k)]

theorem returns_of_answers {s : Storage} {before : List Call} {c : Call} {r : Reply}
    (h : ∀ name, Known name → ∀ k, contents s name k = firstInsert name k before)
    (ha : Answers s c r) : Returns before c r := by
  cases c with
  | insert t k n =>
    by_cases ht : Known t
    · rw [Returns, ← h t ht k]
      cases hf : contents s t k <;> simpa [Answers, accepts, ht, hf] using ha
    · simpa [Returns, Answers, accepts, ht] using ha
  | truncate t => exact ha
  | intersection | symmetricDifference =>
    obtain ⟨rows, -, hr⟩ := ha
    exact ⟨rows, hr⟩

/-- Whatever is called on two bound empty tables, the tables and every returned
flag are functions of the calls: a table holds for an id the first name
inserted since it was last truncated. -/
theorem tables_follow_trace (s : Storage) (hb : Bound s) (he : ∀ t ∈ s.tables.elems, t = .empty)
    (cs : List Call) :
    ∃ rs s', s.calls cs = some (rs, s') ∧ Bound s' ∧
      (∀ name, Known name → Holds (tableNamed s' name) name cs) ∧
      ∀ before c after, cs = before ++ c :: after →
        ∃ rs₁ s₁ r s₂, s.calls before = some (rs₁, s₁) ∧ s₁.call c = some (r, s₂) ∧
          rs[before.length]? = some r ∧ Returns before c r ∧
          (r = .flag false ∨ c = .intersection ∨ c = .symmetricDifference → s₂ = s₁) := by
  obtain ⟨rs, s', hcs, hb', hc⟩ := calls_refine hb cs
  refine ⟨rs, s', hcs, hb', ?_, ?_⟩
  · intro name hk
    exact holds_of_contents (contents_calls he hc hk)
  · intro before c after hsplit
    subst hsplit
    obtain ⟨rs₁, s₁, r, s₂, h₁, h₂, hr⟩ := trace_middle hcs
    obtain ⟨rs₀, s₀, h₀, hb₁, hc₁⟩ := calls_refine hb before
    cases h₁.symm.trans h₀
    obtain ⟨r', s₂', hcall, -, -, ha⟩ := call_refines hb₁ c
    cases h₂.symm.trans hcall
    refine ⟨rs₁, s₁, r, s₂, h₁, h₂, hr, ?_, ?_⟩
    · exact returns_of_answers (fun name hk => contents_calls he hc₁ hk) ha
    · intro hq
      obtain rfl | hq := hq
      · exact Storage.call_rejected h₂
      · exact Storage.call_query hq h₂

def sampleCalls : List Call :=
  [.insert "A" 0 "lean", .insert "A" 0 "understand", .truncate "B"]

theorem tables_follow_trace_sample :
    ∃ rs s', (boundStorage .empty .empty).calls sampleCalls = some (rs, s') ∧
      rs[1]? = some (.flag false) ∧
      (tableNamed s' "A").toList.filter (fun r => r.id = 0) = [⟨0, "lean"⟩] := by
  obtain ⟨rs, s', hcs, -, hold, hstep⟩ := tables_follow_trace (boundStorage .empty .empty)
    (boundStorage_bound .empty .empty) (by simp [boundStorage, RefVector.ofList]) sampleCalls
  obtain ⟨-, -, r, -, -, -, hr, hret, -⟩ := hstep [.insert "A" 0 "lean"]
    (.insert "A" 0 "understand") [.truncate "B"] rfl
  refine ⟨rs, s', hcs, ?_, ?_⟩
  · have hflag : r = .flag false := hret
    exact hflag ▸ hr
  · have hA := (hold "A" (.inl rfl)).2 0
    exact hA

end JoinServer.Trace
