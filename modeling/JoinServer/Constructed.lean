import JoinServer.NameBinding
import JoinServer.Trace

namespace JoinServer.Constructed

open JoinServer.Lib.OrderedSet JoinServer.Lib.Vectors JoinServer.Lib.Runs JoinServer.Lib.FirstWins
open JoinServer.Store JoinServer.Contents JoinServer.NameBinding

def tableOf : Call → Option String
  | .insert table _ _ => some table
  | .truncate table => some table
  | .intersection | .symmetricDifference => none

/-- The same tables with the names bound as the constructor means them to be. -/
def mend (s : Storage) : Storage :=
  { s with names := [("A", ⟨s.tables.buffer, 0⟩), ("B", ⟨s.tables.buffer, 1⟩)] }

def named (names : List (String × Ref)) (p : Reply × Storage) : Reply × Storage :=
  (p.1, { p.2 with names := names })

/-- A store of two tables whose name `A` was left behind in a released buffer. -/
structure Half (s : Storage) : Prop where
  two : s.tables.elems.length = 2
  stale : ∃ found, s.names.lookup "A" = some found ∧ found.buffer ≠ s.tables.buffer
  live : ∀ name, name ≠ "A" →
    s.names.lookup name = (tableIndex name).map (Ref.mk s.tables.buffer)

theorem mend_bound {s : Storage} (h : s.tables.elems.length = 2) : Bound (mend s) := by
  refine ⟨h, fun name => ?_⟩
  by_cases ha : name = "A"
  · subst ha
    rfl
  · by_cases hb : name = "B"
    · subst hb
      rfl
    · simp [mend, List.lookup_cons, tableIndex, ha, hb, beq_eq_false_iff_ne.mpr ha,
        beq_eq_false_iff_ne.mpr hb]

theorem new_half (g : Growth) : Half (Storage.new g) := by
  have hnew : Storage.new g = (single g "A").addTable g "B" := rfl
  have hfresh : ∀ name, name ≠ "A" → (single g "A").names.lookup name = none := by
    intro name ha
    simp [single_names, List.lookup_cons, beq_eq_false_iff_ne.mpr ha]
  obtain ⟨-, hlen, -⟩ := single_tables g "A"
  refine ⟨by simp [hnew, Storage.addTable, RefVector.emplaceBack_elems, hlen], ?_, ?_⟩
  · obtain ⟨found, hf, hlt⟩ := first_name_stale g "A" "B" []
    exact ⟨found, hf, Nat.ne_of_lt hlt⟩
  · intro name ha
    by_cases hb : name = "B"
    · subst hb
      obtain ⟨⟨buffer, index⟩, hf, hbuf, hindex, -⟩ := addTable_designates g (hfresh "B" ha)
      rw [hlen] at hindex
      cases hbuf
      cases hindex
      exact hf
    · rw [hnew, Storage.addTable, hfresh "B" (by decide)]
      simp [List.lookup_append, hfresh name ha, List.lookup_cons, tableIndex, ha, hb,
        beq_eq_false_iff_ne.mpr hb]

theorem call_stale {s : Storage} (h : Half s) {c : Call} (hc : tableOf c = some "A") :
    s.call c = none := by
  obtain ⟨found, hf, hbuf⟩ := h.stale
  have hderef : s.tables.deref found = none := if_neg hbuf
  cases c with
  | insert table id name =>
    cases hc
    simp [Storage.call, Storage.insert, hf, hderef]
  | truncate table =>
    cases hc
    simp [Storage.call, Storage.truncate, hf, hderef]
  | intersection | symmetricDifference => cases hc

theorem call_live {s : Storage} (h : Half s) {c : Call} (hc : tableOf c ≠ some "A") :
    s.call c = ((mend s).call c).map (named s.names) := by
  have hlook : ∀ table, tableOf c = some table →
      (mend s).names.lookup table = s.names.lookup table := by
    intro table ht
    have hne : table ≠ "A" := fun he => hc (he ▸ ht)
    rw [(mend_bound h.two).names, h.live table hne]
    rfl
  cases c with
  | insert table id name =>
    have htables : (mend s).tables = s.tables := rfl
    simp only [Storage.call, Storage.insert, hlook table rfl, htables]
    cases s.names.lookup table with
    | none => rfl
    | some found =>
      cases hd : s.tables.deref found with
      | none => simp [hd]
      | some t => simp [hd, named]
  | truncate table =>
    have htables : (mend s).tables = s.tables := rfl
    simp only [Storage.call, Storage.truncate, hlook table rfl, htables]
    cases s.names.lookup table with
    | none => rfl
    | some found =>
      cases hd : s.tables.deref found with
      | none => simp [hd]
      | some t => simp [hd, named]
  | intersection =>
    have hq : (mend s).intersection = s.intersection := rfl
    simp only [Storage.call, hq]
    cases s.intersection <;> rfl
  | symmetricDifference =>
    have hq : (mend s).symmetricDifference = s.symmetricDifference := rfl
    simp only [Storage.call, hq]
    cases s.symmetricDifference <;> rfl

theorem call_half {s t : Storage} (h : Half s) {c : Call} {r : Reply}
    (hc : (mend s).call c = some (r, t)) :
    Half { t with names := s.names } ∧ mend { t with names := s.names } = t := by
  obtain ⟨hnames, hbuf, hlen⟩ := Storage.call_frame hc
  obtain ⟨found, hf, hne⟩ := h.stale
  have hmend : mend { t with names := s.names } = t := by
    have ht : t.names = [("A", ⟨t.tables.buffer, 0⟩), ("B", ⟨t.tables.buffer, 1⟩)] := by
      rw [hnames, hbuf]
      rfl
    rw [mend, ← ht]
  refine ⟨⟨hlen.trans h.two, ⟨found, hf, hbuf ▸ hne⟩, fun name ha => ?_⟩, hmend⟩
  rw [hbuf]
  exact h.live name ha

theorem calls_half {s : Storage} (h : Half s) {cs : List Call} :
    s.calls cs = if ∀ c ∈ cs, tableOf c ≠ some "A" then
      ((mend s).calls cs).map (fun p => (p.1, { p.2 with names := s.names })) else none := by
  induction cs generalizing s with
  | nil => simp [Storage.calls, trace, mend]
  | cons c cs ih =>
    by_cases hc : tableOf c = some "A"
    · have hnot : ¬ ∀ c' ∈ c :: cs, tableOf c' ≠ some "A" := fun h' => h' c List.mem_cons_self hc
      rw [if_neg hnot, Storage.calls, trace, call_stale h hc, Option.bind_none]
    · rw [Storage.calls, trace, call_live h hc]
      cases hcall : (mend s).call c with
      | none => simp [Storage.calls, trace, hcall]
      | some p =>
        obtain ⟨r, t⟩ := p
        obtain ⟨hhalf, hmend⟩ := call_half h hcall
        have hrest := ih hhalf
        rw [hmend] at hrest
        simp only [Storage.calls] at hrest
        simp only [Option.map_some, Option.bind_some, named, hrest, List.forall_mem_cons, ne_eq, hc,
          not_false_eq_true, true_and, Storage.calls, trace, hcall]
        split_ifs <;> simp [Function.comp_def]

theorem firstInsert_unnamed {cs : List Call} (h : ∀ c ∈ cs, tableOf c ≠ some "A") (k : Int) :
    Trace.firstInsert "A" k cs = none := by
  apply List.findSome?_eq_none_iff.mpr
  intro e he
  obtain ⟨c, hc, rfl⟩ := List.mem_map.mp ((List.rtakeWhile_suffix ..).subset he)
  cases c with
  | insert table id name =>
    have hne : table ≠ "A" := fun ha => h _ hc (ha ▸ rfl)
    simp [event, Event.puts, hne]
  | truncate | intersection | symmetricDifference => rfl

theorem mend_new_empty (g : Growth) : ∀ t ∈ (mend (Storage.new g)).tables.elems, t = .empty := by
  have helems : (mend (Storage.new g)).tables.elems = [.empty, .empty] := by
    simp [mend, Storage.new, Storage.addTable, RefVector.emplaceBack_elems, Storage.empty,
      RefVector.empty]
  simp [helems]

theorem queries_of_empty {s : Storage} {a b : Table} (h : s.tables.elems = [a, b])
    (ha : ∀ k, Queries.names a k = none) :
    s.intersection = some .empty ∧ ∃ rows, s.symmetricDifference = some rows ∧
      ∀ row, row ∈ rows ↔ ∃ n, Queries.names b row.id = some n ∧ row.fields = ["", n] := by
  obtain ⟨both, hboth, -, hmem⟩ := Queries.intersection_rows h
  obtain ⟨one, hone, -, hmem'⟩ := Queries.symmetricDifference_rows h
  simp only [← Queries.names_eq_some, ← Queries.names_eq_none] at hmem hmem'
  have hempty : both = .empty := by
    apply KeyedSet.ext_mem
    intro r
    apply iff_of_false _ List.not_mem_nil
    rw [hmem]
    rintro ⟨n, m, hn, -, -⟩
    cases (ha r.id).symm.trans hn
  refine ⟨hempty ▸ hboth, one, hone, fun row => ?_⟩
  rw [hmem']
  constructor
  · rintro (⟨n, hn, -, -⟩ | ⟨n, hn, -, hf⟩)
    · cases (ha row.id).symm.trans hn
    · exact ⟨n, hn, hf⟩
  · rintro ⟨n, hn, hf⟩
    exact .inr ⟨n, hn, ha row.id, hf⟩

/-- The constructed store has no defined behaviour once a call names its table
`A`. Until then it answers like the store it was meant to be, with nothing in
`A`. -/
theorem constructed_store_runs (g : Growth) (cs : List Call) :
    ((∃ rs s, (Storage.new g).calls cs = some (rs, s)) ↔ ∀ c ∈ cs, tableOf c ≠ some "A") ∧
    ∀ rs s, (Storage.new g).calls cs = some (rs, s) →
      (∃ meant, (mend (Storage.new g)).calls cs = some (rs, meant) ∧ s.tables = meant.tables) ∧
      s.intersection = some .empty ∧
      ∃ rows, s.symmetricDifference = some rows ∧
        ∀ row, row ∈ rows ↔
          ∃ n, Trace.firstInsert "B" row.id cs = some n ∧ row.fields = ["", n] := by
  have hhalf := new_half g
  obtain ⟨rs, meant, hcalls, hbound, hcontents⟩ := calls_refine (mend_bound hhalf.two) cs
  rw [calls_half hhalf, hcalls]
  by_cases hno : ∀ c ∈ cs, tableOf c ≠ some "A"
  · rw [if_pos hno, Option.map_some]
    refine ⟨⟨fun _ => hno, fun _ => ⟨_, _, rfl⟩⟩, fun rs' s hs => ?_⟩
    cases hs
    have hA : ∀ k, Queries.names (tableNamed meant "A") k = none := by
      intro k
      exact (Trace.contents_calls (mend_new_empty g) hcontents (.inl rfl) k).trans
        (firstInsert_unnamed hno k)
    have hB : ∀ k, Queries.names (tableNamed meant "B") k = Trace.firstInsert "B" k cs :=
      Trace.contents_calls (mend_new_empty g) hcontents (.inr rfl)
    obtain ⟨hboth, rows, hone, hmem⟩ := queries_of_empty hbound.elems hA
    refine ⟨⟨meant, rfl, rfl⟩, hboth, rows, hone, fun row => ?_⟩
    rw [hmem, hB]
  · simp [hno]

end JoinServer.Constructed
