import JoinServer.Queries
import JoinServer.Lib.FirstWins

namespace JoinServer.Contents

open JoinServer.Lib.OrderedSet JoinServer.Lib.Vectors JoinServer.Lib.Runs JoinServer.Lib.FirstWins
open JoinServer.Store

def tableIndex (name : String) : Option Nat :=
  if name = "A" then some 0 else if name = "B" then some 1 else none

def Known (name : String) : Prop := name = "A" ∨ name = "B"

instance : DecidablePred Known := fun name => inferInstanceAs (Decidable (name = "A" ∨ name = "B"))

/-- The binding `add_table` is meant to set up: `A` and `B` refer to the live
tables 0 and 1, and no other name is bound. -/
structure Bound (s : Storage) : Prop where
  two : s.tables.elems.length = 2
  names : ∀ name, s.names.lookup name = (tableIndex name).map (Ref.mk s.tables.buffer)

def tableNamed (s : Storage) (name : String) : Table :=
  ((tableIndex name).bind (fun i => s.tables.elems[i]?)).getD .empty

/-- The store seen as a partial map from ids to names for every table name. -/
def contents (s : Storage) : Contents String Int String :=
  fun name k => ((tableNamed s name).find? k).map Record.name

def event : Call → Event String Int String
  | .insert table id name => .put table id name
  | .truncate table => .clear table
  | .intersection | .symmetricDifference => .read

def boundStorage (a b : Table) : Storage :=
  ⟨.ofList [a, b], [("A", ⟨0, 0⟩), ("B", ⟨0, 1⟩)]⟩

theorem boundStorage_bound (a b : Table) : Bound (boundStorage a b) := by
  refine ⟨rfl, fun name => ?_⟩
  by_cases ha : name = "A"
  · subst ha; rfl
  · by_cases hb : name = "B"
    · subst hb; rfl
    · simp [boundStorage, List.lookup_cons, tableIndex, ha, hb, beq_eq_false_iff_ne.mpr ha,
        beq_eq_false_iff_ne.mpr hb]

theorem tableIndex_eq_some {name : String} {i : Nat} :
    tableIndex name = some i ↔ (name = "A" ∧ i = 0) ∨ (name = "B" ∧ i = 1) := by
  unfold tableIndex
  by_cases ha : name = "A"
  · simp [ha, eq_comm]
  · by_cases hb : name = "B" <;> simp [ha, hb, eq_comm]

theorem tableIndex_lt {name : String} {i : Nat} (h : tableIndex name = some i) : i < 2 := by
  obtain ⟨-, rfl⟩ | ⟨-, rfl⟩ := tableIndex_eq_some.mp h <;> omega

theorem tableIndex_inj {name name' : String} {i : Nat} (h : tableIndex name = some i)
    (h' : tableIndex name' = some i) : name = name' := by
  obtain ⟨rfl, rfl⟩ | ⟨rfl, rfl⟩ := tableIndex_eq_some.mp h
  · simpa [eq_comm] using tableIndex_eq_some.mp h'
  · simpa [eq_comm] using tableIndex_eq_some.mp h'

theorem known_of_index {name : String} {i : Nat} (h : tableIndex name = some i) : Known name :=
  (tableIndex_eq_some.mp h).imp And.left And.left

theorem not_known_of_index {name : String} (h : tableIndex name = none) : ¬ Known name := by
  rintro (rfl | rfl) <;> cases h

namespace Bound

variable {s : Storage} {name : String} {i : Nat}

theorem lookup (h : Bound s) (hi : tableIndex name = some i) :
    s.names.lookup name = some ⟨s.tables.buffer, i⟩ := by
  rw [h.names, hi, Option.map_some]

theorem lookup_unknown (h : Bound s) (hi : tableIndex name = none) :
    s.names.lookup name = none := by
  rw [h.names, hi, Option.map_none]

theorem deref (h : Bound s) (hi : tableIndex name = some i) :
    s.tables.deref ⟨s.tables.buffer, i⟩ = some (tableNamed s name) := by
  have hlt : i < s.tables.elems.length := h.two ▸ tableIndex_lt hi
  simp [RefVector.deref, tableNamed, hi, hlt]

theorem assign (h : Bound s) (t : Table) :
    Bound { s with tables := s.tables.assign ⟨s.tables.buffer, i⟩ t } :=
  ⟨by simpa using h.two, h.names⟩

theorem elems (h : Bound s) : s.tables.elems = [tableNamed s "A", tableNamed s "B"] := by
  obtain ⟨a, b, hab⟩ := List.length_eq_two.mp h.two
  simp [tableNamed, tableIndex, hab]

end Bound

theorem tableNamed_assign {s : Storage} (h : Bound s) {name : String} {i : Nat}
    (hi : tableIndex name = some i) (t : Table) (other : String) :
    tableNamed { s with tables := s.tables.assign ⟨s.tables.buffer, i⟩ t } other =
      if other = name then t else tableNamed s other := by
  have hlt : i < s.tables.elems.length := h.two ▸ tableIndex_lt hi
  split_ifs with ho
  · subst ho
    simp [tableNamed, hi, hlt]
  · cases hj : tableIndex other with
    | none => simp [tableNamed, hj]
    | some j =>
      have hne : i ≠ j := fun he => ho (tableIndex_inj hj (he ▸ hi))
      simp [tableNamed, hj, List.getElem?_set_ne hne]

theorem find?_of_contents {s : Storage} {name : String} {k : Int} {n : Option String}
    (h : contents s name k = n) : (tableNamed s name).find? k = n.map (Record.mk k) :=
  Queries.find?_of_names h

theorem tableNamed_of_contents {s s' : Storage} (h : contents s = contents s') (name : String) :
    tableNamed s name = tableNamed s' name :=
  Queries.names_injective (congrFun h name)

theorem contents_assign {s : Storage} (h : Bound s) {name : String} {i : Nat}
    (hi : tableIndex name = some i) (t : Table) :
    contents { s with tables := s.tables.assign ⟨s.tables.buffer, i⟩ t } =
      Function.update (contents s) name (fun k => (t.find? k).map Record.name) := by
  funext other k
  by_cases ho : other = name
  · subst ho
    simp [contents, tableNamed_assign h hi]
  · simp [contents, tableNamed_assign h hi, ho]

theorem contents_emplace (t : Table) (id : Int) (name : String) :
    (fun k => ((t.emplace ⟨id, name⟩).1.find? k).map Record.name) =
      Function.update (fun k => (t.find? k).map Record.name) id
        (some (((t.find? id).map Record.name).getD name)) := by
  funext k
  by_cases hk : k = id
  · subst hk
    rw [KeyedSet.find?_emplace]
    cases t.find? k <;> simp
  · simp [KeyedSet.find?_emplace, hk]

theorem insert_refines {s : Storage} (h : Bound s) (table : String) (id : Int) (name : String) :
    ∃ s', s.insert table id name = some (accepts Known (contents s) (.put table id name), s') ∧
      Bound s' ∧ contents s' = apply Known (contents s) (.put table id name) := by
  cases hi : tableIndex table with
  | none =>
    have hk : ¬ Known table := not_known_of_index hi
    refine ⟨s, ?_, h, by simp [apply, hk]⟩
    simp [Storage.insert, h.lookup_unknown hi, accepts, hk]
  | some i =>
    have hk : Known table := known_of_index hi
    refine ⟨{ s with
      tables := s.tables.assign ⟨s.tables.buffer, i⟩ ((tableNamed s table).emplace ⟨id, name⟩).1 },
      ?_, h.assign _, ?_⟩
    · simp [Storage.insert, h.lookup hi, h.deref hi, accepts, hk, KeyedSet.emplace_snd, contents]
    · rw [contents_assign h hi, contents_emplace]
      simp only [apply, hk, if_true, put]
      rfl

theorem truncate_refines {s : Storage} (h : Bound s) (table : String) :
    ∃ s', s.truncate table = some (accepts Known (contents s) (.clear table), s') ∧
      Bound s' ∧ contents s' = apply Known (contents s) (.clear table) := by
  cases hi : tableIndex table with
  | none =>
    have hk : ¬ Known table := not_known_of_index hi
    refine ⟨s, ?_, h, by simp [apply, hk]⟩
    simp [Storage.truncate, h.lookup_unknown hi, accepts, hk]
  | some i =>
    have hk : Known table := known_of_index hi
    refine ⟨{ s with tables := s.tables.assign ⟨s.tables.buffer, i⟩ .empty }, ?_, h.assign _, ?_⟩
    · simp [Storage.truncate, h.lookup hi, h.deref hi, accepts, hk]
    · rw [contents_assign h hi]
      simp [apply, hk, clear]

def Answers (s : Storage) : Call → Reply → Prop
  | .insert table id name, r => r = .flag (accepts Known (contents s) (.put table id name))
  | .truncate table, r => r = .flag (accepts Known (contents s) (.clear table))
  | .intersection, r => ∃ rows, s.intersection = some rows ∧ r = .rows rows
  | .symmetricDifference, r => ∃ rows, s.symmetricDifference = some rows ∧ r = .rows rows

/-- Every call on a bound store is defined, keeps the binding and has the
effect of its event on the contents. -/
theorem call_refines {s : Storage} (h : Bound s) (c : Call) :
    ∃ r s', s.call c = some (r, s') ∧ Bound s' ∧
      contents s' = apply Known (contents s) (event c) ∧ Answers s c r := by
  cases c with
  | insert table id name =>
    obtain ⟨s', hs, hb, hc⟩ := insert_refines h table id name
    exact ⟨_, s', by simp only [Storage.call, hs, Option.map_some], hb, hc, rfl⟩
  | truncate table =>
    obtain ⟨s', hs, hb, hc⟩ := truncate_refines h table
    exact ⟨_, s', by simp only [Storage.call, hs, Option.map_some], hb, hc, rfl⟩
  | intersection =>
    obtain ⟨rows, hr, -⟩ := Queries.intersection_query h.elems
    exact ⟨.rows rows, s, by simp only [Storage.call, hr, Option.map_some], h, rfl, rows, hr, rfl⟩
  | symmetricDifference =>
    obtain ⟨rows, hr, -⟩ := Queries.symmetricDifference_query h.elems
    exact ⟨.rows rows, s, by simp only [Storage.call, hr, Option.map_some], h, rfl, rows, hr, rfl⟩

theorem calls_refine {s : Storage} (h : Bound s) (cs : List Call) :
    ∃ rs s', s.calls cs = some (rs, s') ∧ Bound s' ∧
      contents s' = applyAll Known (contents s) (cs.map event) := by
  induction cs using List.reverseRecOn with
  | nil => exact ⟨[], s, rfl, h, rfl⟩
  | append_singleton cs c ih =>
    obtain ⟨rs, s₁, hcs, hb, hc⟩ := ih
    obtain ⟨r, s', hcall, hb', hc', -⟩ := call_refines hb c
    refine ⟨rs ++ [r], s', trace_concat.mpr ⟨rs, s₁, r, hcs, hcall, rfl⟩, hb', ?_⟩
    rw [hc', hc, List.map_append, applyAll, applyAll, List.foldl_append]
    rfl

end JoinServer.Contents
