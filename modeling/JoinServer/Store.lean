import JoinServer.Lib.OrderedSet
import JoinServer.Lib.Merge
import JoinServer.Lib.Vectors
import JoinServer.Lib.Runs
import Mathlib.Algebra.Order.Ring.Int

namespace JoinServer.Store

open JoinServer.Lib.OrderedSet JoinServer.Lib.Merge JoinServer.Lib.Vectors JoinServer.Lib.Runs

/-- An `int` is only ever compared, so it is modelled by the integers. -/
structure Record where
  id : Int
  name : String
  deriving DecidableEq

/-- A `std::set<Record>`: `operator<` compares the ids. -/
abbrev Table := KeyedSet Record Record.id

@[ext]
structure ResultRecord where
  id : Int
  fields : List String
  deriving DecidableEq

def ResultRecord.new (n : Nat) : ResultRecord := ⟨0, List.replicate n ""⟩

abbrev ResultTable := KeyedSet ResultRecord ResultRecord.id

/-- `names` maps a name to a reference into the buffer of `tables`. The mutex
`m_` is held from the first to the last statement of every public method and
does not show in a single call. -/
structure Storage where
  tables : RefVector Table
  names : List (String × Ref)

namespace Storage

/-- `names_.emplace` keeps an entry that is already there. -/
def addTable (g : Growth) (s : Storage) (name : String) : Storage :=
  let tables := s.tables.emplaceBack g .empty
  { tables
    names := if (s.names.lookup name).isSome then s.names else s.names ++ [(name, tables.back)] }

def empty : Storage := ⟨.empty, []⟩

def new (g : Growth) : Storage := (empty.addTable g "A").addTable g "B"

/-- There is no result when `names` holds a reference into a released buffer:
the behaviour of the code is then undefined. -/
def insert (s : Storage) (table : String) (id : Int) (name : String) : Option (Bool × Storage) :=
  match s.names.lookup table with
  | none => some (false, s)
  | some found => do
    let t ← s.tables.deref found
    let rc := t.emplace ⟨id, name⟩
    some (rc.2, { s with tables := s.tables.assign found rc.1 })

def truncate (s : Storage) (table : String) : Option (Bool × Storage) :=
  match s.names.lookup table with
  | none => some (false, s)
  | some found => do
    let _ ← s.tables.deref found
    some (true, { s with tables := s.tables.assign found .empty })

end Storage

def findName (data : Table) (key : Int) : String × Bool :=
  match data.find? key with
  | some found => (found.name, true)
  | none => ("", false)

def keys (t : Table) : List Int := t.toList.map Record.id

def extractKeys (tables : List Table) : List (List Int) := tables.map keys

/-- The inner loop of `fill_result` from table `i` on. Writing a field that
the row does not have is undefined. -/
def fillRow (key : Int) : Nat → List Table → ResultRecord → Option ResultRecord
  | _, [], rr => some rr
  | i, t :: ts, rr =>
    if (findName t key).2 then
      if i < rr.fields.length then
        fillRow key (i + 1) ts ⟨key, rr.fields.set i (findName t key).1⟩
      else none
    else fillRow key (i + 1) ts rr

def fillResult (tables : List Table) : List Int → ResultTable → Option ResultTable
  | [], result => some result
  | key :: keysAb, result => do
    let rr ← fillRow key 0 tables (ResultRecord.new 2)
    fillResult tables keysAb (result.emplace rr).1

namespace Storage

/-- The body the two queries share. Their `table_keys[0]` and `table_keys[1]`
are undefined on a store with fewer tables. -/
def query (merge : List Int → List Int → List Int) (s : Storage) : Option ResultTable := do
  let tableKeys := extractKeys s.tables.elems
  let keysA ← tableKeys[0]?
  let keysB ← tableKeys[1]?
  fillResult s.tables.elems (merge keysA keysB) .empty

def intersection (s : Storage) : Option ResultTable := s.query setIntersection

def symmetricDifference (s : Storage) : Option ResultTable := s.query setSymmetricDifference

end Storage

inductive Call
  | insert (table : String) (id : Int) (name : String)
  | truncate (table : String)
  | intersection
  | symmetricDifference
  deriving DecidableEq

inductive Reply
  | flag (b : Bool)
  | rows (r : ResultTable)

namespace Storage

def call (s : Storage) : Call → Option (Reply × Storage)
  | .insert table id name => (s.insert table id name).map (fun p => (.flag p.1, p.2))
  | .truncate table => (s.truncate table).map (fun p => (.flag p.1, p.2))
  | .intersection => s.intersection.map (fun r => (.rows r, s))
  | .symmetricDifference => s.symmetricDifference.map (fun r => (.rows r, s))

def calls (s : Storage) (cs : List Call) : Option (List Reply × Storage) := trace call s cs

theorem insert_cases {s s' : Storage} {table name : String} {id : Int} {b : Bool}
    (h : s.insert table id name = some (b, s')) :
    (s.names.lookup table = none ∧ b = false ∧ s' = s) ∨
    ∃ found t, s.names.lookup table = some found ∧ s.tables.deref found = some t ∧
      b = (t.emplace ⟨id, name⟩).2 ∧
      s' = { s with tables := s.tables.assign found (t.emplace ⟨id, name⟩).1 } := by
  unfold insert at h
  split at h
  next hn =>
    cases h
    exact .inl ⟨hn, rfl, rfl⟩
  next found hf =>
    obtain ⟨t, ht, h⟩ := Option.bind_eq_some_iff.mp h
    cases h
    exact .inr ⟨found, t, hf, ht, rfl, rfl⟩

theorem truncate_cases {s s' : Storage} {table : String} {b : Bool}
    (h : s.truncate table = some (b, s')) :
    (s.names.lookup table = none ∧ b = false ∧ s' = s) ∨
    ∃ found t, s.names.lookup table = some found ∧ s.tables.deref found = some t ∧
      b = true ∧ s' = { s with tables := s.tables.assign found .empty } := by
  unfold truncate at h
  split at h
  next hn =>
    cases h
    exact .inl ⟨hn, rfl, rfl⟩
  next found hf =>
    obtain ⟨t, ht, h⟩ := Option.bind_eq_some_iff.mp h
    cases h
    exact .inr ⟨found, t, hf, ht, rfl, rfl⟩

inductive Called (s : Storage) : Call → Reply → Storage → Prop
  | insert {table name : String} {id : Int} {b : Bool} {s' : Storage}
      (hi : s.insert table id name = some (b, s')) : Called s (.insert table id name) (.flag b) s'
  | truncate {table : String} {b : Bool} {s' : Storage}
      (hi : s.truncate table = some (b, s')) : Called s (.truncate table) (.flag b) s'
  | intersection {rows : ResultTable} (hq : s.intersection = some rows) :
    Called s .intersection (.rows rows) s
  | symmetricDifference {rows : ResultTable} (hq : s.symmetricDifference = some rows) :
    Called s .symmetricDifference (.rows rows) s

theorem called_of_call {s s' : Storage} {c : Call} {r : Reply} (h : s.call c = some (r, s')) :
    Called s c r s' := by
  cases c with
  | insert table id name =>
    obtain ⟨p, hi, h⟩ := Option.map_eq_some_iff.mp h
    cases h
    exact .insert hi
  | truncate table =>
    obtain ⟨p, hi, h⟩ := Option.map_eq_some_iff.mp h
    cases h
    exact .truncate hi
  | intersection =>
    obtain ⟨rows, hq, h⟩ := Option.map_eq_some_iff.mp h
    cases h
    exact .intersection hq
  | symmetricDifference =>
    obtain ⟨rows, hq, h⟩ := Option.map_eq_some_iff.mp h
    cases h
    exact .symmetricDifference hq

/-- What a call can do to the store: nothing, or replace one live table that
a name designates. -/
theorem call_cases {s s' : Storage} {c : Call} {r : Reply} (h : s.call c = some (r, s')) :
    s' = s ∨ ∃ name found t t', s.names.lookup name = some found ∧
      s.tables.deref found = some t ∧ s' = { s with tables := s.tables.assign found t' } := by
  cases called_of_call h with
  | @insert table name id b _ hi =>
    obtain ⟨-, -, rfl⟩ | ⟨found, t, hf, ht, -, rfl⟩ := insert_cases hi
    · exact .inl rfl
    · exact .inr ⟨table, found, t, _, hf, ht, rfl⟩
  | @truncate table b _ hi =>
    obtain ⟨-, -, rfl⟩ | ⟨found, t, hf, ht, -, rfl⟩ := truncate_cases hi
    · exact .inl rfl
    · exact .inr ⟨table, found, t, _, hf, ht, rfl⟩
  | intersection | symmetricDifference => exact .inl rfl

theorem call_frame {s s' : Storage} {c : Call} {r : Reply} (h : s.call c = some (r, s')) :
    s'.names = s.names ∧ s'.tables.buffer = s.tables.buffer ∧
      s'.tables.elems.length = s.tables.elems.length := by
  obtain rfl | ⟨name, found, t, t', -, -, rfl⟩ := call_cases h
  · exact ⟨rfl, rfl, rfl⟩
  · simp

theorem call_rejected {s s' : Storage} {c : Call} (h : s.call c = some (.flag false, s')) :
    s' = s := by
  cases called_of_call h with
  | @insert table name id _ _ hi =>
    obtain ⟨-, -, rfl⟩ | ⟨found, t, -, ht, hb, rfl⟩ := insert_cases hi
    · rfl
    · have htaken : t.emplace ⟨id, name⟩ = (t, false) := by
        rw [KeyedSet.emplace_snd] at hb
        obtain ⟨r, hr⟩ := Option.isSome_iff_exists.mp (Option.isNone_eq_false_iff.mp hb.symm)
        exact KeyedSet.emplace_taken hr
      rw [htaken, RefVector.assign_self (RefVector.deref_eq_some ht).2]
  | truncate hi =>
    obtain ⟨-, -, rfl⟩ | ⟨found, t, -, -, hb, -⟩ := truncate_cases hi
    · rfl
    · cases hb

theorem call_query {s s' : Storage} {c : Call} {r : Reply}
    (hc : c = .intersection ∨ c = .symmetricDifference) (h : s.call c = some (r, s')) : s' = s := by
  cases called_of_call h with
  | intersection | symmetricDifference => rfl
  | insert | truncate => simp at hc

end Storage

end JoinServer.Store
