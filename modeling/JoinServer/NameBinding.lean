import JoinServer.Store

namespace JoinServer.NameBinding

open JoinServer.Lib.OrderedSet JoinServer.Lib.Vectors JoinServer.Lib.Runs JoinServer.Store

def addTables (g : Growth) (names : List String) : Storage :=
  names.foldl (fun s name => s.addTable g name) Storage.empty

/-- Every registered name designates the live table that was appended with
it, and a record that an insertion accepts is in the table of its name. -/
structure Binds (names : List String) (s : Storage) : Prop where
  live : ∀ i name, names[i]? = some name →
    ∃ found, s.names.lookup name = some found ∧ s.tables.Designates found i
  stored : ∀ table id name s', s.insert table id name = some (true, s') →
    ∃ (i : Nat) (t : Table),
      names[i]? = some table ∧ s'.tables.elems[i]? = some t ∧ (⟨id, name⟩ : Record) ∈ t

theorem addTable_lookup (g : Growth) {s : Storage} {name : String} {r : Ref} (other : String)
    (h : s.names.lookup name = some r) : (s.addTable g other).names.lookup name = some r := by
  simp only [Storage.addTable]
  split_ifs
  · exact h
  · rw [List.lookup_append, h, Option.some_or]

theorem addTable_designates (g : Growth) {s : Storage} {name : String}
    (h : s.names.lookup name = none) :
    ∃ found, (s.addTable g name).names.lookup name = some found ∧
      (s.addTable g name).tables.Designates found s.tables.elems.length := by
  have hnew : (s.addTable g name).names.lookup name = some (s.tables.emplaceBack g .empty).back := by
    simp [Storage.addTable, h, List.lookup_append]
  exact ⟨_, hnew, RefVector.designates_back g s.tables .empty⟩

theorem addTables_frame (g : Growth) {s : Storage} {name : String} {r : Ref} (others : List String)
    (h : s.names.lookup name = some r) :
    (others.foldl (fun s name => s.addTable g name) s).names.lookup name = some r ∧
      s.tables.buffer ≤ (others.foldl (fun s name => s.addTable g name) s).tables.buffer := by
  induction others generalizing s with
  | nil => exact ⟨h, Nat.le_refl _⟩
  | cons other others ih =>
    obtain ⟨hl, hb⟩ := ih (addTable_lookup g other h)
    have hle : s.tables.buffer ≤ (s.addTable g other).tables.buffer :=
      RefVector.le_emplaceBack_buffer g s.tables .empty
    exact ⟨hl, hle.trans hb⟩

def single (g : Growth) (name : String) : Storage := Storage.empty.addTable g name

theorem single_names (g : Growth) (name : String) : (single g name).names = [(name, ⟨1, 0⟩)] := by
  simp [single, Storage.addTable, Storage.empty, RefVector.emplaceBack, RefVector.empty,
    RefVector.back]

theorem single_tables (g : Growth) (name : String) :
    (single g name).tables.buffer = 1 ∧ (single g name).tables.elems.length = 1 ∧
      (single g name).tables.capacity = 1 := by
  simp [single, Storage.addTable, Storage.empty, RefVector.emplaceBack, RefVector.empty,
    g.next_zero]

/-- The second `add_table` finds the vector full. It moves the first table
and leaves the first name with a reference into the released buffer. -/
theorem first_name_stale (g : Growth) (a b : String) (names : List String) :
    ∃ found, (addTables g (a :: b :: names)).names.lookup a = some found ∧
      found.buffer < (addTables g (a :: b :: names)).tables.buffer := by
  obtain ⟨hb, hl, hc⟩ := single_tables g a
  have hfirst : (single g a).names.lookup a = some ⟨1, 0⟩ := by simp [single_names]
  have hsecond : ((single g a).addTable g b).tables.buffer = 2 := by
    have hfull := RefVector.emplaceBack_buffer_of_full g (v := (single g a).tables) .empty
      (hl.trans hc.symm)
    rw [hb] at hfull
    exact hfull
  obtain ⟨hlook, hle⟩ := addTables_frame g names (addTable_lookup g b hfirst)
  rw [hsecond] at hle
  exact ⟨⟨1, 0⟩, hlook, hle⟩

theorem not_binds_two (g : Growth) (a b : String) (names : List String) :
    ¬ Binds (a :: b :: names) (addTables g (a :: b :: names)) := by
  intro h
  obtain ⟨found, hf, hlt⟩ := first_name_stale g a b names
  obtain ⟨found', hf', hbuf, -, -⟩ := h.live 0 a rfl
  rw [hf] at hf'
  cases hf'
  omega

/-- Once a second table is registered, an insertion into the first one goes
through a reference into released memory. -/
theorem insert_first_undefined (g : Growth) (a b : String) (names : List String) (id : Int)
    (name : String) : (addTables g (a :: b :: names)).insert a id name = none := by
  obtain ⟨found, hf, hlt⟩ := first_name_stale g a b names
  have hderef : (addTables g (a :: b :: names)).tables.deref found = none :=
    if_neg (Nat.ne_of_lt hlt)
  simp [Storage.insert, hf, hderef]

theorem new_eq_addTables (g : Growth) : Storage.new g = addTables g ["A", "B"] := rfl

def SameBinding (s₀ s : Storage) : Prop :=
  s.names = s₀.names ∧ s.tables.buffer = s₀.tables.buffer ∧
    s.tables.elems.length = s₀.tables.elems.length

theorem sameBinding_calls {s₀ s : Storage} {cs : List Call} {rs : List Reply}
    (h : s₀.calls cs = some (rs, s)) : SameBinding s₀ s := by
  apply trace_invariant (I := SameBinding s₀) (f := Storage.call) _ ⟨rfl, rfl, rfl⟩ h
  intro s₁ c r s₂ hs hc
  obtain ⟨hn, hb, hl⟩ := Storage.call_frame hc
  exact ⟨hn.trans hs.1, hb.trans hs.2.1, hl.trans hs.2.2⟩

theorem binds_empty {s : Storage} (h : SameBinding Storage.empty s) : Binds [] s := by
  refine ⟨fun i name hi => by simp at hi, fun table id name s' hi => ?_⟩
  obtain ⟨-, hb, -⟩ | ⟨found, t, hf, -⟩ := Storage.insert_cases hi
  · cases hb
  · rw [h.1] at hf
    cases hf

theorem binds_single (g : Growth) (a : String) {s : Storage} (h : SameBinding (single g a) s) :
    Binds [a] s := by
  obtain ⟨hb, hl, -⟩ := single_tables g a
  obtain ⟨hn, hbuf, hlen⟩ := h
  rw [single_names] at hn
  rw [hb] at hbuf
  rw [hl] at hlen
  constructor
  · intro i name hi
    obtain ⟨hlt, rfl⟩ := List.getElem?_eq_some_iff.mp hi
    obtain rfl : i = 0 := by simpa using hlt
    exact ⟨⟨1, 0⟩, by simp [hn], hbuf.symm, rfl, by omega⟩
  · intro table id name s' hi
    obtain ⟨-, hf, -⟩ | ⟨found, t, hf, ht, hflag, rfl⟩ := Storage.insert_cases hi
    · cases hf
    · rw [hn] at hf
      have hta : table = a := by
        by_contra hne
        simp [List.lookup_cons, beq_eq_false_iff_ne.mpr hne] at hf
      subst hta
      obtain rfl : (⟨1, 0⟩ : Ref) = found := by simpa using hf
      have hfree : t.find? id = none := by
        rw [KeyedSet.emplace_snd] at hflag
        exact Option.isNone_iff_eq_none.mp hflag.symm
      have hmem := ((KeyedSet.emplace_free (s := t) (x := ⟨id, name⟩) hfree).2 ⟨id, name⟩).mpr
        (.inl rfl)
      exact ⟨0, (t.emplace ⟨id, name⟩).1, rfl, by simp [hlen], hmem⟩

/-- The names stay bound to their tables exactly when no second table is
registered: an `add_table` reallocates under the references taken before. Calls
whose behaviour is undefined reach no state, and nothing is said of them. -/
theorem names_stay_bound_iff (g : Growth) (names : List String) :
    (∀ cs rs s, (addTables g names).calls cs = some (rs, s) → Binds names s) ↔
      names.length ≤ 1 := by
  constructor
  · intro h
    match names with
    | [] => simp
    | [a] => simp
    | a :: b :: names => exact absurd (h [] [] _ rfl) (not_binds_two g a b names)
  · intro hlen cs rs s hs
    match names with
    | [] => exact binds_empty (sameBinding_calls hs)
    | [a] => exact binds_single g a (sameBinding_calls hs)
    | a :: b :: names => simp at hlen

/-- The store of the program registers two tables, so its name `A` is not
bound to its first table. -/
theorem new_names_not_bound :
    ¬ ∀ cs rs s, (Storage.new doubling).calls cs = some (rs, s) → Binds ["A", "B"] s := by
  intro h
  rw [new_eq_addTables] at h
  exact not_binds_two doubling "A" "B" [] (h [] [] _ rfl)

end JoinServer.NameBinding
