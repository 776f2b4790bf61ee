import JoinServer.Store

namespace JoinServer.Queries

open JoinServer.Lib.OrderedSet JoinServer.Lib.Merge JoinServer.Store

theorem findName_of_mem {t : Table} {k : Int} {n : String} (h : (⟨k, n⟩ : Record) ∈ t) :
    findName t k = (n, true) := by
  have hf : t.find? k = some ⟨k, n⟩ := KeyedSet.find?_eq_some.mpr ⟨h, rfl⟩
  simp only [findName, hf]

theorem mem_keys {t : Table} {k : Int} : k ∈ keys t ↔ ∃ n, (⟨k, n⟩ : Record) ∈ t := by
  constructor
  · intro h
    obtain ⟨⟨k', n⟩, hm, rfl⟩ := List.mem_map.mp h
    exact ⟨n, hm⟩
  · rintro ⟨n, hn⟩
    exact List.mem_map.mpr ⟨⟨k, n⟩, hn, rfl⟩

theorem findName_of_not_mem {t : Table} {k : Int} (h : k ∉ keys t) :
    findName t k = ("", false) := by
  have hf : t.find? k = none := by
    apply KeyedSet.find?_eq_none.mpr
    rintro ⟨k', n⟩ hx rfl
    exact h (mem_keys.mpr ⟨n, hx⟩)
  simp only [findName, hf]

theorem keys_sorted (t : Table) : (keys t).Pairwise (· < ·) :=
  List.pairwise_map.mpr t.sorted

def names (t : Table) (k : Int) : Option String := (t.find? k).map Record.name

theorem find?_of_names {t : Table} {k : Int} {n : Option String} (h : names t k = n) :
    t.find? k = n.map (Record.mk k) := by
  subst h
  unfold names
  cases hf : t.find? k with
  | none => rfl
  | some r =>
    obtain rfl : r.id = k := KeyedSet.key_of_find? hf
    rfl

theorem names_eq_some {t : Table} {k : Int} {n : String} :
    names t k = some n ↔ (⟨k, n⟩ : Record) ∈ t := by
  constructor
  · intro h
    exact (KeyedSet.find?_eq_some.mp (find?_of_names h)).1
  · intro h
    have hf : t.find? k = some ⟨k, n⟩ := KeyedSet.find?_eq_some.mpr ⟨h, rfl⟩
    rw [names, hf, Option.map_some]

theorem names_eq_none {t : Table} {k : Int} : names t k = none ↔ k ∉ keys t := by
  rw [mem_keys, Option.eq_none_iff_forall_ne_some, not_exists]
  exact forall_congr' fun n => not_congr names_eq_some

theorem names_injective {t u : Table} (h : names t = names u) : t = u := by
  apply KeyedSet.ext_find?
  intro k
  rw [find?_of_names (congrFun h k), find?_of_names rfl]

theorem extractKeys_sorted (tables : List Table) :
    ∀ ks ∈ extractKeys tables, ks.Pairwise (· < ·) := by
  intro ks hks
  obtain ⟨t, -, rfl⟩ := List.mem_map.mp hks
  exact keys_sorted t

def row (a b : Table) (k : Int) : ResultRecord := ⟨k, [(findName a k).1, (findName b k).1]⟩

theorem fillRow_two {a b : Table} {k : Int} (h : k ∈ keys a ∨ k ∈ keys b) :
    fillRow k 0 [a, b] (ResultRecord.new 2) = some (row a b k) := by
  by_cases ha : k ∈ keys a
  · obtain ⟨n, hn⟩ := mem_keys.mp ha
    by_cases hb : k ∈ keys b
    · obtain ⟨m, hm⟩ := mem_keys.mp hb
      simp [fillRow, ResultRecord.new, row, findName_of_mem hn, findName_of_mem hm]
    · simp [fillRow, ResultRecord.new, row, findName_of_mem hn, findName_of_not_mem hb]
  · have hb : k ∈ keys b := h.resolve_left ha
    obtain ⟨m, hm⟩ := mem_keys.mp hb
    simp [fillRow, ResultRecord.new, row, findName_of_not_mem ha, findName_of_mem hm]

/-- For keys in increasing order every row goes to the end of the result, so
that none is dropped. -/
theorem fillResult_two {a b : Table} {ks : List Int} (result : ResultTable)
    (hk : ∀ k ∈ ks, k ∈ keys a ∨ k ∈ keys b) (hs : ks.Pairwise (· < ·))
    (hr : ∀ r ∈ result, ∀ k ∈ ks, r.id < k) :
    ∃ rows, fillResult [a, b] ks result = some rows ∧
      rows.toList = result.toList ++ ks.map (row a b) := by
  induction ks generalizing result with
  | nil => exact ⟨result, rfl, by simp⟩
  | cons k ks ih =>
    obtain ⟨hlt, hs⟩ := List.pairwise_cons.mp hs
    have hlast : ∀ r ∈ result, r.id < (row a b k).id :=
      fun r hm => hr r hm k List.mem_cons_self
    obtain ⟨hlist, -⟩ := KeyedSet.emplace_last hlast
    have hnext : ∀ r ∈ (result.emplace (row a b k)).1, ∀ k' ∈ ks, r.id < k' := by
      intro r hm k' hk'
      rw [← KeyedSet.mem_toList, hlist] at hm
      obtain hm | hm := List.mem_append.mp hm
      · exact hr r hm k' (List.mem_cons_of_mem k hk')
      · obtain rfl := List.mem_singleton.mp hm
        exact hlt k' hk'
    obtain ⟨rows, hrows, hl⟩ := ih _ (fun k' h => hk k' (List.mem_cons_of_mem k h)) hs hnext
    refine ⟨rows, ?_, ?_⟩
    · simp only [fillResult, fillRow_two (hk k List.mem_cons_self), Option.bind_eq_bind,
        Option.bind_some, hrows]
    · rw [hl, hlist, List.append_assoc, List.singleton_append, List.map_cons]

theorem query_two {merge : List Int → List Int → List Int} {s : Storage} {a b : Table}
    (h : s.tables.elems = [a, b]) (hs : (merge (keys a) (keys b)).Pairwise (· < ·))
    (hk : ∀ k ∈ merge (keys a) (keys b), k ∈ keys a ∨ k ∈ keys b) :
    ∃ rows, s.query merge = some rows ∧
      rows.toList = (merge (keys a) (keys b)).map (row a b) := by
  obtain ⟨rows, hrows, hl⟩ := fillResult_two .empty hk hs
    (fun r hm => absurd hm List.not_mem_nil)
  refine ⟨rows, ?_, by simpa [KeyedSet.empty] using hl⟩
  simp only [Storage.query, h, extractKeys, List.map_cons, List.map_nil, List.getElem?_cons_zero,
    List.getElem?_cons_succ, Option.bind_eq_bind, Option.bind_some, hrows]

theorem mem_rows {a b : Table} {ks : List Int} {r : ResultRecord} :
    r ∈ ks.map (row a b) ↔ r.id ∈ ks ∧ r.fields = [(findName a r.id).1, (findName b r.id).1] := by
  constructor
  · intro h
    obtain ⟨k, hk, rfl⟩ := List.mem_map.mp h
    exact ⟨hk, rfl⟩
  · rintro ⟨hk, hf⟩
    exact List.mem_map.mpr ⟨r.id, hk, ResultRecord.ext rfl hf.symm⟩

theorem map_id_rows (a b : Table) (ks : List Int) :
    (ks.map (row a b)).map ResultRecord.id = ks := by
  simp [row, Function.comp_def]

theorem intersection_query {s : Storage} {a b : Table} (h : s.tables.elems = [a, b]) :
    ∃ rows, s.intersection = some rows ∧
      rows.toList = (setIntersection (keys a) (keys b)).map (row a b) := by
  apply query_two h (setIntersection_sorted (keys_sorted a))
  intro k hk
  exact .inl ((mem_setIntersection (keys_sorted a) (keys_sorted b) k).mp hk).1

theorem symmetricDifference_query {s : Storage} {a b : Table} (h : s.tables.elems = [a, b]) :
    ∃ rows, s.symmetricDifference = some rows ∧
      rows.toList = (setSymmetricDifference (keys a) (keys b)).map (row a b) := by
  apply query_two h (setSymmetricDifference_sorted (keys_sorted a) (keys_sorted b))
  intro k hk
  exact mem_of_mem_setSymmetricDifference hk

theorem intersection_rows {s : Storage} {a b : Table} (h : s.tables.elems = [a, b]) :
    ∃ rows, s.intersection = some rows ∧
      rows.toList.map ResultRecord.id = setIntersection (keys a) (keys b) ∧
      ∀ r, r ∈ rows ↔ ∃ n m, (⟨r.id, n⟩ : Record) ∈ a ∧ (⟨r.id, m⟩ : Record) ∈ b ∧
        r.fields = [n, m] := by
  obtain ⟨rows, hrows, hl⟩ := intersection_query h
  refine ⟨rows, hrows, by rw [hl, map_id_rows], fun r => ?_⟩
  rw [← KeyedSet.mem_toList, hl, mem_rows,
    mem_setIntersection (keys_sorted a) (keys_sorted b), mem_keys, mem_keys]
  constructor
  · rintro ⟨⟨⟨n, hn⟩, ⟨m, hm⟩⟩, hf⟩
    rw [findName_of_mem hn, findName_of_mem hm] at hf
    exact ⟨n, m, hn, hm, hf⟩
  · rintro ⟨n, m, hn, hm, hf⟩
    rw [findName_of_mem hn, findName_of_mem hm]
    exact ⟨⟨⟨n, hn⟩, ⟨m, hm⟩⟩, hf⟩

/-- `intersection()` is the join of the two tables: one row for every id in
both, with the name in each, by increasing id. -/
theorem intersection_is_join (s : Storage) (a b : Table) (h : s.tables.elems = [a, b]) :
    (∀ ks ∈ extractKeys s.tables.elems, ks.Pairwise (· < ·)) ∧
    ∃ rows, s.call .intersection = some (.rows rows, s) ∧
      rows.toList.map ResultRecord.id = setIntersection (keys a) (keys b) ∧
      rows.toList.Pairwise (fun r r' => r.id < r'.id) ∧
      ∀ r, r ∈ rows ↔ ∃ n m, (⟨r.id, n⟩ : Record) ∈ a ∧ (⟨r.id, m⟩ : Record) ∈ b ∧
        r.fields = [n, m] := by
  obtain ⟨rows, hrows, hids, hmem⟩ := intersection_rows h
  have hcall : s.call .intersection = some (.rows rows, s) := by simp [Storage.call, hrows]
  exact ⟨extractKeys_sorted s.tables.elems, rows, hcall, hids, rows.sorted, hmem⟩

def sampleA : Table := ⟨[⟨-2, "lean"⟩, ⟨3, "violation"⟩], by decide⟩

def sampleB : Table := ⟨[⟨3, "proposal"⟩, ⟨6, ""⟩], by decide⟩

def sampleStorage : Storage := ⟨.ofList [sampleA, sampleB], []⟩

theorem intersection_is_join_sample :
    ∃ rows, sampleStorage.call .intersection = some (.rows rows, sampleStorage) ∧
      (⟨3, ["violation", "proposal"]⟩ : ResultRecord) ∈ rows := by
  obtain ⟨-, rows, hc, -, -, hrows⟩ := intersection_is_join sampleStorage sampleA sampleB rfl
  have hA : (⟨3, "violation"⟩ : Record) ∈ sampleA.toList := by decide
  have hB : (⟨3, "proposal"⟩ : Record) ∈ sampleB.toList := by decide
  exact ⟨rows, hc, (hrows ⟨3, _⟩).mpr ⟨_, _, hA, hB, rfl⟩⟩

theorem one_sided {t u : Table} {k : Int} {fields : List String}
    (columns : String → String → List String) :
    (k ∈ keys t ∧ k ∉ keys u) ∧ fields = columns (findName t k).1 (findName u k).1 ↔
      ∃ n, (⟨k, n⟩ : Record) ∈ t ∧ k ∉ keys u ∧ fields = columns n "" := by
  constructor
  · rintro ⟨⟨ht, hu⟩, hf⟩
    obtain ⟨n, hn⟩ := mem_keys.mp ht
    rw [findName_of_mem hn, findName_of_not_mem hu] at hf
    exact ⟨n, hn, hu, hf⟩
  · rintro ⟨n, hn, hu, hf⟩
    rw [findName_of_mem hn, findName_of_not_mem hu]
    exact ⟨⟨mem_keys.mpr ⟨n, hn⟩, hu⟩, hf⟩

theorem symmetricDifference_rows {s : Storage} {a b : Table} (h : s.tables.elems = [a, b]) :
    ∃ rows, s.symmetricDifference = some rows ∧
      rows.toList.map ResultRecord.id = setSymmetricDifference (keys a) (keys b) ∧
      ∀ r, r ∈ rows ↔
        (∃ n, (⟨r.id, n⟩ : Record) ∈ a ∧ r.id ∉ keys b ∧ r.fields = [n, ""]) ∨
        (∃ n, (⟨r.id, n⟩ : Record) ∈ b ∧ r.id ∉ keys a ∧ r.fields = ["", n]) := by
  obtain ⟨rows, hrows, hl⟩ := symmetricDifference_query h
  refine ⟨rows, hrows, by rw [hl, map_id_rows], fun r => ?_⟩
  rw [← KeyedSet.mem_toList, hl, mem_rows,
    mem_setSymmetricDifference (keys_sorted a) (keys_sorted b), or_and_right]
  apply or_congr
  · exact one_sided (fun n m => [n, m])
  · exact one_sided (fun n m => [m, n])

/-- `symmetric_difference()` returns one row for every id in exactly one
table, with the name in the column of that table, by increasing id. -/
theorem symmetricDifference_is_exclusive (s : Storage) (a b : Table)
    (h : s.tables.elems = [a, b]) :
    (∀ ks ∈ extractKeys s.tables.elems, ks.Pairwise (· < ·)) ∧
    ∃ rows, s.call .symmetricDifference = some (.rows rows, s) ∧
      rows.toList.map ResultRecord.id = setSymmetricDifference (keys a) (keys b) ∧
      rows.toList.Pairwise (fun r r' => r.id < r'.id) ∧
      ∀ r, r ∈ rows ↔
        (∃ n, (⟨r.id, n⟩ : Record) ∈ a ∧ r.id ∉ keys b ∧ r.fields = [n, ""]) ∨
        (∃ n, (⟨r.id, n⟩ : Record) ∈ b ∧ r.id ∉ keys a ∧ r.fields = ["", n]) := by
  obtain ⟨rows, hrows, hids, hmem⟩ := symmetricDifference_rows h
  have hcall : s.call .symmetricDifference = some (.rows rows, s) := by simp [Storage.call, hrows]
  exact ⟨extractKeys_sorted s.tables.elems, rows, hcall, hids, rows.sorted, hmem⟩

theorem symmetricDifference_is_exclusive_sample :
    ∃ rows, sampleStorage.call .symmetricDifference = some (.rows rows, sampleStorage) ∧
      (⟨-2, ["lean", ""]⟩ : ResultRecord) ∈ rows ∧ (⟨6, ["", ""]⟩ : ResultRecord) ∈ rows := by
  obtain ⟨-, rows, hc, -, -, hrows⟩ :=
    symmetricDifference_is_exclusive sampleStorage sampleA sampleB rfl
  have hA : (⟨-2, "lean"⟩ : Record) ∈ sampleA.toList := by decide
  have hB : (⟨6, ""⟩ : Record) ∈ sampleB.toList := by decide
  exact ⟨rows, hc, (hrows ⟨-2, _⟩).mpr (.inl ⟨_, hA, by decide, rfl⟩),
    (hrows ⟨6, _⟩).mpr (.inr ⟨_, hB, by decide, rfl⟩)⟩

end JoinServer.Queries
