import JoinServer.Queries
import JoinServer.Lib.OuterJoin

namespace JoinServer.Revealed

open JoinServer.Lib.OrderedSet JoinServer.Lib.OuterJoin JoinServer.Store JoinServer.Queries

def Shows (rows : ResultTable) (triples : Set (Int × String × String)) : Prop :=
  ∀ r, r ∈ rows ↔ ∃ n m, (r.id, n, m) ∈ triples ∧ r.fields = [n, m]

namespace Shows

variable {rows rows' : ResultTable} {triples triples' : Set (Int × String × String)}

theorem mem (h : Shows rows triples) {k : Int} {n m : String} :
    (k, n, m) ∈ triples ↔ (⟨k, [n, m]⟩ : ResultRecord) ∈ rows := by
  rw [h]
  constructor
  · exact fun ht => ⟨n, m, ht, rfl⟩
  · rintro ⟨n', m', ht, hf⟩
    cases hf
    exact ht

theorem eq_iff (h : Shows rows triples) (h' : Shows rows' triples') :
    rows = rows' ↔ triples = triples' := by
  constructor
  · rintro rfl
    exact Set.ext fun ⟨k, n, m⟩ => h.mem.trans h'.mem.symm
  · rintro rfl
    exact KeyedSet.ext_mem fun r => (h r).trans (h' r).symm

theorem mem_ids (h : Shows rows triples) (k : Int) :
    (∃ r ∈ rows, r.id = k) ↔ ∃ p, (k, p) ∈ triples := by
  constructor
  · rintro ⟨r, hr, rfl⟩
    obtain ⟨n, m, ht, -⟩ := (h r).mp hr
    exact ⟨(n, m), ht⟩
  · rintro ⟨⟨n, m⟩, ht⟩
    exact ⟨⟨k, [n, m]⟩, h.mem.mp ht, rfl⟩

end Shows

variable {s : Storage} {a b : Table}

theorem intersection_shows (h : s.tables.elems = [a, b]) :
    ∃ rows, s.intersection = some rows ∧ Shows rows (inner (names a) (names b)) := by
  obtain ⟨rows, hrows, -, hmem⟩ := intersection_rows h
  refine ⟨rows, hrows, fun r => ?_⟩
  simp only [hmem, mem_inner, names_eq_some, and_assoc]

theorem names_ne_blank {t : Table} (h : ∀ r ∈ t, r.name ≠ "") (k : Int) :
    names t k ≠ some "" :=
  fun hk => h _ (names_eq_some.mp hk) rfl

theorem only_iff {t u : Table} {k : Int} {n : String} :
    Only (names t) (names u) k n ↔ (⟨k, n⟩ : Record) ∈ t ∧ k ∉ keys u := by
  rw [Only, names_eq_some, names_eq_none]

theorem symmetricDifference_shows (h : s.tables.elems = [a, b]) :
    ∃ rows, s.symmetricDifference = some rows ∧ Shows rows (outer "" (names a) (names b)) := by
  obtain ⟨rows, hrows, -, hmem⟩ := symmetricDifference_rows h
  refine ⟨rows, hrows, fun r => (hmem r).trans ?_⟩
  simp only [mem_outer, only_iff]
  constructor
  · rintro (⟨n, ha, hb, hf⟩ | ⟨n, hb, ha, hf⟩)
    · exact ⟨n, "", .inl ⟨⟨ha, hb⟩, rfl⟩, hf⟩
    · exact ⟨"", n, .inr ⟨⟨hb, ha⟩, rfl⟩, hf⟩
  · rintro ⟨n, m, ⟨⟨ha, hb⟩, rfl⟩ | ⟨⟨hb, ha⟩, rfl⟩, hf⟩
    · exact .inl ⟨n, ha, hb, hf⟩
    · exact .inr ⟨m, hb, ha, hf⟩

/-- What the two queries tell of the tables: everything but the side of a
record in one table only whose name is empty, since its row is the same in
either column. Every id has a row in one of the two results only. -/
theorem queries_reveal (s s' : Storage) (a b a' b' : Table) (h : s.tables.elems = [a, b])
    (h' : s'.tables.elems = [a', b']) :
    ∃ both one both' one', s.intersection = some both ∧ s.symmetricDifference = some one ∧
      s'.intersection = some both' ∧ s'.symmetricDifference = some one' ∧
      (both = both' ∧ one = one' ↔ Alike "" (names a) (names b) (names a') (names b')) ∧
      ((∀ r ∈ a, r.name ≠ "") → (∀ r ∈ b, r.name ≠ "") → both = both' → one = one' →
        a = a' ∧ b = b') ∧
      ∀ k, k ∈ keys a ∨ k ∈ keys b ↔ Xor (∃ r ∈ both, r.id = k) (∃ r ∈ one, r.id = k) := by
  obtain ⟨both, hboth, hin⟩ := intersection_shows h
  obtain ⟨one, hone, hout⟩ := symmetricDifference_shows h
  obtain ⟨both', hboth', hin'⟩ := intersection_shows h'
  obtain ⟨one', hone', hout'⟩ := symmetricDifference_shows h'
  have hiff : both = both' ∧ one = one' ↔ Alike "" (names a) (names b) (names a') (names b') := by
    rw [hin.eq_iff hin', hout.eq_iff hout', rows_eq_iff]
  refine ⟨both, one, both', one', hboth, hone, hboth', hone', hiff, ?_, fun k => ?_⟩
  · intro ha hb hb' ho'
    obtain ⟨hna, hnb⟩ := (hiff.mp ⟨hb', ho'⟩).eq (names_ne_blank ha) (names_ne_blank hb)
    exact ⟨names_injective hna, names_injective hnb⟩
  · rw [hin.mem_ids, hout.mem_ids, ← mem_exactly_one, ne_eq, ne_eq, names_eq_none, names_eq_none,
      not_not, not_not]

def unnamed : Table := ⟨[⟨0, ""⟩], by decide⟩

theorem names_unnamed {k : Int} {n : String} (h : names unnamed k = some n) : n = "" := by
  have hmem : (⟨k, n⟩ : Record) ∈ unnamed.toList := names_eq_some.mp h
  simp only [unnamed, List.mem_singleton, Record.mk.injEq] at hmem
  exact hmem.2

theorem queries_reveal_sample :
    ∃ both one, (⟨.ofList [unnamed, .empty], []⟩ : Storage).intersection = some both ∧
      (⟨.ofList [unnamed, .empty], []⟩ : Storage).symmetricDifference = some one ∧
      (⟨.ofList [.empty, unnamed], []⟩ : Storage).intersection = some both ∧
      (⟨.ofList [.empty, unnamed], []⟩ : Storage).symmetricDifference = some one := by
  obtain ⟨both, one, both', one', hboth, hone, hboth', hone', hiff, -⟩ := queries_reveal
    ⟨.ofList [unnamed, .empty], []⟩ ⟨.ofList [.empty, unnamed], []⟩ unnamed .empty .empty unnamed
    rfl rfl
  have halike : Alike "" (names unnamed) (names .empty) (names .empty) (names unnamed) :=
    alike_swap fun _ _ => names_unnamed
  obtain ⟨rfl, rfl⟩ := hiff.mpr halike
  exact ⟨both, one, hboth, hone, hboth', hone'⟩

end JoinServer.Revealed
