import JoinServer.Trace

namespace JoinServer.Accounting

open JoinServer.Lib.OrderedSet JoinServer.Lib.Merge JoinServer.Lib.Vectors
open JoinServer.Store JoinServer.Queries JoinServer.Contents

def count (t : String) (n : Nat) : Call × Reply → Nat
  | (.insert t' _ _, .flag true) => if t' = t then n + 1 else n
  | (.truncate t', _) => if t' = t then 0 else n
  | _ => n

def accepted (t : String) (answered : List (Call × Reply)) : Nat := answered.foldl (count t) 0

def size (s : Storage) (t : String) : Nat := (tableNamed s t).toList.length

variable {s s' : Storage}

theorem count_insert (t table name : String) (id : Int) (n : Nat) (b : Bool) :
    count t n (.insert table id name, .flag b) = if t = table ∧ b = true then n + 1 else n := by
  cases b <;> simp [count, eq_comm]

theorem size_assign (hb : Bound s) {table : String} {i : Nat} (hi : tableIndex table = some i)
    (u : Table) (t : String) :
    size { s with tables := s.tables.assign ⟨s.tables.buffer, i⟩ u } t =
      if t = table then u.toList.length else size s t := by
  rw [size, tableNamed_assign hb hi]
  split_ifs <;> rfl

theorem insert_counted (hb : Bound s) {table name : String} {id : Int} {b : Bool}
    (h : s.insert table id name = some (b, s')) {t : String} (ht : Known t) :
    size s' t = count t (size s t) (.insert table id name, .flag b) := by
  rw [count_insert]
  cases hi : tableIndex table with
  | none =>
    have hne : t ≠ table := fun he => not_known_of_index hi (he ▸ ht)
    rw [Storage.insert, hb.lookup_unknown hi] at h
    cases h
    rw [if_neg (fun he => hne he.1)]
  | some i =>
    simp only [Storage.insert, hb.lookup hi, hb.deref hi, Option.bind_eq_bind, Option.bind_some,
      Option.some.injEq, Prod.mk.injEq] at h
    obtain ⟨rfl, rfl⟩ := h
    rw [size_assign hb hi, KeyedSet.length_emplace]
    by_cases he : t = table
    · subst he
      cases ((tableNamed s t).emplace ⟨id, name⟩).2 <;> simp [size]
    · simp [he]

theorem truncate_counted (hb : Bound s) {table : String} {b : Bool}
    (h : s.truncate table = some (b, s')) {t : String} (ht : Known t) :
    size s' t = count t (size s t) (.truncate table, .flag b) := by
  cases hi : tableIndex table with
  | none =>
    have hne : table ≠ t := fun he => not_known_of_index hi (he ▸ ht)
    rw [Storage.truncate, hb.lookup_unknown hi] at h
    cases h
    rw [count, if_neg hne]
  | some i =>
    simp only [Storage.truncate, hb.lookup hi, hb.deref hi, Option.bind_eq_bind, Option.bind_some,
      Option.some.injEq, Prod.mk.injEq] at h
    obtain ⟨rfl, rfl⟩ := h
    rw [size_assign hb hi, count]
    by_cases he : t = table
    · rw [if_pos he, if_pos he.symm]
      rfl
    · rw [if_neg he, if_neg (Ne.symm he)]

theorem call_counted (hb : Bound s) {c : Call} {r : Reply} (h : s.call c = some (r, s'))
    {t : String} (ht : Known t) : size s' t = count t (size s t) (c, r) := by
  cases Storage.called_of_call h with
  | insert hi => exact insert_counted hb hi ht
  | truncate hi => exact truncate_counted hb hi ht
  | intersection | symmetricDifference => rfl

theorem calls_counted (hb : Bound s) {cs : List Call} {rs : List Reply}
    (h : s.calls cs = some (rs, s')) {t : String} (ht : Known t) :
    size s' t = (cs.zip rs).foldl (count t) (size s t) := by
  induction cs generalizing s rs with
  | nil =>
    cases h
    rfl
  | cons c cs ih =>
    obtain ⟨⟨r, s₁⟩, h₁, h⟩ := Option.bind_eq_some_iff.mp h
    obtain ⟨⟨rs₁, s₂⟩, h₂, h⟩ := Option.map_eq_some_iff.mp h
    cases h
    obtain ⟨r', s₁', h₁', hb₁, -⟩ := call_refines hb c
    cases h₁.symm.trans h₁'
    rw [ih hb₁ h₂, call_counted hb h₁ ht]
    rfl

theorem query_sizes (hb : Bound s) : ∃ both one, s.intersection = some both ∧
    s.symmetricDifference = some one ∧
      2 * both.toList.length + one.toList.length = size s "A" + size s "B" := by
  obtain ⟨both, hboth, hl⟩ := intersection_query hb.elems
  obtain ⟨one, hone, hl'⟩ := symmetricDifference_query hb.elems
  refine ⟨both, one, hboth, hone, ?_⟩
  rw [hl, hl', List.length_map, List.length_map, ← length_merge]
  simp only [keys, List.length_map, size]

/-- Each table holds as many records as insertions into it were accepted since
it was truncated, and the queries show them all: the intersection two in each
row, the symmetric difference one. -/
theorem rows_accounted (s : Storage) (hb : Bound s) (he : ∀ t ∈ s.tables.elems, t = .empty)
    (cs : List Call) :
    ∃ rs s' both one, s.calls cs = some (rs, s') ∧
      s'.intersection = some both ∧ s'.symmetricDifference = some one ∧
      (∀ t, Known t → size s' t = accepted t (cs.zip rs)) ∧
      2 * both.toList.length + one.toList.length =
        accepted "A" (cs.zip rs) + accepted "B" (cs.zip rs) := by
  have hempty : ∀ t, tableNamed s t = .empty :=
    fun t => names_injective (congrFun (Trace.contents_of_empty he) t)
  obtain ⟨rs, s', hcs, hb', -⟩ := calls_refine hb cs
  obtain ⟨both, one, hboth, hone, hsizes⟩ := query_sizes hb'
  have hcounted : ∀ t, Known t → size s' t = accepted t (cs.zip rs) := by
    intro t ht
    rw [calls_counted hb hcs ht, size, hempty t]
    rfl
  refine ⟨rs, s', both, one, hcs, hboth, hone, hcounted, ?_⟩
  rw [hsizes, hcounted "A" (.inl rfl), hcounted "B" (.inr rfl)]

theorem rows_accounted_sample :
    ∃ s' both one, (boundStorage .empty .empty).calls Trace.sampleCalls =
        some ([.flag true, .flag false, .flag true], s') ∧
      s'.intersection = some both ∧ s'.symmetricDifference = some one ∧
      2 * both.toList.length + one.toList.length = 1 := by
  obtain ⟨rs, s', both, one, hcs, hboth, hone, -, hsum⟩ := rows_accounted
    (boundStorage .empty .empty) (boundStorage_bound .empty .empty)
    (by simp [boundStorage, RefVector.ofList]) Trace.sampleCalls
  obtain ⟨rfl, rfl⟩ := Prod.mk.inj (Option.some.inj hcs)
  exact ⟨_, both, one, rfl, hboth, hone, hsum⟩

end JoinServer.Accounting
