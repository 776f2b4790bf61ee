import JoinServer.Contents

namespace JoinServer.Changes

open JoinServer.Lib.OrderedSet JoinServer.Lib.FirstWins
open JoinServer.Store JoinServer.Queries JoinServer.Contents

def other (table : String) : String := if table = "A" then "B" else "A"

def columns (table n m : String) : List String := if table = "A" then [n, m] else [m, n]

/-- One row is new in the second result, and its id was not in the first. -/
structure Gains (rows rows' : ResultTable) (r : ResultRecord) : Prop where
  fresh : ∀ x ∈ rows, x.id ≠ r.id
  mem : ∀ x, x ∈ rows' ↔ x ∈ rows ∨ x = r

/-- How a call changes the results of the two queries. -/
def Change (s : Storage) (both one both' one' : ResultTable) : Call → Reply → Prop
  | .insert table id name, .flag true =>
    match contents s (other table) id with
    | none => both' = both ∧ Gains one one' ⟨id, columns table name ""⟩
    | some m => Gains both both' ⟨id, columns table name m⟩ ∧ Gains one' one ⟨id, columns table "" m⟩
  | .truncate table, .flag true => both' = .empty ∧
    ∀ r, r ∈ one' ↔ ∃ m, contents s (other table) r.id = some m ∧ r.fields = columns table "" m
  | _, _ => both' = both ∧ one' = one

variable {s s' : Storage} {table : String} {both one both' one' : ResultTable}

structure Results (s : Storage) (table : String) (both one : ResultTable) : Prop where
  both : ∀ r, r ∈ both ↔ ∃ n m, contents s table r.id = some n ∧
    contents s (other table) r.id = some m ∧ r.fields = columns table n m
  one : ∀ r, r ∈ one ↔
    (∃ n, contents s table r.id = some n ∧ contents s (other table) r.id = none ∧
      r.fields = columns table n "") ∨
    (∃ m, contents s (other table) r.id = some m ∧ contents s table r.id = none ∧
      r.fields = columns table "" m)

theorem results_of_queries (hb : Bound s) (hboth : s.intersection = some both)
    (hone : s.symmetricDifference = some one) (hk : Known table) : Results s table both one := by
  obtain ⟨both₁, hboth₁, -, hmem⟩ := intersection_rows hb.elems
  obtain ⟨one₁, hone₁, -, hmem'⟩ := symmetricDifference_rows hb.elems
  cases hboth.symm.trans hboth₁
  cases hone.symm.trans hone₁
  simp only [← names_eq_some, ← names_eq_none] at hmem hmem'
  obtain rfl | rfl := hk
  · exact ⟨hmem, hmem'⟩
  · refine ⟨fun r => (hmem r).trans ?_, fun r => (hmem' r).trans or_comm⟩
    constructor
    · rintro ⟨n, m, hn, hm, hf⟩
      exact ⟨m, n, hm, hn, hf⟩
    · rintro ⟨m, n, hm, hn, hf⟩
      exact ⟨n, m, hn, hm, hf⟩

theorem other_ne (hk : Known table) : other table ≠ table := by
  obtain rfl | rfl := hk <;> decide

theorem rows_elsewhere (h : Results s table both one) (h' : Results s' table both' one')
    {x : ResultRecord} (htable : contents s' table x.id = contents s table x.id)
    (hother : contents s' (other table) = contents s (other table)) :
    (x ∈ both' ↔ x ∈ both) ∧ (x ∈ one' ↔ x ∈ one) := by
  rw [h'.both, h.both, h'.one, h.one, htable, hother]
  exact ⟨Iff.rfl, Iff.rfl⟩

theorem row_of_free (h : Results s table both one) {x : ResultRecord}
    (hfree : contents s table x.id = none) :
    x ∉ both ∧ (x ∈ one ↔ ∃ m, contents s (other table) x.id = some m ∧
      x.fields = columns table "" m) := by
  rw [h.both, h.one]
  simp [hfree]

theorem row_of_taken (h : Results s table both one) {x : ResultRecord} {n : String}
    (htaken : contents s table x.id = some n) :
    (x ∈ both ↔ ∃ m, contents s (other table) x.id = some m ∧ x.fields = columns table n m) ∧
      (x ∈ one ↔ contents s (other table) x.id = none ∧ x.fields = columns table n "") := by
  rw [h.both, h.one]
  simp [htaken]

theorem gains_of_rows {rows rows' : ResultTable} {id : Int} {fields : List String}
    (hold : ∀ x : ResultRecord, x.id = id → x ∉ rows)
    (hnew : ∀ x : ResultRecord, x.id = id → (x ∈ rows' ↔ x.fields = fields))
    (helse : ∀ x : ResultRecord, x.id ≠ id → (x ∈ rows' ↔ x ∈ rows)) :
    Gains rows rows' ⟨id, fields⟩ := by
  refine ⟨fun x hx he => hold x he hx, fun x => ?_⟩
  by_cases hx : x.id = id
  · rw [hnew x hx, or_iff_right (hold x hx), ResultRecord.ext_iff]
    exact (and_iff_right hx).symm
  · rw [helse x hx, or_iff_left]
    rintro rfl
    exact hx rfl

theorem insert_changes (h : Results s table both one) (h' : Results s' table both' one')
    {id : Int} {name : String} (hfree : contents s table id = none)
    (hput : ∀ k, contents s' table k = if k = id then some name else contents s table k)
    (hother : contents s' (other table) = contents s (other table)) :
    Change s both one both' one' (.insert table id name) (.flag true) := by
  have helse : ∀ x : ResultRecord, x.id ≠ id → (x ∈ both' ↔ x ∈ both) ∧ (x ∈ one' ↔ x ∈ one) :=
    fun x hx => rows_elsewhere h h' (by rw [hput, if_neg hx]) hother
  have hbefore : ∀ x : ResultRecord, x.id = id → x ∉ both ∧
      (x ∈ one ↔ ∃ m, contents s (other table) id = some m ∧ x.fields = columns table "" m) :=
    fun x hx => hx ▸ row_of_free h (hx ▸ hfree)
  have hafter : ∀ x : ResultRecord, x.id = id →
      (x ∈ both' ↔ ∃ m, contents s (other table) id = some m ∧ x.fields = columns table name m) ∧
      (x ∈ one' ↔ contents s (other table) id = none ∧ x.fields = columns table name "") := by
    intro x hx
    rw [← hx, ← hother]
    exact row_of_taken h' (by rw [hput, if_pos hx])
  cases hm : contents s (other table) id with
  | none =>
    simp only [hm, reduceCtorEq, false_and, exists_false, iff_false, true_and] at hbefore hafter
    simp only [Change, hm]
    refine ⟨KeyedSet.ext_mem fun x => ?_, ?_⟩
    · by_cases hx : x.id = id
      · exact iff_of_false (hafter x hx).1 (hbefore x hx).1
      · exact (helse x hx).1
    · exact gains_of_rows (fun x hx => (hbefore x hx).2) (fun x hx => (hafter x hx).2)
        (fun x hx => (helse x hx).2)
  | some m =>
    simp only [hm, Option.some.injEq, exists_eq_left', reduceCtorEq, false_and, iff_false]
      at hbefore hafter
    simp only [Change, hm]
    constructor
    · exact gains_of_rows (fun x hx => (hbefore x hx).1) (fun x hx => (hafter x hx).1)
        (fun x hx => (helse x hx).1)
    · exact gains_of_rows (fun x hx => (hafter x hx).2) (fun x hx => (hbefore x hx).2)
        (fun x hx => (helse x hx).2.symm)

theorem truncate_changes (h' : Results s' table both' one')
    (hclear : ∀ k, contents s' table k = none)
    (hother : contents s' (other table) = contents s (other table)) :
    Change s both one both' one' (.truncate table) (.flag true) := by
  constructor
  · apply KeyedSet.ext_mem
    intro r
    exact iff_of_false (row_of_free h' (hclear r.id)).1 List.not_mem_nil
  · intro r
    rw [(row_of_free h' (hclear r.id)).2, hother]

/-- A call that is rejected and a query leave both results as they are. An
accepted insertion adds a row to the symmetric difference or moves one from it
to the intersection, and a truncation leaves the records of the other table. -/
theorem results_change (s : Storage) (hb : Bound s) (c : Call) :
    ∃ r s' both one both' one', s.call c = some (r, s') ∧ Bound s' ∧
      s.intersection = some both ∧ s.symmetricDifference = some one ∧
      s'.intersection = some both' ∧ s'.symmetricDifference = some one' ∧
      Change s both one both' one' c r := by
  obtain ⟨r, s', hcall, hb', hc, hr⟩ := call_refines hb c
  obtain ⟨both, hboth, -⟩ := intersection_query hb.elems
  obtain ⟨one, hone, -⟩ := symmetricDifference_query hb.elems
  obtain ⟨both', hboth', -⟩ := intersection_query hb'.elems
  obtain ⟨one', hone', -⟩ := symmetricDifference_query hb'.elems
  refine ⟨r, s', both, one, both', one', hcall, hb', hboth, hone, hboth', hone', ?_⟩
  have hsame : s' = s → both' = both ∧ one' = one := by
    rintro rfl
    exact ⟨Option.some.inj (hboth'.symm.trans hboth), Option.some.inj (hone'.symm.trans hone)⟩
  cases c with
  | insert table id name =>
    obtain rfl : r = _ := hr
    cases hflag : accepts Known (contents s) (.put table id name) with
    | false =>
      rw [hflag] at hcall
      exact hsame (Storage.call_rejected hcall)
    | true =>
      obtain ⟨hk, hfree⟩ : Known table ∧ contents s table id = none := by
        simpa [accepts] using hflag
      have h := results_of_queries hb hboth hone hk
      have h' := results_of_queries hb' hboth' hone' hk
      apply insert_changes h h' hfree
      · intro k
        simp [hc, event, apply, hk, put, hfree, Function.update_apply]
      · simp [hc, event, apply, hk, put, other_ne hk]
  | truncate table =>
    obtain rfl : r = _ := hr
    cases hflag : accepts Known (contents s) (.clear table) with
    | false =>
      rw [hflag] at hcall
      exact hsame (Storage.call_rejected hcall)
    | true =>
      have hk : Known table := by simpa [accepts] using hflag
      have h' := results_of_queries hb' hboth' hone' hk
      apply truncate_changes h'
      · intro k
        simp [hc, event, apply, hk, clear]
      · simp [hc, event, apply, hk, clear, other_ne hk]
  | intersection | symmetricDifference =>
    obtain ⟨rows, -, rfl⟩ := hr
    exact hsame (Storage.call_query (by simp) hcall)

theorem results_change_sample :
    ∃ s' both one both' one',
      (boundStorage .empty Queries.sampleB).call (.insert "A" 6 "flour") =
        some (.flag true, s') ∧
      (boundStorage .empty Queries.sampleB).intersection = some both ∧
      (boundStorage .empty Queries.sampleB).symmetricDifference = some one ∧
      s'.intersection = some both' ∧ s'.symmetricDifference = some one' ∧
      Gains both both' ⟨6, ["flour", ""]⟩ ∧ Gains one' one ⟨6, ["", ""]⟩ := by
  obtain ⟨r, s', both, one, both', one', hcall, -, hboth, hone, hboth', hone', hchange⟩ :=
    results_change (boundStorage .empty Queries.sampleB) (boundStorage_bound _ _)
      (.insert "A" 6 "flour")
  obtain ⟨rfl, rfl⟩ := Prod.mk.inj (Option.some.inj hcall)
  exact ⟨_, both, one, both', one', rfl, hboth, hone, hboth', hone', hchange⟩

end JoinServer.Changes
