import Mathlib.Order.Defs.LinearOrder
import Mathlib.Order.Lattice
import Mathlib.Data.List.Pairwise
import Mathlib.Tactic.TypeStar

namespace JoinServer.Lib.Merge

variable {κ : Type*} [LinearOrder κ]

/-- The keys of both ranges, by one pass over two sorted ranges that drops
the smaller head and keeps a head the ranges share. -/
def setIntersection : List κ → List κ → List κ
  | [], _ => []
  | _ :: _, [] => []
  | a :: as, b :: bs =>
    if a < b then setIntersection as (b :: bs)
    else if b < a then setIntersection (a :: as) bs
    else a :: setIntersection as bs
termination_by as bs => as.length + bs.length

/-- The keys of exactly one range, by one pass over two sorted ranges that
keeps the smaller head and drops a head the ranges share. A range that is
left over is copied. -/
def setSymmetricDifference : List κ → List κ → List κ
  | [], bs => bs
  | a :: as, [] => a :: as
  | a :: as, b :: bs =>
    if a < b then a :: setSymmetricDifference as (b :: bs)
    else if b < a then b :: setSymmetricDifference (a :: as) bs
    else setSymmetricDifference as bs
termination_by as bs => as.length + bs.length

theorem lt_of_mem_cons {a b k : κ} {bs : List κ} (h : (b :: bs).Pairwise (· < ·)) (hab : a < b)
    (hk : k ∈ b :: bs) : a < k := by
  obtain rfl | hk := List.mem_cons.mp hk
  · exact hab
  · exact lt_trans hab (List.rel_of_pairwise_cons h hk)

theorem not_mem_of_lt {a b : κ} {bs : List κ} (h : (b :: bs).Pairwise (· < ·)) (hab : a < b) :
    a ∉ b :: bs :=
  fun ha => lt_irrefl a (lt_of_mem_cons h hab ha)

theorem mem_setIntersection {as bs : List κ} (ha : as.Pairwise (· < ·))
    (hb : bs.Pairwise (· < ·)) (k : κ) : k ∈ setIntersection as bs ↔ k ∈ as ∧ k ∈ bs := by
  induction as, bs using setIntersection.induct with
  | case1 bs => simp [setIntersection]
  | case2 a as => simp [setIntersection]
  | case3 a as b bs hab ih =>
    rw [setIntersection, if_pos hab, ih ha.of_cons hb]
    have hn : a ∉ b :: bs := not_mem_of_lt hb hab
    constructor
    · exact fun ⟨h, h'⟩ => ⟨List.mem_cons_of_mem a h, h'⟩
    · rintro ⟨h, h'⟩
      obtain rfl | h := List.mem_cons.mp h
      · exact absurd h' hn
      · exact ⟨h, h'⟩
  | case4 a as b bs hab hba ih =>
    rw [setIntersection, if_neg hab, if_pos hba, ih ha hb.of_cons]
    have hn : b ∉ a :: as := not_mem_of_lt ha hba
    constructor
    · exact fun ⟨h, h'⟩ => ⟨h, List.mem_cons_of_mem b h'⟩
    · rintro ⟨h, h'⟩
      obtain rfl | h' := List.mem_cons.mp h'
      · exact absurd h hn
      · exact ⟨h, h'⟩
  | case5 a as b bs hab hba ih =>
    obtain rfl : a = b := le_antisymm (not_lt.mp hba) (not_lt.mp hab)
    rw [setIntersection, if_neg hab, if_neg hba, List.mem_cons, ih ha.of_cons hb.of_cons,
      List.mem_cons, List.mem_cons]
    exact or_and_left

theorem setIntersection_sublist (as bs : List κ) : (setIntersection as bs).Sublist as := by
  induction as, bs using setIntersection.induct with
  | case1 bs => simp [setIntersection]
  | case2 a as => simp [setIntersection]
  | case3 a as b bs hab ih =>
    rw [setIntersection, if_pos hab]
    exact ih.cons a
  | case4 a as b bs hab hba ih =>
    rw [setIntersection, if_neg hab, if_pos hba]
    exact ih
  | case5 a as b bs hab hba ih =>
    rw [setIntersection, if_neg hab, if_neg hba]
    exact ih.cons_cons a

theorem setIntersection_sorted {as bs : List κ} (ha : as.Pairwise (· < ·)) :
    (setIntersection as bs).Pairwise (· < ·) :=
  ha.sublist (setIntersection_sublist as bs)

theorem mem_of_mem_setSymmetricDifference {as bs : List κ} {k : κ}
    (h : k ∈ setSymmetricDifference as bs) : k ∈ as ∨ k ∈ bs := by
  induction as, bs using setSymmetricDifference.induct with
  | case1 bs => exact .inr (by simpa [setSymmetricDifference] using h)
  | case2 a as => exact .inl (by simpa [setSymmetricDifference] using h)
  | case3 a as b bs hab ih =>
    rw [setSymmetricDifference, if_pos hab] at h
    obtain rfl | h := List.mem_cons.mp h
    · exact .inl List.mem_cons_self
    · exact (ih h).imp_left (List.mem_cons_of_mem a)
  | case4 a as b bs hab hba ih =>
    rw [setSymmetricDifference, if_neg hab, if_pos hba] at h
    obtain rfl | h := List.mem_cons.mp h
    · exact .inr List.mem_cons_self
    · exact (ih h).imp_right (List.mem_cons_of_mem b)
  | case5 a as b bs hab hba ih =>
    rw [setSymmetricDifference, if_neg hab, if_neg hba] at h
    exact (ih h).imp (List.mem_cons_of_mem a) (List.mem_cons_of_mem b)

theorem mem_setSymmetricDifference {as bs : List κ} (ha : as.Pairwise (· < ·))
    (hb : bs.Pairwise (· < ·)) (k : κ) :
    k ∈ setSymmetricDifference as bs ↔ (k ∈ as ∧ k ∉ bs) ∨ (k ∈ bs ∧ k ∉ as) := by
  induction as, bs using setSymmetricDifference.induct with
  | case1 bs => simp [setSymmetricDifference]
  | case2 a as => simp [setSymmetricDifference]
  | case3 a as b bs hab ih =>
    rw [setSymmetricDifference, if_pos hab, List.mem_cons, ih ha.of_cons hb]
    have hn : a ∉ b :: bs := not_mem_of_lt hb hab
    by_cases hk : k = a
    · subst hk
      simp [hn]
    · rw [List.mem_cons (l := as), or_iff_right hk, or_iff_right hk]
  | case4 a as b bs hab hba ih =>
    rw [setSymmetricDifference, if_neg hab, if_pos hba, List.mem_cons, ih ha hb.of_cons]
    have hn : b ∉ a :: as := not_mem_of_lt ha hba
    by_cases hk : k = b
    · subst hk
      simp [hn]
    · rw [List.mem_cons (l := bs), or_iff_right hk, or_iff_right hk]
  | case5 a as b bs hab hba ih =>
    obtain rfl : a = b := le_antisymm (not_lt.mp hba) (not_lt.mp hab)
    rw [setSymmetricDifference, if_neg hab, if_neg hba, ih ha.of_cons hb.of_cons]
    by_cases hk : k = a
    · subst hk
      have hna : k ∉ as := fun h => lt_irrefl k (List.rel_of_pairwise_cons ha h)
      have hnb : k ∉ bs := fun h => lt_irrefl k (List.rel_of_pairwise_cons hb h)
      simp [hna, hnb]
    · rw [List.mem_cons (l := as), List.mem_cons (l := bs), or_iff_right hk, or_iff_right hk]

theorem setSymmetricDifference_sorted {as bs : List κ} (ha : as.Pairwise (· < ·))
    (hb : bs.Pairwise (· < ·)) : (setSymmetricDifference as bs).Pairwise (· < ·) := by
  induction as, bs using setSymmetricDifference.induct with
  | case1 bs => simpa [setSymmetricDifference] using hb
  | case2 a as => simpa [setSymmetricDifference] using ha
  | case3 a as b bs hab ih =>
    rw [setSymmetricDifference, if_pos hab]
    refine List.pairwise_cons.mpr ⟨fun k hk => ?_, ih ha.of_cons hb⟩
    obtain hk | hk := mem_of_mem_setSymmetricDifference hk
    · exact List.rel_of_pairwise_cons ha hk
    · exact lt_of_mem_cons hb hab hk
  | case4 a as b bs hab hba ih =>
    rw [setSymmetricDifference, if_neg hab, if_pos hba]
    refine List.pairwise_cons.mpr ⟨fun k hk => ?_, ih ha hb.of_cons⟩
    obtain hk | hk := mem_of_mem_setSymmetricDifference hk
    · exact lt_of_mem_cons ha hba hk
    · exact List.rel_of_pairwise_cons hb hk
  | case5 a as b bs hab hba ih =>
    rw [setSymmetricDifference, if_neg hab, if_neg hba]
    exact ih ha.of_cons hb.of_cons

theorem length_merge (as bs : List κ) : as.length + bs.length =
    2 * (setIntersection as bs).length + (setSymmetricDifference as bs).length := by
  induction as, bs using setIntersection.induct with
  | case1 bs => simp [setIntersection, setSymmetricDifference]
  | case2 a as => simp [setIntersection, setSymmetricDifference]
  | case3 a as b bs hab ih =>
    rw [setIntersection, setSymmetricDifference, if_pos hab, if_pos hab]
    simp only [List.length_cons] at ih ⊢
    omega
  | case4 a as b bs hab hba ih =>
    rw [setIntersection, setSymmetricDifference, if_neg hab, if_neg hab, if_pos hba, if_pos hba]
    simp only [List.length_cons] at ih ⊢
    omega
  | case5 a as b bs hab hba ih =>
    rw [setIntersection, setSymmetricDifference, if_neg hab, if_neg hab, if_neg hba, if_neg hba]
    simp only [List.length_cons]
    omega

end JoinServer.Lib.Merge
