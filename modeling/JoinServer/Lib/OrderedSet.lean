import Mathlib.Order.Defs.LinearOrder
import Mathlib.Order.Lattice
import Mathlib.Data.List.Pairwise
import Mathlib.Tactic.TypeStar

namespace JoinServer.Lib.OrderedSet

variable {α κ : Type*} [LinearOrder κ]

/-- A set ordered by a key: its elements in iteration order, strictly
increasing in the key, so that no two of them are equivalent. -/
@[ext]
structure KeyedSet (α : Type*) {κ : Type*} [LinearOrder κ] (key : α → κ) where
  toList : List α
  sorted : toList.Pairwise (fun x y => key x < key y)

variable {key : α → κ}

/-- Put `x` at its place in a sorted list. An element with the same key is
kept instead, and the flag then is `false`. -/
def place (key : α → κ) (x : α) : List α → List α × Bool
  | [] => ([x], true)
  | y :: ys =>
    if key x < key y then (x :: y :: ys, true)
    else if key y < key x then (y :: (place key x ys).1, (place key x ys).2)
    else (y :: ys, false)

theorem mem_of_mem_place {x z : α} {l : List α} (h : z ∈ (place key x l).1) :
    z = x ∨ z ∈ l := by
  induction l with
  | nil => exact .inl (by simpa [place] using h)
  | cons y ys ih =>
    simp only [place] at h
    split_ifs at h with hxy hyx
    · simpa using h
    · obtain rfl | h := List.mem_cons.mp h
      · exact .inr List.mem_cons_self
      · exact (ih h).imp_right (List.mem_cons_of_mem y)
    · exact .inr h

theorem place_sorted {x : α} {l : List α} (h : l.Pairwise (fun x y => key x < key y)) :
    (place key x l).1.Pairwise (fun x y => key x < key y) := by
  induction l with
  | nil => simp [place]
  | cons y ys ih =>
    obtain ⟨hy, hys⟩ := List.pairwise_cons.mp h
    simp only [place]
    split_ifs with hxy hyx
    · refine List.pairwise_cons.mpr ⟨fun z hz => ?_, h⟩
      obtain rfl | hz := List.mem_cons.mp hz
      · exact hxy
      · exact lt_trans hxy (hy z hz)
    · refine List.pairwise_cons.mpr ⟨fun z hz => ?_, ih hys⟩
      obtain rfl | hz := mem_of_mem_place hz
      · exact hyx
      · exact hy z hz
    · exact h

theorem place_taken {x y : α} {l : List α} (h : l.Pairwise (fun x y => key x < key y))
    (hy : y ∈ l) (hk : key y = key x) : place key x l = (l, false) := by
  induction l with
  | nil => simp at hy
  | cons z zs ih =>
    obtain ⟨hz, hzs⟩ := List.pairwise_cons.mp h
    simp only [place]
    obtain rfl | hy := List.mem_cons.mp hy
    · rw [if_neg (by simp [hk]), if_neg (by simp [hk])]
    · have hlt : key z < key x := hk ▸ hz y hy
      rw [if_neg hlt.asymm, if_pos hlt, ih hzs hy]

theorem place_free {x : α} {l : List α} (h : ∀ y ∈ l, key y ≠ key x) :
    (place key x l).2 = true ∧ ∀ z, z ∈ (place key x l).1 ↔ z = x ∨ z ∈ l := by
  induction l with
  | nil => simp [place]
  | cons y ys ih =>
    obtain ⟨hflag, hmem⟩ := ih (fun z hz => h z (List.mem_cons_of_mem y hz))
    have hne : key y ≠ key x := h y List.mem_cons_self
    simp only [place]
    split_ifs with hxy hyx
    · simp
    · refine ⟨hflag, fun z => ?_⟩
      rw [List.mem_cons, hmem, List.mem_cons]
      exact or_left_comm
    · exact absurd (le_antisymm (not_lt.mp hxy) (not_lt.mp hyx)) hne

theorem place_last {x : α} {l : List α} (h : ∀ y ∈ l, key y < key x) :
    place key x l = (l ++ [x], true) := by
  induction l with
  | nil => rfl
  | cons y ys ih =>
    have hyx : key y < key x := h y List.mem_cons_self
    rw [place, if_neg hyx.asymm, if_pos hyx, ih (fun z hz => h z (List.mem_cons_of_mem y hz))]
    rfl

theorem length_place (x : α) (l : List α) :
    (place key x l).1.length = l.length + if (place key x l).2 then 1 else 0 := by
  induction l with
  | nil => rfl
  | cons y ys ih =>
    by_cases hxy : key x < key y
    · rw [place, if_pos hxy]
      rfl
    · by_cases hyx : key y < key x
      · rw [place, if_neg hxy, if_pos hyx, List.length_cons, ih, List.length_cons]
        exact Nat.add_right_comm _ _ 1
      · rw [place, if_neg hxy, if_neg hyx]
        rfl

namespace KeyedSet

def empty : KeyedSet α key := ⟨[], List.Pairwise.nil⟩

instance : Membership α (KeyedSet α key) := ⟨fun s x => x ∈ s.toList⟩

theorem mem_toList {s : KeyedSet α key} {x : α} : x ∈ s.toList ↔ x ∈ s := Iff.rfl

def emplace (s : KeyedSet α key) (x : α) : KeyedSet α key × Bool :=
  (⟨(place key x s.toList).1, place_sorted s.sorted⟩, (place key x s.toList).2)

def find? (s : KeyedSet α key) (k : κ) : Option α :=
  s.toList.find? (fun x => key x = k)

theorem eq_of_key_eq {s : KeyedSet α key} {x y : α} (hx : x ∈ s) (hy : y ∈ s)
    (h : key x = key y) : x = y := by
  by_contra hne
  have hp : s.toList.Pairwise (fun x y => key x ≠ key y) := s.sorted.imp ne_of_lt
  have hsymm : Std.Symm (fun x y : α => key x ≠ key y) := ⟨fun _ _ => Ne.symm⟩
  exact hp.forall hx hy hne h

theorem find?_eq_some {s : KeyedSet α key} {k : κ} {x : α} :
    s.find? k = some x ↔ x ∈ s ∧ key x = k := by
  constructor
  · intro h
    exact ⟨List.mem_of_find?_eq_some h, by simpa using List.find?_some h⟩
  · rintro ⟨hx, rfl⟩
    cases hf : s.find? (key x) with
    | none => simpa using List.find?_eq_none.mp hf x hx
    | some y =>
      have hy : key y = key x := by simpa using List.find?_some hf
      rw [eq_of_key_eq (List.mem_of_find?_eq_some hf) hx hy]

theorem find?_eq_none {s : KeyedSet α key} {k : κ} :
    s.find? k = none ↔ ∀ x ∈ s, key x ≠ k := by
  simp [find?, List.find?_eq_none, mem_toList]

theorem key_of_find? {s : KeyedSet α key} {k : κ} {x : α} (h : s.find? k = some x) :
    key x = k := (find?_eq_some.mp h).2

@[simp] theorem find?_empty (k : κ) : (empty : KeyedSet α key).find? k = none := rfl

theorem filter_key (s : KeyedSet α key) (k : κ) :
    s.toList.filter (fun x => key x = k) = (s.find? k).toList := by
  unfold find?
  obtain ⟨l, hl⟩ := s
  induction l with
  | nil => rfl
  | cons y ys ih =>
    by_cases hy : key y = k
    · have hys : ys.filter (fun x => key x = k) = [] := by
        apply List.filter_eq_nil_iff.mpr
        intro x hx
        have hlt : key y < key x := List.rel_of_pairwise_cons hl hx
        simpa using fun he => lt_irrefl _ (hy.trans he.symm ▸ hlt)
      simp [hy, hys]
    · simpa [hy] using ih hl.of_cons

theorem ext_mem {s t : KeyedSet α key} (h : ∀ x, x ∈ s ↔ x ∈ t) : s = t := by
  have hnodup : ∀ u : KeyedSet α key, u.toList.Nodup :=
    fun u => u.sorted.imp (fun hlt heq => absurd (heq ▸ hlt) (lt_irrefl _))
  have hperm := (List.perm_ext_iff_of_nodup (hnodup s) (hnodup t)).mpr h
  exact KeyedSet.ext (hperm.eq_of_pairwise
    (fun _ _ _ _ hab hba => absurd hba hab.asymm) s.sorted t.sorted)

theorem ext_find? {s t : KeyedSet α key} (h : ∀ k, s.find? k = t.find? k) : s = t := by
  apply ext_mem
  intro x
  have hs := find?_eq_some (s := s) (k := key x) (x := x)
  have ht := find?_eq_some (s := t) (k := key x) (x := x)
  rw [h] at hs
  simpa using hs.symm.trans ht

theorem emplace_taken {s : KeyedSet α key} {x y : α} (h : s.find? (key x) = some y) :
    s.emplace x = (s, false) := by
  obtain ⟨hy, hk⟩ := find?_eq_some.mp h
  have hp := place_taken s.sorted (mem_toList.mpr hy) hk
  simp only [emplace, hp]

theorem emplace_free {s : KeyedSet α key} {x : α} (h : s.find? (key x) = none) :
    (s.emplace x).2 = true ∧ ∀ z, z ∈ (s.emplace x).1 ↔ z = x ∨ z ∈ s :=
  place_free (find?_eq_none.mp h)

theorem emplace_snd (s : KeyedSet α key) (x : α) :
    (s.emplace x).2 = (s.find? (key x)).isNone := by
  cases h : s.find? (key x) with
  | none => exact (emplace_free h).1
  | some y => rw [emplace_taken h]; rfl

/-- Afterwards the key finds what it found before or, when it found nothing,
the new element; the other keys are not affected. -/
theorem find?_emplace (s : KeyedSet α key) (x : α) (k : κ) :
    (s.emplace x).1.find? k = if k = key x then some ((s.find? k).getD x) else s.find? k := by
  split_ifs with hk
  · subst hk
    cases h : s.find? (key x) with
    | none => exact find?_eq_some.mpr ⟨((emplace_free h).2 x).mpr (.inl rfl), rfl⟩
    | some y => rw [emplace_taken h]; exact h
  · cases h : s.find? (key x) with
    | none =>
      apply Option.ext
      intro z
      rw [find?_eq_some, find?_eq_some, (emplace_free h).2]
      constructor
      · rintro ⟨rfl | hz, rfl⟩
        · exact absurd rfl hk
        · exact ⟨hz, rfl⟩
      · rintro ⟨hz, rfl⟩
        exact ⟨.inr hz, rfl⟩
    | some y => rw [emplace_taken h]

theorem length_emplace (s : KeyedSet α key) (x : α) : (s.emplace x).1.toList.length =
    s.toList.length + if (s.emplace x).2 then 1 else 0 :=
  length_place x s.toList

theorem emplace_last {s : KeyedSet α key} {x : α} (h : ∀ y ∈ s, key y < key x) :
    (s.emplace x).1.toList = s.toList ++ [x] ∧ (s.emplace x).2 = true := by
  have hp := place_last (fun y hy => h y (mem_toList.mp hy))
  simp only [emplace, hp, and_self]

end KeyedSet

end JoinServer.Lib.OrderedSet
