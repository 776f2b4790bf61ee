import Mathlib.Data.Set.Basic
import Mathlib.Logic.Basic

namespace JoinServer.Lib.OuterJoin

variable {κ ν : Type*}

def inner (f g : κ → Option ν) : Set (κ × ν × ν) :=
  {r | f r.1 = some r.2.1 ∧ g r.1 = some r.2.2}

def Only (f g : κ → Option ν) (k : κ) (n : ν) : Prop := f k = some n ∧ g k = none

/-- The rows of the keys in one map, with a blank in the column of the other
map. -/
def outer (blank : ν) (f g : κ → Option ν) : Set (κ × ν × ν) :=
  {r | (Only f g r.1 r.2.1 ∧ r.2.2 = blank) ∨ (Only g f r.1 r.2.2 ∧ r.2.1 = blank)}

/-- Two pairs of maps that differ at most in the side of keys in one map only
whose value is the blank. -/
structure Alike (blank : ν) (f g f' g' : κ → Option ν) : Prop where
  both : ∀ k n m, (f k = some n ∧ g k = some m) ↔ (f' k = some n ∧ g' k = some m)
  left : ∀ k n, n ≠ blank → (Only f g k n ↔ Only f' g' k n)
  right : ∀ k n, n ≠ blank → (Only g f k n ↔ Only g' f' k n)
  blanks : ∀ k, (Only f g k blank ∨ Only g f k blank) ↔ (Only f' g' k blank ∨ Only g' f' k blank)

variable {blank : ν} {f g f' g' : κ → Option ν}

theorem mem_inner {r : κ × ν × ν} :
    r ∈ inner f g ↔ f r.1 = some r.2.1 ∧ g r.1 = some r.2.2 := Iff.rfl

theorem mem_outer {r : κ × ν × ν} : r ∈ outer blank f g ↔
    (Only f g r.1 r.2.1 ∧ r.2.2 = blank) ∨ (Only g f r.1 r.2.2 ∧ r.2.1 = blank) := Iff.rfl

theorem mem_outer_left {k : κ} {n : ν} (hn : n ≠ blank) :
    (k, n, blank) ∈ outer blank f g ↔ Only f g k n := by
  simp [mem_outer, hn]

theorem mem_outer_right {k : κ} {n : ν} (hn : n ≠ blank) :
    (k, blank, n) ∈ outer blank f g ↔ Only g f k n := by
  simp [mem_outer, hn]

theorem mem_outer_blank {k : κ} :
    (k, blank, blank) ∈ outer blank f g ↔ Only f g k blank ∨ Only g f k blank := by
  simp [mem_outer]

theorem outer_cases {r : κ × ν × ν} (h : r ∈ outer blank f g) :
    (∃ k n, n ≠ blank ∧ r = (k, n, blank)) ∨ (∃ k n, n ≠ blank ∧ r = (k, blank, n)) ∨
      ∃ k, r = (k, blank, blank) := by
  obtain ⟨k, n, m⟩ := r
  obtain ⟨-, rfl⟩ | ⟨-, rfl⟩ := h
  · by_cases hn : n = m
    · exact .inr (.inr ⟨k, by rw [hn]⟩)
    · exact .inl ⟨k, n, hn, rfl⟩
  · by_cases hm : m = n
    · exact .inr (.inr ⟨k, by rw [hm]⟩)
    · exact .inr (.inl ⟨k, m, hm, rfl⟩)

theorem outer_subset (h : Alike blank f g f' g') : outer blank f g ⊆ outer blank f' g' := by
  intro r hr
  obtain ⟨k, n, hn, rfl⟩ | ⟨k, n, hn, rfl⟩ | ⟨k, rfl⟩ := outer_cases hr
  · exact (mem_outer_left hn).mpr ((h.left k n hn).mp ((mem_outer_left hn).mp hr))
  · exact (mem_outer_right hn).mpr ((h.right k n hn).mp ((mem_outer_right hn).mp hr))
  · exact mem_outer_blank.mpr ((h.blanks k).mp (mem_outer_blank.mp hr))

theorem Alike.symm (h : Alike blank f g f' g') : Alike blank f' g' f g :=
  ⟨fun k n m => (h.both k n m).symm, fun k n hn => (h.left k n hn).symm,
    fun k n hn => (h.right k n hn).symm, fun k => (h.blanks k).symm⟩

/-- The inner and the outer rows together tell two pairs of maps apart unless
they differ only in the side of blank values. -/
theorem rows_eq_iff :
    inner f g = inner f' g' ∧ outer blank f g = outer blank f' g' ↔ Alike blank f g f' g' := by
  constructor
  · rintro ⟨hin, hout⟩
    refine ⟨fun k n m => ?_, fun k n hn => ?_, fun k n hn => ?_, fun k => ?_⟩
    · exact Set.ext_iff.mp hin (k, n, m)
    · rw [← mem_outer_left hn, hout, mem_outer_left hn]
    · rw [← mem_outer_right hn, hout, mem_outer_right hn]
    · rw [← mem_outer_blank, hout, mem_outer_blank]
  · intro h
    constructor
    · exact Set.ext fun ⟨k, n, m⟩ => h.both k n m
    · exact Set.Subset.antisymm (outer_subset h) (outer_subset h.symm)

theorem alike_swap (hf : ∀ k n, f k = some n → n = blank) :
    Alike blank f (fun _ => none) (fun _ => none) f := by
  have hno : ∀ k n, n ≠ blank → f k ≠ some n := fun k n hn hk => hn (hf k n hk)
  refine ⟨by simp, fun k n hn => ?_, fun k n hn => ?_, fun k => or_comm⟩
  · simp [Only, hno k n hn]
  · simp [Only, hno k n hn]

theorem exists_inner {k : κ} : (∃ p, (k, p) ∈ inner f g) ↔ f k ≠ none ∧ g k ≠ none := by
  cases hf : f k <;> cases hg : g k <;> simp [mem_inner, hf, hg]

theorem exists_outer {k : κ} :
    (∃ p, (k, p) ∈ outer blank f g) ↔ (f k ≠ none ∧ g k = none) ∨ (g k ≠ none ∧ f k = none) := by
  cases hf : f k <;> cases hg : g k <;> simp [mem_outer, Only, hf, hg]

/-- A key of the maps is in exactly one of the two sets of rows, and no other
key is. -/
theorem mem_exactly_one (blank : ν) (f g : κ → Option ν) (k : κ) :
    f k ≠ none ∨ g k ≠ none ↔ Xor (∃ p, (k, p) ∈ inner f g) (∃ p, (k, p) ∈ outer blank f g) := by
  rw [exists_inner, exists_outer]
  by_cases hf : f k = none <;> by_cases hg : g k = none <;> simp [hf, hg, Xor]

theorem Alike.absent (h : Alike blank f g f' g') {k : κ} (hf : f k = none) (hg : g k = none) :
    f' k = none ∧ g' k = none := by
  obtain ⟨hin, hout⟩ := rows_eq_iff.mpr h
  have hrows := mem_exactly_one blank f g k
  rw [hin, hout, ← mem_exactly_one blank f' g' k] at hrows
  simpa [hf, hg] using hrows

theorem Alike.eq (h : Alike blank f g f' g') (hf : ∀ k, f k ≠ some blank)
    (hg : ∀ k, g k ≠ some blank) : f = f' ∧ g = g' := by
  have hpair : ∀ k, f k = f' k ∧ g k = g' k := by
    intro k
    cases hfk : f k with
    | some n =>
      cases hgk : g k with
      | some m =>
        obtain ⟨hf', hg'⟩ := (h.both k n m).mp ⟨hfk, hgk⟩
        exact ⟨hf'.symm, hg'.symm⟩
      | none =>
        have hn : n ≠ blank := fun he => hf k (he ▸ hfk)
        obtain ⟨hf', hg'⟩ := (h.left k n hn).mp ⟨hfk, hgk⟩
        exact ⟨hf'.symm, hg'.symm⟩
    | none =>
      cases hgk : g k with
      | some m =>
        have hm : m ≠ blank := fun he => hg k (he ▸ hgk)
        obtain ⟨hg', hf'⟩ := (h.right k m hm).mp ⟨hgk, hfk⟩
        exact ⟨hf'.symm, hg'.symm⟩
      | none =>
        obtain ⟨hf', hg'⟩ := h.absent hfk hgk
        exact ⟨hf'.symm, hg'.symm⟩
  constructor
  · funext k
    exact (hpair k).1
  · funext k
    exact (hpair k).2

end JoinServer.Lib.OuterJoin
