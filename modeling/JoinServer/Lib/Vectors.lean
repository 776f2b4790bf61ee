import Mathlib.Tactic.TypeStar
import Mathlib.Order.Basic

namespace JoinServer.Lib.Vectors

variable {α : Type*}

/-- How the capacity of a vector grows when an element is appended to a full
one. The first growth makes room for one element. -/
structure Growth where
  next : Nat → Nat
  next_zero : next 0 = 1
  lt_next : ∀ c, c < next c

def doubling : Growth where
  next c := max 1 (2 * c)
  next_zero := rfl
  lt_next c := by omega

/-- A reference to an element, by the allocation that held the element when
the reference was taken and the place in it. -/
structure Ref where
  buffer : Nat
  index : Nat
  deriving DecidableEq

/-- A growable vector. Its buffer is known by a number; every reallocation
takes a number that was never used before. -/
@[ext]
structure RefVector (α : Type*) where
  buffer : Nat
  elems : List α
  capacity : Nat
  fits : elems.length ≤ capacity

namespace RefVector

def empty : RefVector α := ⟨0, [], 0, Nat.le_refl 0⟩

def ofList (xs : List α) : RefVector α := ⟨0, xs, xs.length, Nat.le_refl xs.length⟩

/-- Append an element. A full vector first moves its elements to a larger
buffer and releases the old one. -/
def emplaceBack (g : Growth) (v : RefVector α) (x : α) : RefVector α :=
  if h : v.elems.length < v.capacity then
    ⟨v.buffer, v.elems ++ [x], v.capacity, by simpa using Nat.succ_le_of_lt h⟩
  else
    ⟨v.buffer + 1, v.elems ++ [x], g.next v.capacity, by
      have hc := g.lt_next v.capacity
      have hf := v.fits
      simp only [List.length_append, List.length_cons, List.length_nil]
      omega⟩

def back (v : RefVector α) : Ref := ⟨v.buffer, v.elems.length - 1⟩

/-- Read through a reference. There is no value when the buffer it points
into has been released. -/
def deref (v : RefVector α) (r : Ref) : Option α :=
  if r.buffer = v.buffer then v.elems[r.index]? else none

def assign (v : RefVector α) (r : Ref) (x : α) : RefVector α :=
  ⟨v.buffer, v.elems.set r.index x, v.capacity, by simpa using v.fits⟩

def Designates (v : RefVector α) (r : Ref) (i : Nat) : Prop :=
  r.buffer = v.buffer ∧ r.index = i ∧ i < v.elems.length

@[simp] theorem assign_buffer (v : RefVector α) (r : Ref) (x : α) :
    (v.assign r x).buffer = v.buffer := rfl

@[simp] theorem assign_elems (v : RefVector α) (r : Ref) (x : α) :
    (v.assign r x).elems = v.elems.set r.index x := rfl

theorem assign_self {v : RefVector α} {r : Ref} {x : α} (h : v.elems[r.index]? = some x) :
    v.assign r x = v := by
  obtain ⟨hlt, rfl⟩ := List.getElem?_eq_some_iff.mp h
  apply RefVector.ext
  · rfl
  · exact List.set_getElem_self hlt
  · rfl

theorem emplaceBack_elems (g : Growth) (v : RefVector α) (x : α) :
    (v.emplaceBack g x).elems = v.elems ++ [x] := by
  unfold emplaceBack
  split <;> rfl

theorem le_emplaceBack_buffer (g : Growth) (v : RefVector α) (x : α) :
    v.buffer ≤ (v.emplaceBack g x).buffer := by
  unfold emplaceBack
  split
  · exact Nat.le_refl _
  · exact Nat.le_succ _

theorem emplaceBack_buffer_of_full (g : Growth) {v : RefVector α} (x : α)
    (h : v.elems.length = v.capacity) : (v.emplaceBack g x).buffer = v.buffer + 1 := by
  simp [emplaceBack, h]

theorem designates_back (g : Growth) (v : RefVector α) (x : α) :
    (v.emplaceBack g x).Designates (v.emplaceBack g x).back v.elems.length := by
  simp [Designates, back, emplaceBack_elems]

theorem deref_eq_some {v : RefVector α} {r : Ref} {x : α} (h : v.deref r = some x) :
    v.Designates r r.index ∧ v.elems[r.index]? = some x := by
  unfold deref at h
  split_ifs at h with hb
  obtain ⟨hlt, -⟩ := List.getElem?_eq_some_iff.mp h
  exact ⟨⟨hb, rfl, hlt⟩, h⟩

end RefVector

end JoinServer.Lib.Vectors
