import Mathlib.Data.List.Basic

namespace JoinServer.Lib.Lines

variable {α : Type*} [DecidableEq α]

/-- The offset just past the first delimiter. -/
def firstLine (d : α) : List α → Option Nat
  | [] => none
  | x :: xs => if x = d then some 1 else (firstLine d xs).map (· + 1)

/-- The lines that end in a delimiter, without it, and what follows the last
delimiter. -/
def split (d : α) : List α → List (List α) × List α
  | [] => ([], [])
  | x :: xs =>
    if x = d then ([] :: (split d xs).1, (split d xs).2)
    else match (split d xs).1 with
      | [] => ([], x :: (split d xs).2)
      | line :: lines => ((x :: line) :: lines, (split d xs).2)

def lines (d : α) (xs : List α) : List (List α) := (split d xs).1

def rest (d : α) (xs : List α) : List α := (split d xs).2

variable {d : α} {line xs ys : List α} {n : Nat}

theorem firstLine_eq_some :
    firstLine d xs = some n ↔
      ∃ line tail, d ∉ line ∧ xs = line ++ d :: tail ∧ n = line.length + 1 := by
  induction xs generalizing n with
  | nil => simp [firstLine]
  | cons x xs ih =>
    by_cases hx : x = d
    · subst hx
      constructor
      · intro h
        obtain rfl : 1 = n := by simpa [firstLine] using h
        exact ⟨[], xs, List.not_mem_nil, rfl, rfl⟩
      · rintro ⟨_ | ⟨y, line⟩, tail, hline, hxs, rfl⟩
        · simp [firstLine]
        · obtain ⟨rfl, -⟩ := List.cons_eq_cons.mp hxs
          simp at hline
    · simp only [firstLine, if_neg hx, Option.map_eq_some_iff, ih]
      constructor
      · rintro ⟨_, ⟨line, tail, hline, rfl, rfl⟩, rfl⟩
        exact ⟨x :: line, tail, by simp [Ne.symm hx, hline], rfl, rfl⟩
      · rintro ⟨_ | ⟨y, line⟩, tail, hline, hxs, rfl⟩
        · exact absurd (List.cons_eq_cons.mp hxs).1 hx
        · obtain ⟨rfl, rfl⟩ := List.cons_eq_cons.mp hxs
          exact ⟨_, ⟨line, tail, fun h => hline (List.mem_cons_of_mem x h), rfl, rfl⟩, rfl⟩

theorem firstLine_append (ys : List α) (h : firstLine d xs = some n) :
    firstLine d (xs ++ ys) = some n := by
  obtain ⟨line, tail, hline, rfl, rfl⟩ := firstLine_eq_some.mp h
  exact firstLine_eq_some.mpr ⟨line, tail ++ ys, hline, by simp, rfl⟩

theorem split_line (hline : d ∉ line) (xs : List α) :
    split d (line ++ d :: xs) = (line :: lines d xs, rest d xs) := by
  induction line with
  | nil => simp [split, lines, rest]
  | cons x line ih =>
    obtain ⟨hx, hline⟩ := not_or.mp (mt List.mem_cons.mpr hline)
    simp [split, Ne.symm hx, ih hline]

theorem split_append (h : rest d xs = []) (ys : List α) :
    lines d (xs ++ ys) = lines d xs ++ lines d ys ∧ rest d (xs ++ ys) = rest d ys := by
  induction xs with
  | nil => exact ⟨rfl, rfl⟩
  | cons x xs ih =>
    by_cases hx : x = d
    · have hrest : rest d xs = [] := by simpa [rest, split, hx] using h
      obtain ⟨hl, hr⟩ := ih hrest
      simp only [lines, rest] at hl hr
      simp [lines, rest, split, hx, hl, hr]
    · cases hlines : (split d xs).1 with
      | nil => simp [rest, split, hx, hlines] at h
      | cons line rem =>
        have hrest : rest d xs = [] := by simpa [rest, split, hx, hlines] using h
        obtain ⟨hl, hr⟩ := ih hrest
        simp only [lines, rest] at hl hr
        simp [lines, rest, split, hx, hl, hr, hlines]

theorem lines_grow (h : rest d xs = []) (ys : List α) : lines d xs <+: lines d (xs ++ ys) :=
  (split_append h ys).1 ▸ List.prefix_append _ _

theorem lines_concat (h : rest d xs = []) (hline : d ∉ line) :
    lines d (xs ++ (line ++ [d])) = lines d xs ++ [line] ∧ rest d (xs ++ (line ++ [d])) = [] := by
  obtain ⟨hl, hr⟩ := split_append h (line ++ [d])
  have hs : split d (line ++ [d]) = ([line], []) := split_line hline []
  rw [hl, hr]
  simp [lines, rest, hs]

end JoinServer.Lib.Lines
