import Mathlib.Logic.Function.Basic
import Mathlib.Data.List.DropRight
import Mathlib.Data.List.Induction

namespace JoinServer.Lib.FirstWins

variable {τ κ ν : Type*} [DecidableEq τ] [DecidableEq κ]

abbrev Contents (τ κ ν : Type*) := τ → κ → Option ν

inductive Event (τ κ ν : Type*)
  | put (t : τ) (k : κ) (n : ν)
  | clear (t : τ)
  | read

namespace Event

def clears (t : τ) : Event τ κ ν → Bool
  | clear t' => t' = t
  | _ => false

def puts (t : τ) (k : κ) : Event τ κ ν → Option ν
  | put t' k' n => if t' = t ∧ k' = k then some n else none
  | _ => none

end Event

def put (c : Contents τ κ ν) (t : τ) (k : κ) (n : ν) : Contents τ κ ν :=
  Function.update c t (Function.update (c t) k (some ((c t k).getD n)))

def clear (c : Contents τ κ ν) (t : τ) : Contents τ κ ν := Function.update c t (fun _ => none)

variable (known : τ → Prop) [DecidablePred known]

def apply (c : Contents τ κ ν) : Event τ κ ν → Contents τ κ ν
  | .put t k n => if known t then put c t k n else c
  | .clear t => if known t then clear c t else c
  | .read => c

def accepts (c : Contents τ κ ν) : Event τ κ ν → Bool
  | .put t k _ => known t && (c t k).isNone
  | .clear t => known t
  | .read => true

def applyAll (c : Contents τ κ ν) (es : List (Event τ κ ν)) : Contents τ κ ν :=
  es.foldl (apply known) c

def sinceClear (t : τ) (es : List (Event τ κ ν)) : List (Event τ κ ν) :=
  es.rtakeWhile (fun e => !e.clears t)

def firstPut (t : τ) (k : κ) (es : List (Event τ κ ν)) : Option ν := es.findSome? (Event.puts t k)

omit [DecidableEq κ] in
theorem sinceClear_concat (t : τ) (es : List (Event τ κ ν)) (e : Event τ κ ν) :
    sinceClear t (es ++ [e]) = if e.clears t then [] else sinceClear t es ++ [e] := by
  unfold sinceClear
  rw [List.rtakeWhile_concat]
  cases e.clears t <;> rfl

theorem firstPut_concat (t : τ) (k : κ) (es : List (Event τ κ ν)) (e : Event τ κ ν) :
    firstPut t k (es ++ [e]) = (firstPut t k es).or (e.puts t k) := by
  simp [firstPut, List.findSome?_append]

theorem apply_at (c : Contents τ κ ν) (e : Event τ κ ν) {t : τ} (ht : known t) (k : κ) :
    apply known c e t k = if e.clears t then none else (c t k).or (e.puts t k) := by
  cases e with
  | put t' k' n =>
    by_cases h : t' = t
    · subst h
      by_cases hk : k' = k
      · subst hk
        cases hc : c t' k' <;> simp [apply, put, Event.clears, Event.puts, ht, hc]
      · simp [apply, put, Event.clears, Event.puts, ht, hk, Function.update_of_ne (Ne.symm hk)]
    · by_cases hk : known t' <;>
        simp [apply, put, Event.clears, Event.puts, hk, h, Function.update_of_ne (Ne.symm h)]
  | clear t' =>
    by_cases h : t' = t
    · subst h
      simp [apply, clear, Event.clears, ht]
    · by_cases hk : known t' <;>
        simp [apply, clear, Event.clears, Event.puts, hk, h, Function.update_of_ne (Ne.symm h)]
  | read => simp [apply, Event.clears, Event.puts]

/-- After any events a known map holds at a key what it held at first, unless
it was cleared, and else the first value put since the last clear. -/
theorem applyAll_at (c : Contents τ κ ν) (es : List (Event τ κ ν)) {t : τ} (ht : known t) (k : κ) :
    applyAll known c es t k =
      (if es.any (Event.clears t) then none else c t k).or (firstPut t k (sinceClear t es)) := by
  induction es using List.reverseRecOn with
  | nil => simp [applyAll, sinceClear, firstPut]
  | append_singleton es e ih =>
    have hstep : applyAll known c (es ++ [e]) = apply known (applyAll known c es) e := by
      simp [applyAll]
    rw [hstep, apply_at known _ e ht, ih, sinceClear_concat, List.any_append]
    cases he : e.clears t with
    | true => simp [he, firstPut]
    | false => simp [he, firstPut_concat, Option.or_assoc]

theorem applyAll_empty (es : List (Event τ κ ν)) {t : τ} (ht : known t) (k : κ) :
    applyAll known (fun _ _ => none) es t k = firstPut t k (sinceClear t es) := by
  rw [applyAll_at known _ es ht]
  simp

theorem apply_unknown (c : Contents τ κ ν) (e : Event τ κ ν) {t : τ} (ht : ¬ known t) :
    apply known c e t = c t := by
  have hne : ∀ t', known t' → t ≠ t' := fun t' hk he => ht (he ▸ hk)
  cases e with
  | put t' k n =>
    by_cases hk : known t'
    · simp [apply, put, hk, hne t' hk]
    · simp [apply, hk]
  | clear t' =>
    by_cases hk : known t'
    · simp [apply, clear, hk, hne t' hk]
    · simp [apply, hk]
  | read => rfl

theorem applyAll_unknown (c : Contents τ κ ν) (es : List (Event τ κ ν)) {t : τ} (ht : ¬ known t) :
    applyAll known c es t = c t := by
  induction es generalizing c with
  | nil => rfl
  | cons e es ih => exact (ih (apply known c e)).trans (apply_unknown known c e ht)

section Puts

def putAll (ps : List (τ × κ × ν)) : List (Event τ κ ν) := ps.map (fun p => .put p.1 p.2.1 p.2.2)

def answers (c : Contents τ κ ν) : List (Event τ κ ν) → List Bool
  | [] => []
  | e :: es => accepts known c e :: answers (apply known c e) es

def wins (t : τ) (k : κ) (ps : List (τ × κ × ν)) (flags : List Bool) : Nat :=
  (ps.zip flags).countP (fun p => p.1.1 = t ∧ p.1.2.1 = k ∧ p.2)

def Agree (ps : List (τ × κ × ν)) : Prop :=
  ∀ t k n n', (t, k, n) ∈ ps → (t, k, n') ∈ ps → n = n'

theorem firstPut_eq_none {ps : List (τ × κ × ν)} {t : τ} {k : κ} :
    firstPut t k (putAll ps) = none ↔ ∀ n, (t, k, n) ∉ ps := by
  rw [firstPut, putAll, List.findSome?_map, List.findSome?_eq_none_iff]
  constructor
  · intro h n hn
    simpa [Event.puts] using h (t, k, n) hn
  · rintro h ⟨t', k', n⟩ hn
    have hne : ¬ (t' = t ∧ k' = k) := by
      rintro ⟨rfl, rfl⟩
      exact h n hn
    simp [Event.puts, hne]

theorem mem_of_firstPut {ps : List (τ × κ × ν)} {t : τ} {k : κ} {n : ν}
    (h : firstPut t k (putAll ps) = some n) : (t, k, n) ∈ ps := by
  rw [firstPut, putAll, List.findSome?_map] at h
  obtain ⟨⟨t', k', n'⟩, hmem, hputs⟩ := List.exists_of_findSome?_eq_some h
  obtain ⟨⟨rfl, rfl⟩, rfl⟩ := by simpa [Event.puts] using hputs
  exact hmem

theorem applyAll_putAll (c : Contents τ κ ν) (ps : List (τ × κ × ν)) {t : τ} (ht : known t)
    (k : κ) : applyAll known c (putAll ps) t k = (c t k).or (firstPut t k (putAll ps)) := by
  have hclears : ∀ e ∈ putAll ps, e.clears t = false := by
    intro e he
    obtain ⟨p, -, rfl⟩ := List.mem_map.mp he
    rfl
  have hany : (putAll ps).any (Event.clears t) = false := by simpa using hclears
  have hsince : sinceClear t (putAll ps) = putAll ps := by
    rw [sinceClear, List.rtakeWhile_eq_self_iff]
    simpa using hclears
  rw [applyAll_at known c _ ht, hany, hsince, if_neg Bool.false_ne_true]

theorem taken_perm (c : Contents τ κ ν) {ps ps' : List (τ × κ × ν)} (hp : ps.Perm ps') (t : τ)
    (k : κ) : applyAll known c (putAll ps) t k = none ↔ applyAll known c (putAll ps') t k = none := by
  by_cases ht : known t
  · rw [applyAll_putAll known c _ ht, applyAll_putAll known c _ ht, Option.or_eq_none_iff,
      Option.or_eq_none_iff, firstPut_eq_none, firstPut_eq_none]
    simp only [hp.mem_iff]
  · rw [applyAll_unknown known c _ ht, applyAll_unknown known c _ ht]

theorem firstPut_perm {ps ps' : List (τ × κ × ν)} (hp : ps.Perm ps') (ha : Agree ps) (t : τ)
    (k : κ) : firstPut t k (putAll ps) = firstPut t k (putAll ps') := by
  cases h : firstPut t k (putAll ps') with
  | none =>
    rw [firstPut_eq_none] at h ⊢
    exact fun n hn => h n (hp.mem_iff.mp hn)
  | some n =>
    have hn : (t, k, n) ∈ ps := hp.mem_iff.mpr (mem_of_firstPut h)
    cases h' : firstPut t k (putAll ps) with
    | none => exact absurd hn (firstPut_eq_none.mp h' n)
    | some n' => rw [ha t k n' n (mem_of_firstPut h') hn]

/-- The order of puts that agree on the values does not matter. -/
theorem applyAll_perm (c : Contents τ κ ν) {ps ps' : List (τ × κ × ν)} (hp : ps.Perm ps')
    (ha : Agree ps) : applyAll known c (putAll ps) = applyAll known c (putAll ps') := by
  funext t k
  by_cases ht : known t
  · rw [applyAll_putAll known c _ ht, applyAll_putAll known c _ ht, firstPut_perm hp ha]
  · rw [applyAll_unknown known c _ ht, applyAll_unknown known c _ ht]

/-- A key is won once when its map is known, it was free and it is put at
all, and else never. -/
theorem wins_answers (c : Contents τ κ ν) (ps : List (τ × κ × ν)) (t : τ) (k : κ) :
    wins t k ps (answers known c (putAll ps)) =
      if known t ∧ c t k = none ∧ (t, k) ∈ ps.map (fun p => (p.1, p.2.1)) then 1 else 0 := by
  induction ps generalizing c with
  | nil => simp [wins]
  | cons p ps ih =>
    obtain ⟨t', k', n⟩ := p
    have hcons : wins t k ((t', k', n) :: ps) (answers known c (putAll ((t', k', n) :: ps))) =
        wins t k ps (answers known (apply known c (.put t' k' n)) (putAll ps)) +
          if t' = t ∧ k' = k ∧ accepts known c (.put t' k' n) then 1 else 0 := by
      simp [wins, putAll, answers, List.countP_cons]
    rw [hcons, ih]
    by_cases ht : known t
    · by_cases hk : t' = t ∧ k' = k
      · -- The key is taken after this put, so no later one wins it.
        obtain ⟨rfl, rfl⟩ := hk
        have htaken : apply known c (.put t' k' n) t' k' ≠ none := by
          rw [apply_at known c _ ht]
          cases c t' k' <;> simp [Event.clears, Event.puts]
        simp [ht, htaken, accepts]
      · have hsame : apply known c (.put t' k' n) t k = c t k := by
          rw [apply_at known c _ ht]
          simp [Event.clears, Event.puts, hk]
        have hne : ¬ (t = t' ∧ k = k') := fun he => hk ⟨he.1.symm, he.2.symm⟩
        have hlost : ¬ (t' = t ∧ k' = k ∧ accepts known c (.put t' k' n) = true) :=
          fun he => hk ⟨he.1, he.2.1⟩
        rw [hsame, if_neg hlost, Nat.add_zero]
        simp only [List.map_cons, List.mem_cons, Prod.mk.injEq, hne, false_or]
    · have hlost : ¬ (t' = t ∧ k' = k ∧ accepts known c (.put t' k' n) = true) := by
        rintro ⟨rfl, -, h⟩
        simp [accepts, ht] at h
      simp [ht, hlost]

end Puts

end JoinServer.Lib.FirstWins
