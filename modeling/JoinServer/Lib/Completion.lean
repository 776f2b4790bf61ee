import JoinServer.Lib.Locks
import Mathlib.Algebra.Order.BigOperators.Group.Finset
import Mathlib.Order.WellFounded

namespace JoinServer.Lib.Completion

open JoinServer.Lib.Locks

variable {ι C L S R : Type*} [DecidableEq ι] {m : Monitor C L S R}
  {atomic : S → C → Option (R × S)} {I : S → Prop} {s₀ : S} {programs : ι → List C}
  {cfg : Config ι C L S R}

theorem length_returnsOf (i : ι) {order : List (ι × C)} {rs : List R}
    (h : order.length = rs.length) :
    (returnsOf i order rs).length = (callsOf i order).length := by
  have hzip : (order.zip rs).map Prod.fst = order := List.map_fst_zip (Nat.le_of_eq h)
  calc (returnsOf i order rs).length
      = (order.zip rs).countP (fun p => p.1.1 = i) := by
        rw [returnsOf, List.length_map, ← List.countP_eq_length_filter]
    _ = ((order.zip rs).map Prod.fst).countP (fun p => p.1 = i) := by
        rw [List.countP_map]
        rfl
    _ = (callsOf i order).length := by
        rw [hzip, callsOf, List.length_map, List.countP_eq_length_filter]

theorem only_inside {i j : ι} {c c' : C} {l l' : L} (hi : cfg.inside i = some (c, l))
    (hothers : ∀ j, j ≠ i → m.Outside (cfg.inside j)) (hj : cfg.inside j = some (c', l'))
    (hl : (m.code l').takesLock = false) : i = j ∧ c = c' ∧ l = l' := by
  by_cases hji : j = i
  · subst hji
    cases hi.symm.trans hj
    exact ⟨rfl, rfl, rfl⟩
  · rw [hothers j hji c' l' hj, m.code_enter, Statement.takesLock] at hl
    cases hl

theorem complete_of_stuck (himpl : Implements m atomic I) (hs : I s₀)
    (hrun : Relation.ReflTransGen (Step m) (start s₀ programs) cfg)
    (hstuck : ∀ cfg', ¬ Step m cfg cfg') (i : ι) : cfg.todo i = [] ∧ cfg.inside i = none := by
  by_contra hleft
  obtain ⟨cfg', hstep⟩ := run_can_continue himpl hs hrun ⟨i, not_and_or.mp hleft⟩
  exact hstuck cfg' hstep

section Ends

variable [Fintype ι]

/-- The steps a thread has still to take until it has the lock for each of its
calls. -/
def toBegin (m : Monitor C L S R) (todo : List C) (inside : Option (C × L)) : Nat :=
  2 * todo.length + (m.pending inside).length

def unbegun (m : Monitor C L S R) (todo : ι → List C) (inside : ι → Option (C × L)) : Nat :=
  ∑ i, toBegin m (todo i) (inside i)

def Ends (m : Monitor C L S R) (cfg : Config ι C L S R) : Prop :=
  Acc (fun next now => Step m now next) cfg

theorem unbegun_lt {todo : ι → List C} {inside : ι → Option (C × L)} {i : ι} {cs : List C}
    {x : Option (C × L)} (h : toBegin m cs x < toBegin m (todo i) (inside i)) :
    unbegun m (Function.update todo i cs) (Function.update inside i x) < unbegun m todo inside := by
  apply Finset.sum_lt_sum
  · intro j _
    by_cases hj : j = i
    · subst hj
      simpa using Nat.le_of_lt h
    · rw [Function.update_of_ne hj, Function.update_of_ne hj]
  · exact ⟨i, Finset.mem_univ i, by simpa using h⟩

theorem unbegun_call {i : ι} {c : C} {cs : List C} (hi : cfg.inside i = none)
    (ht : cfg.todo i = c :: cs) :
    unbegun m (Function.update cfg.todo i cs) (Function.update cfg.inside i (some (c, m.enter c))) <
      unbegun m cfg.todo cfg.inside := by
  apply unbegun_lt
  simp only [toBegin, hi, ht, pending_enter, pending_none, List.length_cons, List.length_nil]
  omega

theorem unbegun_acquire {i : ι} {c : C} {l l' : L} (hi : cfg.inside i = some (c, l))
    (hl : m.code l = .acquire l') (hl' : (m.code l').takesLock = false) :
    unbegun m cfg.todo (Function.update cfg.inside i (some (c, l'))) <
      unbegun m cfg.todo cfg.inside := by
  have hless : toBegin m (cfg.todo i) (some (c, l')) < toBegin m (cfg.todo i) (cfg.inside i) := by
    rw [toBegin, toBegin, pending_inside hl', hi]
    simp [Monitor.pending, hl, Statement.takesLock]
  have hsum := unbegun_lt hless
  rwa [Function.update_eq_self] at hsum

theorem unbegun_held (todo : ι → List C) {inside : ι → Option (C × L)} {i : ι}
    {x : Option (C × L)} (hi : m.pending (inside i) = []) (hx : m.pending x = []) :
    unbegun m todo (Function.update inside i x) = unbegun m todo inside := by
  apply Finset.sum_congr rfl
  intro j _
  by_cases hj : j = i
  · subst hj
    rw [Function.update_self, toBegin, toBegin, hi, hx]
  · rw [Function.update_of_ne hj]

theorem ends_outside {n : Nat} (hn : unbegun m cfg.todo cfg.inside = n)
    (hout : ∀ i, m.Outside (cfg.inside i))
    (hrun : Relation.ReflTransGen (Step m) (start s₀ programs) cfg)
    (ih : ∀ cfg', unbegun m cfg'.todo cfg'.inside < n →
      Relation.ReflTransGen (Step m) (start s₀ programs) cfg' → Ends m cfg') : Ends m cfg := by
  refine Acc.intro _ fun cfg' hstep => ?_
  have hrun' := hrun.tail hstep
  cases hstep with
  | call hi ht => exact ih _ (hn ▸ unbegun_call hi ht) hrun'
  | acquire ho hi hl =>
    obtain rfl := hout _ _ _ hi
    refine ih _ (hn ▸ unbegun_acquire hi hl ?_) hrun'
    rw [m.code_enter] at hl
    cases hl
    exact m.body_holds _
  | micro hi hm =>
    obtain rfl := hout _ _ _ hi
    cases (micro_enter _ _).symm.trans hm
  | release hi hr =>
    obtain rfl := hout _ _ _ hi
    cases (m.code_enter _).symm.trans hr

/-- The thread that has the lock moves towards the end of its call, and the
others come as far as the lock. -/
theorem ends_inside {n : Nat} {i : ι} {c : C} {p : L × S} {l : L} {s : S} {r : R}
    (hsteps : m.Steps p (l, s)) (hr : m.code l = .release r) (hp : (m.code p.1).takesLock = false)
    (hn : unbegun m cfg.todo cfg.inside = n) (ho : cfg.owner = some i)
    (hi : cfg.inside i = some (c, p.1)) (hs : cfg.shared = p.2)
    (hothers : ∀ j, j ≠ i → m.Outside (cfg.inside j))
    (hrun : Relation.ReflTransGen (Step m) (start s₀ programs) cfg)
    (ih : ∀ cfg', unbegun m cfg'.todo cfg'.inside < n →
      Relation.ReflTransGen (Step m) (start s₀ programs) cfg' → Ends m cfg') : Ends m cfg := by
  have hpending : m.pending (cfg.inside i) = [] := by rw [hi, pending_inside hp]
  induction hsteps using Relation.ReflTransGen.head_induction_on generalizing cfg with
  | refl =>
    refine Acc.intro _ fun cfg' hstep => ?_
    have hrun' := hrun.tail hstep
    cases hstep with
    | call hj ht => exact ih _ (hn ▸ unbegun_call hj ht) hrun'
    | acquire ho' hj hl => cases ho.symm.trans ho'
    | micro hj hm =>
      obtain ⟨rfl, rfl, rfl⟩ := only_inside hi hothers hj (holds_of_micro hm).1
      cases (micro_of_release hr _).symm.trans hm
    | release hj hr' =>
      obtain ⟨rfl, rfl, rfl⟩ := only_inside hi hothers hj (by rw [hr', Statement.takesLock])
      have hn' := (unbegun_held cfg.todo hpending pending_none).trans hn
      exact ends_outside hn' (fun j => outside_update outside_none (hothers j)) hrun' ih
  | head hmicro hrest ih' =>
    refine Acc.intro _ fun cfg' hstep => ?_
    have hrun' := hrun.tail hstep
    cases hstep with
    | call hj ht => exact ih _ (hn ▸ unbegun_call hj ht) hrun'
    | acquire ho' hj hl => cases ho.symm.trans ho'
    | micro hj hm =>
      obtain ⟨rfl, rfl, rfl⟩ := only_inside hi hothers hj (holds_of_micro hm).1
      rw [hs] at hm
      cases hmicro.symm.trans hm
      have hheld := (holds_of_micro hmicro).2
      have hn' := (unbegun_held cfg.todo hpending (pending_inside (c := c) hheld)).trans hn
      refine ih' hheld hn' ho (Function.update_self ..) rfl (fun j hji => ?_) hrun' ?_
      · simpa [Function.update_of_ne hji] using hothers j hji
      · simpa using pending_inside hheld
    | release hj hr' =>
      obtain ⟨rfl, rfl, rfl⟩ := only_inside hi hothers hj (by rw [hr', Statement.takesLock])
      cases (micro_of_release hr' _).symm.trans hmicro

/-- Every schedule of a run comes to an end: each call and each acquisition
leaves fewer calls to begin, and between them one call runs to its end. -/
theorem ends_of_run (himpl : Implements m atomic I) (hs : I s₀)
    (hrun : Relation.ReflTransGen (Step m) (start s₀ programs) cfg) : Ends m cfg := by
  induction hn : unbegun m cfg.todo cfg.inside using Nat.strong_induction_on generalizing cfg with
  | _ n ih =>
    have ih' := fun (cfg' : Config ι C L S R) hlt hrun' =>
      ih (unbegun m cfg'.todo cfg'.inside) hlt hrun' rfl
    obtain ⟨done, rs, s₁, h⟩ := explained_of_run himpl hs hrun
    obtain ⟨-, -, -, hout⟩ | ⟨i, c, l, ho, -, hi, hothers, hsteps⟩ := h.current
    · exact ends_outside hn hout hrun ih'
    · obtain ⟨r, s', l', -, -, hend, hr⟩ := himpl s₁ c h.inv
      exact ends_inside (steps_to_end hsteps hend hr) hr (steps_hold hsteps) hn ho hi rfl hothers
        hrun ih'

theorem no_endless_run (himpl : Implements m atomic I) (hs : I s₀) :
    ¬ ∃ f : Nat → Config ι C L S R, f 0 = start s₀ programs ∧ ∀ n, Step m (f n) (f (n + 1)) := by
  intro h
  exact not_acc_iff_exists_descending_chain.mpr h (ends_of_run himpl hs Relation.ReflTransGen.refl)

end Ends

end JoinServer.Lib.Completion
