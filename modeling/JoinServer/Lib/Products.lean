import JoinServer.Lib.Runs

namespace JoinServer.Lib.Products

open JoinServer.Lib.Runs

variable {σ α : Type*}

inductive Event (α : Type*)
  | spawn
  | act (i : Nat) (a : α)
  | idle

/-- Components that share nothing. Each starts in the same state when it is
spawned, and is known by its number from then on. -/
def step (init : σ) (f : σ → α → Option σ) (ss : List σ) : Event α → Option (List σ)
  | .spawn => some (ss ++ [init])
  | .act i a => (ss[i]?).bind (fun s => (f s a).map (fun s' => ss.set i s'))
  | .idle => some ss

def spawned : List (Event α) → Nat
  | [] => 0
  | .spawn :: es => spawned es + 1
  | .act _ _ :: es => spawned es
  | .idle :: es => spawned es

def actsOf (i : Nat) : List (Event α) → List α
  | [] => []
  | .spawn :: es => actsOf i es
  | .act j a :: es => if j = i then a :: actsOf i es else actsOf i es
  | .idle :: es => actsOf i es

def Addressed (es : List (Event α)) : Prop :=
  ∀ before i a, before ++ [.act i a] <+: es → i < spawned before

theorem spawned_append (es es' : List (Event α)) :
    spawned (es ++ es') = spawned es + spawned es' := by
  induction es with
  | nil => simp [spawned]
  | cons e es ih =>
    cases e with
    | spawn =>
      simp only [List.cons_append, spawned, ih]
      omega
    | act i a => simpa [spawned] using ih
    | idle => simpa [spawned] using ih

theorem actsOf_append (i : Nat) (es es' : List (Event α)) :
    actsOf i (es ++ es') = actsOf i es ++ actsOf i es' := by
  induction es with
  | nil => rfl
  | cons e es ih =>
    cases e with
    | spawn => simpa [actsOf] using ih
    | act j a => by_cases h : j = i <;> simp [actsOf, h, ih]
    | idle => simpa [actsOf] using ih

theorem addressed_concat {es : List (Event α)} {e : Event α} :
    Addressed (es ++ [e]) ↔ Addressed es ∧ ∀ i a, e = .act i a → i < spawned es := by
  constructor
  · intro h
    refine ⟨fun before i a hp => h before i a (hp.trans (List.prefix_append _ _)), ?_⟩
    rintro i a rfl
    exact h es i a (List.prefix_refl _)
  · rintro ⟨h, he⟩ before i a hp
    obtain hp | hp := List.prefix_concat_iff.mp hp
    · obtain ⟨rfl, hlast⟩ := List.append_inj' hp rfl
      exact he i a (List.singleton_inj.mp hlast).symm
    · exact h before i a hp

variable {init : σ} {f : σ → α → Option σ}

theorem actsOf_unspawned {es : List (Event α)} (h : Addressed es) {i : Nat}
    (hi : spawned es ≤ i) : actsOf i es = [] := by
  induction es using List.reverseRecOn with
  | nil => rfl
  | append_singleton es e ih =>
    obtain ⟨hes, he⟩ := addressed_concat.mp h
    rw [spawned_append] at hi
    rw [actsOf_append, ih hes (by omega)]
    cases e with
    | spawn | idle => rfl
    | act j a =>
      have hj : j ≠ i := by
        have hlt := he j a rfl
        omega
      simp [actsOf, hj]

/-- Every component is where its own acts take it. -/
structure Separate (init : σ) (f : σ → α → Option σ) (es : List (Event α)) (ss : List σ) :
    Prop where
  addressed : Addressed es
  length : ss.length = spawned es
  own : ∀ i s, ss[i]? = some s → run f init (actsOf i es) = some s

theorem step_act {ss ss' : List σ} {i : Nat} {a : α} :
    step init f ss (.act i a) = some ss' ↔
      ∃ s s', ss[i]? = some s ∧ f s a = some s' ∧ ss.set i s' = ss' := by
  simp [step, Option.bind_eq_some_iff]

theorem actsOf_spawn (i : Nat) (es : List (Event α)) : actsOf i (es ++ [.spawn]) = actsOf i es := by
  simp [actsOf_append, actsOf]

theorem actsOf_idle (i : Nat) (es : List (Event α)) : actsOf i (es ++ [.idle]) = actsOf i es := by
  simp [actsOf_append, actsOf]

theorem actsOf_own (i : Nat) (a : α) (es : List (Event α)) :
    actsOf i (es ++ [.act i a]) = actsOf i es ++ [a] := by
  simp [actsOf_append, actsOf]

theorem actsOf_other {i j : Nat} (h : j ≠ i) (a : α) (es : List (Event α)) :
    actsOf i (es ++ [.act j a]) = actsOf i es := by
  simp [actsOf_append, actsOf, h]

theorem separate_spawn {es : List (Event α)} {ss : List σ} :
    Separate init f (es ++ [.spawn]) ss ↔ ∃ ss₁, Separate init f es ss₁ ∧ ss₁ ++ [init] = ss := by
  constructor
  · rintro ⟨ha, hlen, hown⟩
    rw [spawned_append] at hlen
    obtain rfl | ⟨ss₁, s, rfl⟩ := List.eq_nil_or_concat ss
    · simp [spawned] at hlen
    · have ha₁ := (addressed_concat.mp ha).1
      have hlen₁ : ss₁.length = spawned es := by simpa [spawned] using hlen
      have hlast := hown ss₁.length s (by simp)
      rw [actsOf_spawn, actsOf_unspawned ha₁ (Nat.le_of_eq hlen₁.symm)] at hlast
      cases hlast
      refine ⟨ss₁, ⟨ha₁, hlen₁, fun i s hi => ?_⟩, by simp⟩
      have hlt := (List.getElem?_eq_some_iff.mp hi).1
      rw [← actsOf_spawn]
      apply hown
      rw [List.concat_eq_append, List.getElem?_append_left hlt, hi]
  · rintro ⟨ss₁, ⟨ha, hlen, hown⟩, rfl⟩
    refine ⟨addressed_concat.mpr ⟨ha, by simp⟩, by simp [spawned_append, spawned, hlen], ?_⟩
    intro i s hi
    rw [actsOf_spawn]
    obtain hlt | hge := Nat.lt_or_ge i ss₁.length
    · rw [List.getElem?_append_left hlt] at hi
      exact hown i s hi
    · -- Only the new component is past the old ones, and it has no acts yet.
      rw [List.getElem?_append_right hge] at hi
      obtain ⟨-, rfl⟩ := List.getElem?_eq_some_iff.mp hi
      rw [actsOf_unspawned ha (hlen ▸ hge)]
      simp [run]

theorem separate_act {es : List (Event α)} {ss : List σ} {i : Nat} {a : α} :
    Separate init f (es ++ [.act i a]) ss ↔
      ∃ ss₁, Separate init f es ss₁ ∧
        ∃ s s', ss₁[i]? = some s ∧ f s a = some s' ∧ ss₁.set i s' = ss := by
  constructor
  · rintro ⟨ha, hlen, hown⟩
    obtain ⟨ha₁, hi⟩ := addressed_concat.mp ha
    have hlen₁ : ss.length = spawned es := by simpa [spawned_append, spawned] using hlen
    have hlt : i < ss.length := hlen₁ ▸ hi i a rfl
    have hrun := hown i ss[i] (List.getElem?_eq_getElem hlt)
    rw [actsOf_own] at hrun
    obtain ⟨s₁, hr₁, hf⟩ := run_concat.mp hrun
    refine ⟨ss.set i s₁, ⟨ha₁, by simpa using hlen₁, fun j t hj => ?_⟩,
      s₁, ss[i], by simp [hlt], hf, by simp⟩
    by_cases hij : i = j
    · subst hij
      obtain rfl : s₁ = t := by simpa [hlt] using hj
      exact hr₁
    · rw [List.getElem?_set_ne hij] at hj
      rw [← actsOf_other hij a]
      exact hown j t hj
  · rintro ⟨ss₁, ⟨ha, hlen, hown⟩, s, s', hi, hf, rfl⟩
    have hlt := (List.getElem?_eq_some_iff.mp hi).1
    refine ⟨addressed_concat.mpr ⟨ha, ?_⟩, by simp [spawned_append, spawned, hlen], ?_⟩
    · rintro i' a' he
      cases he
      exact hlen ▸ hlt
    · intro j t hj
      by_cases hij : i = j
      · subst hij
        obtain rfl : s' = t := by simpa [hlt] using hj
        rw [actsOf_own]
        exact run_concat.mpr ⟨s, hown i s hi, hf⟩
      · rw [List.getElem?_set_ne hij] at hj
        rw [actsOf_other hij]
        exact hown j t hj

theorem separate_idle {es : List (Event α)} {ss : List σ} :
    Separate init f (es ++ [.idle]) ss ↔ Separate init f es ss := by
  constructor
  · rintro ⟨ha, hlen, hown⟩
    exact ⟨(addressed_concat.mp ha).1, by simpa [spawned_append, spawned] using hlen,
      by simpa only [actsOf_idle] using hown⟩
  · rintro ⟨ha, hlen, hown⟩
    exact ⟨addressed_concat.mpr ⟨ha, by simp⟩, by simpa [spawned_append, spawned] using hlen,
      by simpa only [actsOf_idle] using hown⟩

/-- A run of the components together is a run of each of them by itself, on
the acts that are its own. -/
theorem run_iff_separate {es : List (Event α)} {ss : List σ} :
    run (step init f) [] es = some ss ↔ Separate init f es ss := by
  induction es using List.reverseRecOn generalizing ss with
  | nil =>
    constructor
    · intro h
      cases h
      exact ⟨fun before i a hp => by simp at hp, rfl, fun i s hi => by simp at hi⟩
    · rintro ⟨-, hlen, -⟩
      rw [List.eq_nil_of_length_eq_zero hlen]
      rfl
  | append_singleton es e ih =>
    rw [run_concat]
    simp only [ih]
    cases e with
    | spawn => simp only [separate_spawn, step, Option.some.injEq]
    | act i a => simp only [separate_act, step_act]
    | idle => simp [separate_idle, step]

end JoinServer.Lib.Products
