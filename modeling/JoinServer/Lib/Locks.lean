import JoinServer.Lib.Runs
import Mathlib.Logic.Relation
import Mathlib.Logic.Function.Basic

namespace JoinServer.Lib.Locks

open JoinServer.Lib.Runs

variable {ι C L S R : Type*}

/-- What a method does at one place of its code: take the lock, access the
object, or give the lock back and return. -/
inductive Statement (L S R : Type*)
  | acquire (next : L)
  | access (f : S → Option (L × S))
  | release (r : R)

def Statement.takesLock : Statement L S R → Bool
  | .acquire _ => true
  | .access _ | .release _ => false

/-- An object with methods that take its lock first, take it once and hold it
until they return. -/
structure Monitor (C L S R : Type*) where
  enter : C → L
  body : C → L
  code : L → Statement L S R
  code_enter : ∀ c, code (enter c) = .acquire (body c)
  body_holds : ∀ c, (code (body c)).takesLock = false
  access_holds : ∀ l f s p, code l = .access f → f s = some p → (code p.1).takesLock = false

namespace Monitor

def micro (m : Monitor C L S R) (l : L) (s : S) : Option (L × S) :=
  match m.code l with
  | .access f => f s
  | .acquire _ | .release _ => none

def Steps (m : Monitor C L S R) : L × S → L × S → Prop :=
  Relation.ReflTransGen (fun p q => m.micro p.1 p.2 = some q)

def pending (m : Monitor C L S R) : Option (C × L) → List C
  | none => []
  | some (c, l) => if (m.code l).takesLock then [c] else []

/-- A thread that makes no call, or has not got the lock for it. -/
def Outside (m : Monitor C L S R) (x : Option (C × L)) : Prop :=
  ∀ c l, x = some (c, l) → l = m.enter c

end Monitor

/-- Threads that share the object. A thread is inside a call at a place of its
code. `order` is history: the calls in the order in which they acquired the
lock. -/
structure Config (ι C L S R : Type*) where
  shared : S
  owner : Option ι
  todo : ι → List C
  inside : ι → Option (C × L)
  returned : ι → List R
  order : List (ι × C)

def start (s : S) (programs : ι → List C) : Config ι C L S R :=
  ⟨s, none, programs, fun _ => none, fun _ => [], []⟩

variable [DecidableEq ι]

/-- A thread calls a method, or does what comes next in the code of the one it
is in. Only `acquire` looks at the lock. -/
inductive Step (m : Monitor C L S R) : Config ι C L S R → Config ι C L S R → Prop
  | call {cfg i c cs} (hi : cfg.inside i = none) (ht : cfg.todo i = c :: cs) : Step m cfg
        { cfg with
          todo := Function.update cfg.todo i cs
          inside := Function.update cfg.inside i (some (c, m.enter c)) }
  | acquire {cfg i c l l'} (ho : cfg.owner = none) (hi : cfg.inside i = some (c, l))
      (hl : m.code l = .acquire l') : Step m cfg
        { cfg with
          owner := some i
          inside := Function.update cfg.inside i (some (c, l'))
          order := cfg.order ++ [(i, c)] }
  | micro {cfg i c l l' s'} (hi : cfg.inside i = some (c, l))
      (hm : m.micro l cfg.shared = some (l', s')) : Step m cfg
        { cfg with
          shared := s'
          inside := Function.update cfg.inside i (some (c, l')) }
  | release {cfg i c l r} (hi : cfg.inside i = some (c, l)) (hl : m.code l = .release r) :
      Step m cfg
        { cfg with
          owner := none
          inside := Function.update cfg.inside i none
          returned := Function.update cfg.returned i (cfg.returned i ++ [r]) }

/-- Every call that is not disturbed completes with the result and the effect
of an atomic operation. -/
def Implements (m : Monitor C L S R) (atomic : S → C → Option (R × S)) (I : S → Prop) : Prop :=
  ∀ s c, I s → ∃ r s' l, atomic s c = some (r, s') ∧ I s' ∧
    m.Steps (m.body c, s) (l, s') ∧ m.code l = .release r

def callsOf (i : ι) (order : List (ι × C)) : List C :=
  (order.filter (fun p => p.1 = i)).map Prod.snd

def returnsOf (i : ι) (order : List (ι × C)) (rs : List R) : List R :=
  ((order.zip rs).filter (fun p => p.1.1 = i)).map Prod.snd

theorem callsOf_concat (i j : ι) (c : C) (order : List (ι × C)) :
    callsOf i (order ++ [(j, c)]) = callsOf i order ++ if j = i then [c] else [] := by
  by_cases h : j = i <;> simp [callsOf, h]

theorem returnsOf_concat (i j : ι) (c : C) (r : R) {order : List (ι × C)} {rs : List R}
    (h : order.length = rs.length) :
    returnsOf i (order ++ [(j, c)]) (rs ++ [r]) =
      returnsOf i order rs ++ if j = i then [r] else [] := by
  by_cases hj : j = i <;> simp [returnsOf, List.zip_append h, hj]

section Call

variable {m : Monitor C L S R}

theorem micro_of_release {l : L} {r : R} (h : m.code l = .release r) (s : S) :
    m.micro l s = none := by
  simp [Monitor.micro, h]

theorem micro_enter (c : C) (s : S) : m.micro (m.enter c) s = none := by
  simp [Monitor.micro, m.code_enter]

theorem holds_of_micro {l : L} {s : S} {q : L × S} (h : m.micro l s = some q) :
    (m.code l).takesLock = false ∧ (m.code q.1).takesLock = false := by
  unfold Monitor.micro at h
  cases hl : m.code l with
  | access f => exact ⟨rfl, m.access_holds l f s q hl (by simpa [hl] using h)⟩
  | acquire l' => simp [hl] at h
  | release r => simp [hl] at h

theorem steps_hold {c : C} {s : S} {q : L × S} (h : m.Steps (m.body c, s) q) :
    (m.code q.1).takesLock = false := by
  cases h with
  | refl => exact m.body_holds c
  | tail _ hm => exact (holds_of_micro hm).2

theorem micro_unique : Relator.RightUnique (fun p q : L × S => m.micro p.1 p.2 = some q) :=
  fun _ _ _ hp hq => Option.some.inj (hp.symm.trans hq)

theorem steps_of_done {l : L} {s : S} {r : R} {q : L × S} (hr : m.code l = .release r)
    (h : m.Steps (l, s) q) : q = (l, s) := by
  obtain hq | ⟨q', hstep, -⟩ := Relation.ReflTransGen.cases_head h
  · exact hq.symm
  · cases (micro_of_release hr s).symm.trans hstep

theorem steps_to_end {p q : L × S} {l : L} {s : S} {r : R} (h : m.Steps p q)
    (he : m.Steps p (l, s)) (hr : m.code l = .release r) : m.Steps q (l, s) := by
  obtain hq | hq := Relation.ReflTransGen.total_of_right_unique micro_unique h he
  · exact hq
  · rw [steps_of_done hr hq]
    exact Relation.ReflTransGen.refl

theorem end_unique {p : L × S} {l l' : L} {s s' : S} {r r' : R}
    (h : m.Steps p (l, s)) (hr : m.code l = .release r)
    (h' : m.Steps p (l', s')) (hr' : m.code l' = .release r') : (l, s) = (l', s') :=
  (steps_of_done hr (steps_to_end h h' hr')).symm

theorem done_or_step {q : L × S} {l : L} {s : S} {r : R} (h : m.Steps q (l, s))
    (hr : m.code l = .release r) :
    (∃ r', m.code q.1 = .release r') ∨ ∃ q', m.micro q.1 q.2 = some q' := by
  obtain rfl | ⟨q', hstep, -⟩ := Relation.ReflTransGen.cases_head h
  · exact .inl ⟨r, hr⟩
  · exact .inr ⟨q', hstep⟩

theorem outside_none : m.Outside none := fun _ _ h => by cases h

theorem outside_enter (c : C) : m.Outside (some (c, m.enter c)) := by
  rintro _ _ ⟨⟩
  rfl

theorem pending_none : m.pending none = [] := rfl

theorem pending_enter (c : C) : m.pending (some (c, m.enter c)) = [c] := by
  simp [Monitor.pending, m.code_enter, Statement.takesLock]

theorem pending_inside {c : C} {l : L} (h : (m.code l).takesLock = false) :
    m.pending (some (c, l)) = [] := by
  simp [Monitor.pending, h]

end Call

variable {m : Monitor C L S R} {atomic : S → C → Option (R × S)} {I : S → Prop}
  {s₀ : S} {programs : ι → List C}

/-- A configuration explained by running the calls of `done` one after the
other, with at most one more call under way, by the owner of the lock. -/
structure Explained (m : Monitor C L S R) (atomic : S → C → Option (R × S)) (I : S → Prop)
    (s₀ : S) (programs : ι → List C) (cfg : Config ι C L S R)
    (done : List (ι × C)) (rs : List R) (s₁ : S) : Prop where
  serial : trace atomic s₀ (done.map Prod.snd) = some (rs, s₁)
  inv : I s₁
  returned : ∀ i, cfg.returned i = returnsOf i done rs
  program : ∀ i, programs i = callsOf i cfg.order ++ (m.pending (cfg.inside i) ++ cfg.todo i)
  current : (cfg.owner = none ∧ cfg.order = done ∧ cfg.shared = s₁ ∧
      ∀ i, m.Outside (cfg.inside i)) ∨
    ∃ i c l, cfg.owner = some i ∧ cfg.order = done ++ [(i, c)] ∧ cfg.inside i = some (c, l) ∧
      (∀ j, j ≠ i → m.Outside (cfg.inside j)) ∧ m.Steps (m.body c, s₁) (l, cfg.shared)

theorem explained_start (hs : I s₀) :
    Explained m atomic I s₀ programs (start s₀ programs) [] [] s₀ :=
  ⟨rfl, hs, fun _ => rfl, fun _ => rfl, .inl ⟨rfl, rfl, rfl, fun _ => outside_none⟩⟩

theorem outside_update {inside : ι → Option (C × L)} {i j : ι} {x : Option (C × L)}
    (hx : m.Outside x) (hj : j ≠ i → m.Outside (inside j)) :
    m.Outside (Function.update inside i x j) := by
  by_cases hji : j = i
  · subst hji
    rwa [Function.update_self]
  · rw [Function.update_of_ne hji]
    exact hj hji

theorem Explained.inside_cases {cfg : Config ι C L S R} {done : List (ι × C)} {rs : List R}
    {s₁ : S} (h : Explained m atomic I s₀ programs cfg done rs s₁) {i : ι} {c : C} {l : L}
    (hi : cfg.inside i = some (c, l)) (hl : (m.code l).takesLock = false) :
    cfg.owner = some i ∧ cfg.order = done ++ [(i, c)] ∧
      (∀ j, j ≠ i → m.Outside (cfg.inside j)) ∧ m.Steps (m.body c, s₁) (l, cfg.shared) := by
  have hnot : ¬ m.Outside (cfg.inside i) := by
    intro ho
    rw [ho c l hi, m.code_enter, Statement.takesLock] at hl
    cases hl
  obtain ⟨-, -, -, hout⟩ | ⟨j, c', l', ho, horder, hj, hothers, hsteps⟩ := h.current
  · exact absurd (hout i) hnot
  · by_cases hij : i = j
    · subst hij
      cases hj.symm.trans hi
      exact ⟨ho, horder, hothers, hsteps⟩
    · exact absurd (hothers i hij) hnot

theorem explained_call {cfg : Config ι C L S R} {done : List (ι × C)} {rs : List R} {s₁ : S}
    (h : Explained m atomic I s₀ programs cfg done rs s₁) {i : ι} {c : C} {cs : List C}
    (hi : cfg.inside i = none) (ht : cfg.todo i = c :: cs) :
    Explained m atomic I s₀ programs
      { cfg with
        todo := Function.update cfg.todo i cs
        inside := Function.update cfg.inside i (some (c, m.enter c)) } done rs s₁ := by
  refine ⟨h.serial, h.inv, h.returned, fun j => ?_, ?_⟩
  · by_cases hj : j = i
    · subst hj
      have hprogram := h.program j
      rw [hi, ht, pending_none] at hprogram
      simpa [pending_enter] using hprogram
    · simpa [Function.update_of_ne hj] using h.program j
  · obtain ⟨ho, horder, hshared, hout⟩ | ⟨k, c', l, ho, horder, hk, hothers, hsteps⟩ := h.current
    · exact .inl ⟨ho, horder, hshared, fun j => outside_update (outside_enter c) (fun _ => hout j)⟩
    · have hki : k ≠ i := by
        rintro rfl
        cases hi.symm.trans hk
      refine .inr ⟨k, c', l, ho, horder, ?_, fun j hj => ?_, hsteps⟩
      · simpa [Function.update_of_ne hki] using hk
      · exact outside_update (outside_enter c) (fun _ => hothers j hj)

theorem explained_acquire {cfg : Config ι C L S R} {done : List (ι × C)} {rs : List R} {s₁ : S}
    (h : Explained m atomic I s₀ programs cfg done rs s₁) {i : ι} {c : C} {l l' : L}
    (ho : cfg.owner = none) (hi : cfg.inside i = some (c, l)) (hl : m.code l = .acquire l') :
    Explained m atomic I s₀ programs
      { cfg with
        owner := some i
        inside := Function.update cfg.inside i (some (c, l'))
        order := cfg.order ++ [(i, c)] } done rs s₁ := by
  obtain ⟨-, horder, hshared, hout⟩ | ⟨j, _, _, hj, -⟩ := h.current
  · obtain rfl := hout i c l hi
    obtain rfl : m.body c = l' := by simpa [m.code_enter] using hl
    refine ⟨h.serial, h.inv, h.returned, fun j => ?_, .inr ⟨i, c, m.body c, rfl, by rw [horder],
      by simp, fun j hj => ?_, ?_⟩⟩
    · have hprogram := h.program j
      by_cases hj : j = i
      · subst hj
        rw [hi, pending_enter] at hprogram
        simp [hprogram, callsOf_concat, pending_inside (m.body_holds c)]
      · simpa [callsOf_concat, Ne.symm hj, Function.update_of_ne hj] using hprogram
    · simpa [Function.update_of_ne hj] using hout j
    · rw [hshared]
      exact Relation.ReflTransGen.refl
  · cases ho.symm.trans hj

theorem explained_micro {cfg : Config ι C L S R} {done : List (ι × C)} {rs : List R} {s₁ : S}
    (h : Explained m atomic I s₀ programs cfg done rs s₁) {i : ι} {c : C} {l l' : L} {s' : S}
    (hi : cfg.inside i = some (c, l)) (hm : m.micro l cfg.shared = some (l', s')) :
    Explained m atomic I s₀ programs
      { cfg with
        shared := s'
        inside := Function.update cfg.inside i (some (c, l')) } done rs s₁ := by
  obtain ⟨hl, hl'⟩ := holds_of_micro hm
  obtain ⟨ho, horder, hothers, hsteps⟩ := h.inside_cases hi hl
  refine ⟨h.serial, h.inv, h.returned, fun j => ?_, .inr ⟨i, c, l', ho, horder, by simp, ?_, ?_⟩⟩
  · have hprogram := h.program j
    by_cases hj : j = i
    · subst hj
      rw [hi, pending_inside hl] at hprogram
      simpa [pending_inside hl'] using hprogram
    · simpa [Function.update_of_ne hj] using hprogram
  · intro j hj
    simpa [Function.update_of_ne hj] using hothers j hj
  · exact hsteps.tail hm

theorem explained_release (himpl : Implements m atomic I) {cfg : Config ι C L S R}
    {done : List (ι × C)} {rs : List R} {s₁ : S}
    (h : Explained m atomic I s₀ programs cfg done rs s₁) {i : ι} {c : C} {l : L} {r : R}
    (hi : cfg.inside i = some (c, l)) (hr : m.code l = .release r) :
    Explained m atomic I s₀ programs
      { cfg with
        owner := none
        inside := Function.update cfg.inside i none
        returned := Function.update cfg.returned i (cfg.returned i ++ [r]) }
      cfg.order (rs ++ [r]) cfg.shared := by
  have hl : (m.code l).takesLock = false := by rw [hr, Statement.takesLock]
  obtain ⟨ho, horder, hothers, hsteps⟩ := h.inside_cases hi hl
  obtain ⟨r', s', l', hatomic, hinv, hsteps', hr'⟩ := himpl s₁ c h.inv
  cases end_unique hsteps hr hsteps' hr'
  cases hr.symm.trans hr'
  have hlen : done.length = rs.length := by simpa using (trace_length h.serial).symm
  refine ⟨?_, hinv, fun j => ?_, fun j => ?_, .inl ⟨rfl, rfl, rfl, fun j => ?_⟩⟩
  · rw [horder, List.map_append]
    exact trace_concat.mpr ⟨rs, s₁, r, h.serial, hatomic, rfl⟩
  · rw [horder, returnsOf_concat j i c r hlen]
    by_cases hij : i = j
    · subst hij
      simp [h.returned i]
    · simp [h.returned j, hij, Function.update_of_ne (Ne.symm hij)]
  · have hprogram := h.program j
    by_cases hj : j = i
    · subst hj
      rw [hi, pending_inside hl] at hprogram
      simpa [pending_none] using hprogram
    · simpa [Function.update_of_ne hj] using hprogram
  · exact outside_update outside_none (hothers j)

theorem explained_of_run (himpl : Implements m atomic I) (hs : I s₀) {cfg : Config ι C L S R}
    (hrun : Relation.ReflTransGen (Step m) (start s₀ programs) cfg) :
    ∃ done rs s₁, Explained m atomic I s₀ programs cfg done rs s₁ := by
  induction hrun with
  | refl => exact ⟨[], [], s₀, explained_start hs⟩
  | tail _ hstep ih =>
    obtain ⟨done, rs, s₁, h⟩ := ih
    cases hstep with
    | call hi ht => exact ⟨done, rs, s₁, explained_call h hi ht⟩
    | acquire ho hi hl => exact ⟨done, rs, s₁, explained_acquire h ho hi hl⟩
    | micro hi hm => exact ⟨done, rs, s₁, explained_micro h hi hm⟩
    | release hi hr => exact ⟨_, _, _, explained_release himpl h hi hr⟩

/-- A run in which all threads have returned has the results and the final
state of the calls made one after the other in the order in which they
acquired the lock, and this order keeps the order of every thread. -/
theorem complete_run_serial (himpl : Implements m atomic I) (hs : I s₀) {cfg : Config ι C L S R}
    (hrun : Relation.ReflTransGen (Step m) (start s₀ programs) cfg)
    (hdone : ∀ i, cfg.todo i = [] ∧ cfg.inside i = none) :
    ∃ rs, trace atomic s₀ (cfg.order.map Prod.snd) = some (rs, cfg.shared) ∧
      ∀ i, cfg.returned i = returnsOf i cfg.order rs ∧ callsOf i cfg.order = programs i := by
  obtain ⟨done, rs, s₁, h⟩ := explained_of_run himpl hs hrun
  obtain ⟨-, horder, hshared, -⟩ | ⟨i, c, l, -, -, hi, -⟩ := h.current
  · refine ⟨rs, ?_, fun i => ⟨?_, ?_⟩⟩
    · rw [horder, hshared]
      exact h.serial
    · rw [horder]
      exact h.returned i
    · rw [h.program i, (hdone i).1, (hdone i).2, pending_none, List.append_nil, List.append_nil]
  · cases (hdone i).2.symm.trans hi

theorem run_can_continue (himpl : Implements m atomic I) (hs : I s₀) {cfg : Config ι C L S R}
    (hrun : Relation.ReflTransGen (Step m) (start s₀ programs) cfg)
    (hleft : ∃ i, cfg.todo i ≠ [] ∨ cfg.inside i ≠ none) : ∃ cfg', Step m cfg cfg' := by
  obtain ⟨done, rs, s₁, h⟩ := explained_of_run himpl hs hrun
  obtain ⟨ho, -, -, hout⟩ | ⟨i, c, l, -, -, hi, -, hsteps⟩ := h.current
  · obtain ⟨i, hleft⟩ := hleft
    cases hi : cfg.inside i with
    | none =>
      obtain ⟨c, cs, ht⟩ := List.exists_cons_of_ne_nil (hleft.resolve_right (not_not.mpr hi))
      exact ⟨_, .call hi ht⟩
    | some p =>
      obtain ⟨c, l⟩ := p
      obtain rfl := hout i c l hi
      exact ⟨_, .acquire ho hi (m.code_enter c)⟩
  · obtain ⟨r, s', l', -, -, hend, hr⟩ := himpl s₁ c h.inv
    obtain ⟨r', hr'⟩ | ⟨⟨l'', s''⟩, hm⟩ := done_or_step (steps_to_end hsteps hend hr) hr
    · exact ⟨_, .release hi hr'⟩
    · exact ⟨_, .micro hi hm⟩

theorem complete_stuck {cfg : Config ι C L S R}
    (hdone : ∀ i, cfg.todo i = [] ∧ cfg.inside i = none) (cfg' : Config ι C L S R) :
    ¬ Step m cfg cfg' := by
  intro hstep
  cases hstep with
  | call hi ht => cases (hdone _).1.symm.trans ht
  | acquire _ hi | micro hi | release hi => cases (hdone _).2.symm.trans hi

theorem steps_run (cfg : Config ι C L S R) (i : ι) (c : C) {p q : L × S} (h : m.Steps p q) :
    Relation.ReflTransGen (Step m)
      { cfg with shared := p.2, inside := Function.update cfg.inside i (some (c, p.1)) }
      { cfg with shared := q.2, inside := Function.update cfg.inside i (some (c, q.1)) } := by
  induction h with
  | refl => exact Relation.ReflTransGen.refl
  | @tail q q' _ hm ih =>
    have hstep : Step m
        { cfg with shared := q.2, inside := Function.update cfg.inside i (some (c, q.1)) }
        { cfg with
          shared := q'.2
          inside := Function.update (Function.update cfg.inside i (some (c, q.1))) i
            (some (c, q'.1)) } :=
      .micro (Function.update_self ..) hm
    rw [Function.update_idem] at hstep
    exact ih.tail hstep

theorem call_runs_alone (cfg : Config ι C L S R) (i : ι) {c : C} (cs : List C) {l : L} {s' : S}
    {r : R} (ho : cfg.owner = none) (hi : cfg.inside i = none) (ht : cfg.todo i = c :: cs)
    (h : m.Steps (m.body c, cfg.shared) (l, s')) (hr : m.code l = .release r) :
    Relation.ReflTransGen (Step m) cfg
      ⟨s', none, Function.update cfg.todo i cs, cfg.inside,
        Function.update cfg.returned i (cfg.returned i ++ [r]), cfg.order ++ [(i, c)]⟩ := by
  have hcall := Step.call (m := m) hi ht
  have hacquire : Step m
      { cfg with
        todo := Function.update cfg.todo i cs
        inside := Function.update cfg.inside i (some (c, m.enter c)) }
      { cfg with
        owner := some i
        todo := Function.update cfg.todo i cs
        inside := Function.update (Function.update cfg.inside i (some (c, m.enter c))) i
          (some (c, m.body c))
        order := cfg.order ++ [(i, c)] } :=
    .acquire ho (Function.update_self ..) (m.code_enter c)
  rw [Function.update_idem] at hacquire
  have hmicro := steps_run { cfg with
    owner := some i
    todo := Function.update cfg.todo i cs
    order := cfg.order ++ [(i, c)] } i c h
  have hrelease : Step m
      ⟨s', some i, Function.update cfg.todo i cs, Function.update cfg.inside i (some (c, l)),
        cfg.returned, cfg.order ++ [(i, c)]⟩
      ⟨s', none, Function.update cfg.todo i cs,
        Function.update (Function.update cfg.inside i (some (c, l))) i none,
        Function.update cfg.returned i (cfg.returned i ++ [r]), cfg.order ++ [(i, c)]⟩ :=
    .release (Function.update_self ..) hr
  rw [Function.update_idem, ← hi, Function.update_eq_self] at hrelease
  exact ((hmicro.head hacquire).head hcall).tail hrelease

end JoinServer.Lib.Locks
