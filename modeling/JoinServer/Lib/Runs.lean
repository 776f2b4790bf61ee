import Mathlib.Data.List.Induction
import Mathlib.Tactic.TypeStar

namespace JoinServer.Lib.Runs

variable {σ α ρ : Type*}

/-- Take the steps in order. There is no final state when one of them has no
defined effect. -/
def run (step : σ → α → Option σ) : σ → List α → Option σ
  | s, [] => some s
  | s, a :: as => (step s a).bind (fun s' => run step s' as)

/-- `P` holds in every state the run passes through, the first included. -/
def Throughout (step : σ → α → Option σ) (P : σ → Prop) (s : σ) (as : List α) : Prop :=
  ∀ bs s', bs <+: as → run step s bs = some s' → P s'

/-- Every step of the run meets a condition on its action and the state
before it. -/
def Along (step : σ → α → Option σ) (C : σ → α → Prop) (s : σ) (as : List α) : Prop :=
  ∀ bs b s₁ s₂, bs ++ [b] <+: as → run step s bs = some s₁ → step s₁ b = some s₂ → C s₁ b

theorem run_append (step : σ → α → Option σ) (s : σ) (as bs : List α) :
    run step s (as ++ bs) = (run step s as).bind (fun s' => run step s' bs) := by
  induction as generalizing s with
  | nil => rfl
  | cons a as ih =>
    rw [List.cons_append, run, run, Option.bind_assoc]
    simp only [ih]

theorem run_concat {step : σ → α → Option σ} {s s' : σ} {as : List α} {a : α} :
    run step s (as ++ [a]) = some s' ↔ ∃ s₁, run step s as = some s₁ ∧ step s₁ a = some s' := by
  simp [run_append, run, Option.bind_eq_some_iff]

theorem along_cons {step : σ → α → Option σ} {C : σ → α → Prop} {s : σ} {a : α} {as : List α} :
    Along step C s (a :: as) ↔ ∀ s', step s a = some s' → C s a ∧ Along step C s' as := by
  constructor
  · intro h s' hs
    refine ⟨h [] a s s' ⟨as, rfl⟩ rfl hs, fun bs b s₁ s₂ hp hr hb => ?_⟩
    exact h (a :: bs) b s₁ s₂ (List.cons_prefix_cons.mpr ⟨rfl, hp⟩) (by rw [run, hs]; exact hr) hb
  · intro h bs b s₁ s₂ hp hr hb
    cases bs with
    | nil =>
      cases hr
      obtain ⟨rfl, -⟩ := List.cons_prefix_cons.mp hp
      exact (h s₂ hb).1
    | cons c bs =>
      obtain ⟨rfl, htail⟩ := List.cons_prefix_cons.mp hp
      obtain ⟨s', hs, hr⟩ := Option.bind_eq_some_iff.mp hr
      exact (h s' hs).2 bs b s₁ s₂ htail hr hb

theorem along_nil {step : σ → α → Option σ} {C : σ → α → Prop} {s : σ} : Along step C s [] := by
  intro bs b s₁ s₂ hp
  simp at hp

theorem along_step {step : σ → α → Option σ} {C : σ → α → Prop} {s s' : σ} {a : α} {as : List α}
    (h : step s a = some s') (hc : C s a) (hrest : Along step C s' as) :
    Along step C s (a :: as) := by
  refine along_cons.mpr fun s₁ h₁ => ?_
  cases h.symm.trans h₁
  exact ⟨hc, hrest⟩

section Invariant

variable {step : σ → α → Option σ} {I P : σ → Prop} {C : σ → α → Prop} {s : σ} {as : List α}

/-- What holds at first, and after every step of the run that starts where it
holds, holds throughout. -/
theorem throughout_of_steps (hs : I s)
    (hstep : ∀ bs b s₁ s₂, bs ++ [b] <+: as → run step s bs = some s₁ → I s₁ →
      step s₁ b = some s₂ → I s₂) : Throughout step I s as := by
  intro bs
  induction bs using List.reverseRecOn with
  | nil =>
    intro s' _ hr
    cases hr
    exact hs
  | append_singleton bs b ih =>
    intro s' hp hr
    obtain ⟨s₁, hr₁, hb⟩ := run_concat.mp hr
    have hi : I s₁ := ih s₁ ((List.prefix_append bs [b]).trans hp) hr₁
    exact hstep bs b s₁ s' hp hr₁ hi hb

theorem throughout_of_along (hs : I s)
    (hstep : ∀ s₁ a s₂, I s₁ → C s₁ a → step s₁ a = some s₂ → I s₂)
    (h : Along step C s as) : Throughout step I s as := by
  apply throughout_of_steps hs
  intro bs b s₁ s₂ hp hr hi hb
  exact hstep s₁ b s₂ hi (h bs b s₁ s₂ hp hr hb) hb

/-- When an invariant implies `P`, and a step keeps the invariant exactly
when it meets the condition, and `P` after the step needs the condition,
then the runs that keep `P` are those whose steps all meet it. -/
theorem throughout_iff_along (hs : I s) (hP : ∀ s₁, I s₁ → P s₁)
    (hstep : ∀ s₁ a s₂, I s₁ → C s₁ a → step s₁ a = some s₂ → I s₂)
    (hcond : ∀ s₁ a s₂, I s₁ → step s₁ a = some s₂ → P s₂ → C s₁ a) :
    Throughout step P s as ↔ Along step C s as := by
  constructor
  · intro h
    have hnext : ∀ bs b s₁ s₂, bs ++ [b] <+: as → run step s bs = some s₁ →
        step s₁ b = some s₂ → P s₂ :=
      fun bs b s₁ s₂ hp hr hb => h _ s₂ hp (run_concat.mpr ⟨s₁, hr, hb⟩)
    have hI : Throughout step I s as := by
      apply throughout_of_steps hs
      intro bs b s₁ s₂ hp hr hi hb
      exact hstep s₁ b s₂ hi (hcond s₁ b s₂ hi hb (hnext bs b s₁ s₂ hp hr hb)) hb
    intro bs b s₁ s₂ hp hr hb
    have hi : I s₁ := hI bs s₁ ((List.prefix_append bs [b]).trans hp) hr
    exact hcond s₁ b s₂ hi hb (hnext bs b s₁ s₂ hp hr hb)
  · intro h bs s' hp hr
    exact hP s' (throughout_of_along hs hstep h bs s' hp hr)

end Invariant

def trace (f : σ → α → Option (ρ × σ)) : σ → List α → Option (List ρ × σ)
  | s, [] => some ([], s)
  | s, a :: as => (f s a).bind (fun p => (trace f p.2 as).map (fun q => (p.1 :: q.1, q.2)))

theorem trace_append (f : σ → α → Option (ρ × σ)) (s : σ) (as bs : List α) :
    trace f s (as ++ bs) = (trace f s as).bind
      (fun p => (trace f p.2 bs).map (fun q => (p.1 ++ q.1, q.2))) := by
  induction as generalizing s with
  | nil => simp [trace]
  | cons a as ih =>
    rw [List.cons_append, trace, trace, Option.bind_assoc]
    congr 1
    funext p
    rw [ih]
    cases trace f p.2 as with
    | none => rfl
    | some q => simp [Function.comp_def]

theorem trace_map {β : Type*} (f : σ → α → Option (ρ × σ)) (g : β → α) (s : σ) (bs : List β) :
    trace (fun s b => f s (g b)) s bs = trace f s (bs.map g) := by
  induction bs generalizing s with
  | nil => rfl
  | cons b bs ih =>
    rw [List.map_cons, trace, trace]
    simp only [ih]

theorem trace_concat {f : σ → α → Option (ρ × σ)} {s s' : σ} {as : List α} {a : α} {rs : List ρ} :
    trace f s (as ++ [a]) = some (rs, s') ↔
      ∃ rs₁ s₁ r, trace f s as = some (rs₁, s₁) ∧ f s₁ a = some (r, s') ∧ rs = rs₁ ++ [r] := by
  rw [trace_append]
  constructor
  · intro h
    obtain ⟨⟨rs₁, s₁⟩, h₁, h⟩ := Option.bind_eq_some_iff.mp h
    obtain ⟨⟨rs₂, s₂⟩, h₂, h⟩ := Option.map_eq_some_iff.mp h
    obtain ⟨⟨r, s₃⟩, hr, h₂⟩ := Option.bind_eq_some_iff.mp h₂
    cases h₂
    cases h
    exact ⟨rs₁, s₁, r, h₁, hr, rfl⟩
  · rintro ⟨rs₁, s₁, r, h₁, hr, rfl⟩
    simp [h₁, trace, hr]

theorem trace_length {f : σ → α → Option (ρ × σ)} {s s' : σ} {as : List α} {rs : List ρ}
    (h : trace f s as = some (rs, s')) : rs.length = as.length := by
  induction as using List.reverseRecOn generalizing rs s' with
  | nil => cases h; rfl
  | append_singleton as a ih =>
    obtain ⟨rs₁, s₁, r, h₁, -, rfl⟩ := trace_concat.mp h
    simp [ih h₁]

theorem trace_middle {f : σ → α → Option (ρ × σ)} {s s' : σ} {as bs : List α} {a : α}
    {rs : List ρ} (h : trace f s (as ++ a :: bs) = some (rs, s')) :
    ∃ rs₁ s₁ r s₂, trace f s as = some (rs₁, s₁) ∧ f s₁ a = some (r, s₂) ∧
      rs[as.length]? = some r := by
  rw [List.append_cons, trace_append] at h
  obtain ⟨⟨rs₂, s₂⟩, h₂, h⟩ := Option.bind_eq_some_iff.mp h
  obtain ⟨⟨rs₃, s₃⟩, -, h⟩ := Option.map_eq_some_iff.mp h
  cases h
  obtain ⟨rs₁, s₁, r, h₁, ha, rfl⟩ := trace_concat.mp h₂
  refine ⟨rs₁, s₁, r, s₂, h₁, ha, ?_⟩
  have hlen : rs₁.length = as.length := trace_length h₁
  simp [← hlen]

theorem trace_invariant {f : σ → α → Option (ρ × σ)} {I : σ → Prop}
    (hstep : ∀ s a r s', I s → f s a = some (r, s') → I s') {s s' : σ} {as : List α} {rs : List ρ}
    (hs : I s) (h : trace f s as = some (rs, s')) : I s' := by
  induction as using List.reverseRecOn generalizing rs s' with
  | nil => cases h; exact hs
  | append_singleton as a ih =>
    obtain ⟨rs₁, s₁, r, h₁, ha, -⟩ := trace_concat.mp h
    exact hstep s₁ a r s' (ih h₁) ha

end JoinServer.Lib.Runs
