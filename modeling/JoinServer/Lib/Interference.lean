import JoinServer.Lib.Completion

namespace JoinServer.Lib.Interference

open JoinServer.Lib.Runs JoinServer.Lib.Locks JoinServer.Lib.Completion

variable {ι C L S R : Type*} [DecidableEq ι]

/-- States that are the same to one thread stay so: its own calls return the
same on both, and the calls of the others do not change what it sees. -/
structure Undisturbed (f : S → C → Option (R × S)) (Same : S → S → Prop) (mine others : C → Prop) :
    Prop where
  own : ∀ s t c r s', mine c → Same s t → f s c = some (r, s') →
    ∃ t', f t c = some (r, t') ∧ Same s' t'
  other : ∀ s t c r s', others c → Same s t → f s c = some (r, s') → Same s' t

variable {f : S → C → Option (R × S)} {Same : S → S → Prop} {mine others : C → Prop} {i : ι}

theorem trace_own (h : Undisturbed f Same mine others) {order : List (ι × C)}
    (hmine : ∀ p ∈ order, p.1 = i → mine p.2) (hothers : ∀ p ∈ order, p.1 ≠ i → others p.2)
    {s t s' : S} {rs : List R} (hs : Same s t)
    (htrace : trace f s (order.map Prod.snd) = some (rs, s')) :
    ∃ t', trace f t (callsOf i order) = some (returnsOf i order rs, t') ∧ Same s' t' := by
  induction order using List.reverseRecOn generalizing rs s' with
  | nil =>
    cases htrace
    exact ⟨t, rfl, hs⟩
  | append_singleton order p ih =>
    obtain ⟨j, c⟩ := p
    rw [List.map_append] at htrace
    obtain ⟨rs₁, s₁, r, h₁, hc, rfl⟩ := trace_concat.mp htrace
    have hlen : order.length = rs₁.length := by simpa using (trace_length h₁).symm
    obtain ⟨t₁, ht₁, hs₁⟩ := ih (fun p hp => hmine p (List.mem_append_left _ hp))
      (fun p hp => hothers p (List.mem_append_left _ hp)) h₁
    have hlast : (j, c) ∈ order ++ [(j, c)] := List.mem_append_right _ (List.mem_singleton.mpr rfl)
    rw [callsOf_concat, returnsOf_concat i j c r hlen]
    by_cases hj : j = i
    · obtain ⟨t', ht', hs'⟩ := h.own s₁ t₁ c r s' (hmine _ hlast hj) hs₁ hc
      refine ⟨t', ?_, hs'⟩
      rw [if_pos hj, if_pos hj]
      exact trace_concat.mpr ⟨_, t₁, r, ht₁, ht', rfl⟩
    · refine ⟨t₁, ?_, h.other s₁ t₁ c r s' (hothers _ hlast hj) hs₁ hc⟩
      rw [if_neg hj, if_neg hj, List.append_nil, List.append_nil]
      exact ht₁

theorem mem_callsOf {order : List (ι × C)} {p : ι × C} (h : p ∈ order) : p.2 ∈ callsOf p.1 order :=
  List.mem_map_of_mem (List.mem_filter.mpr ⟨h, decide_eq_true rfl⟩)

variable {m : Monitor C L S R} {I : S → Prop} {s₀ : S} {programs : ι → List C}
  {cfg : Config ι C L S R}

/-- At any time, a thread that is not disturbed holds what the calls it has
completed would have returned to it alone. While no call is under way, it
also sees what it would see alone. -/
theorem returned_alone (himpl : Implements m f I) (hI : I s₀)
    (h : Undisturbed f Same mine others) (hs : Same s₀ s₀)
    (hmine : ∀ c ∈ programs i, mine c) (hothers : ∀ j, j ≠ i → ∀ c ∈ programs j, others c)
    (hrun : Relation.ReflTransGen (Step m) (start s₀ programs) cfg) :
    ∃ t, trace f s₀ ((programs i).take (cfg.returned i).length) = some (cfg.returned i, t) ∧
      (cfg.owner = none → Same cfg.shared t) := by
  obtain ⟨done, rs, s₁, he⟩ := explained_of_run himpl hI hrun
  have horder : ∃ more, cfg.order = done ++ more := by
    obtain ⟨-, ho, -⟩ | ⟨j, c, l, -, ho, -⟩ := he.current
    · exact ⟨[], by rw [ho, List.append_nil]⟩
    · exact ⟨[(j, c)], ho⟩
  obtain ⟨more, hmore⟩ := horder
  have hmem : ∀ p ∈ done, p.2 ∈ programs p.1 := by
    intro p hp
    rw [he.program p.1]
    exact List.mem_append_left _ (mem_callsOf (hmore ▸ List.mem_append_left _ hp))
  obtain ⟨t, ht, hsame⟩ := trace_own h (fun p hp hpi => hmine _ (hpi ▸ hmem p hp))
    (fun p hp hpi => hothers p.1 hpi _ (hmem p hp)) hs he.serial
  have hlen : done.length = rs.length := by simpa using (trace_length he.serial).symm
  have hcalls : (programs i).take (cfg.returned i).length = callsOf i done := by
    have hsplit : callsOf i cfg.order = callsOf i done ++ callsOf i more := by
      rw [hmore, callsOf, List.filter_append, List.map_append]
      rfl
    rw [he.program i, he.returned i, length_returnsOf i hlen, hsplit, List.append_assoc,
      List.take_left]
  refine ⟨t, by rw [hcalls, he.returned i]; exact ht, fun ho => ?_⟩
  obtain ⟨-, -, hshared, -⟩ | ⟨j, c, l, hj, -⟩ := he.current
  · exact hshared ▸ hsame
  · cases ho.symm.trans hj

end JoinServer.Lib.Interference
