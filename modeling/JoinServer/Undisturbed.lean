import JoinServer.Constructed
import JoinServer.Locking
import JoinServer.Reordering
import JoinServer.Lib.Interference

namespace JoinServer.Undisturbed

open JoinServer.Lib.FirstWins JoinServer.Lib.Locks JoinServer.Lib.Interference
open JoinServer.Store JoinServer.Contents JoinServer.Locking JoinServer.Constructed

/-- The tables that a call looks at. A query looks at both. -/
def Sees : Call → String → Prop
  | .insert table _ _, name | .truncate table, name => name = table
  | .intersection, name | .symmetricDifference, name => Known name

structure Same (view : String → Prop) (s t : Storage) : Prop where
  left : Bound s
  right : Bound t
  contents : ∀ name, Known name → view name → contents s name = contents t name

def SeesOnly (view : String → Prop) (c : Call) : Prop := ∀ name, Known name → Sees c name → view name

def Spares (view : String → Prop) (c : Call) : Prop :=
  ∀ name, Known name → tableOf c = some name → ¬ view name

variable {view : String → Prop} {s t : Storage} {c : Call}

theorem same_replies (h : Same view s t) (hc : SeesOnly view c) {r r' : Reply}
    (hr : Answers s c r) (hr' : Answers t c r') : r = r' := by
  have hqueries : (∀ name, Known name → view name) → ∃ both one,
      s.intersection = some both ∧ t.intersection = some both ∧
        s.symmetricDifference = some one ∧ t.symmetricDifference = some one := by
    intro hall
    have hnamed : ∀ name, Known name → tableNamed s name = tableNamed t name :=
      fun name hk => Queries.names_injective (h.contents name hk (hall name hk))
    apply Reordering.queries_eq h.left
    rw [h.left.elems, h.right.elems, hnamed "A" (.inl rfl), hnamed "B" (.inr rfl)]
  cases c with
  | insert table id name =>
    by_cases hk : Known table
    · have hsame := h.contents table hk (hc table hk rfl)
      rw [hr, hr', accepts, accepts, hsame]
    · rw [hr, hr', accepts, accepts, decide_eq_false hk, Bool.false_and, Bool.false_and]
  | truncate table => exact hr.trans hr'.symm
  | intersection =>
    obtain ⟨both, -, hs, ht, -⟩ := hqueries (fun name hk => hc name hk hk)
    obtain ⟨rows, hrows, rfl⟩ := hr
    obtain ⟨rows', hrows', rfl⟩ := hr'
    cases hs.symm.trans hrows
    cases ht.symm.trans hrows'
    rfl
  | symmetricDifference =>
    obtain ⟨-, one, -, -, hs, ht⟩ := hqueries (fun name hk => hc name hk hk)
    obtain ⟨rows, hrows, rfl⟩ := hr
    obtain ⟨rows', hrows', rfl⟩ := hr'
    cases hs.symm.trans hrows
    cases ht.symm.trans hrows'
    rfl

theorem event_elsewhere {name : String} (h : tableOf c ≠ some name) (k : Int) :
    (event c).clears name = false ∧ (event c).puts name k = none := by
  cases c with
  | insert table id n =>
    have hne : ¬ (table = name ∧ id = k) := fun he => h (congrArg some he.1)
    exact ⟨rfl, if_neg hne⟩
  | truncate table => exact ⟨decide_eq_false (fun he => h (congrArg some he)), rfl⟩
  | intersection | symmetricDifference => exact ⟨rfl, rfl⟩

theorem calls_undisturbed (view : String → Prop) :
    Undisturbed Storage.call (Same view) (SeesOnly view) (Spares view) where
  own s t c r s' hc hs hcall := by
    obtain ⟨r₁, s₁, hcall₁, hb₁, hc₁, hr₁⟩ := call_refines hs.left c
    obtain ⟨r₂, t₁, hcall₂, hb₂, hc₂, hr₂⟩ := call_refines hs.right c
    cases hcall.symm.trans hcall₁
    refine ⟨t₁, by rw [hcall₂, same_replies hs hc hr₁ hr₂], hb₁, hb₂, fun name hk hv => ?_⟩
    funext k
    rw [hc₁, hc₂, apply_at Known _ _ hk, apply_at Known _ _ hk, hs.contents name hk hv]
  other s t c r s' hc hs hcall := by
    obtain ⟨r₁, s₁, hcall₁, hb₁, hc₁, -⟩ := call_refines hs.left c
    cases hcall.symm.trans hcall₁
    refine ⟨hb₁, hs.right, fun name hk hv => ?_⟩
    funext k
    obtain ⟨hclears, hputs⟩ := event_elsewhere (fun he => hc name hk he hv) k
    rw [hc₁, apply_at Known _ _ hk, hclears, hputs, if_neg Bool.false_ne_true, Option.or_none,
      hs.contents name hk hv]

/-- A thread that looks at tables no other thread changes has at any time the
replies it would get alone, and between two calls these tables are as if it had
run alone. -/
theorem thread_undisturbed {ι : Type*} [DecidableEq ι] (s : Storage) (hb : Bound s)
    (programs : ι → List Call) (i : ι)
    (hown : ∀ j, j ≠ i → ∀ c ∈ programs j, ∀ d ∈ programs i, ∀ name, Known name →
      tableOf c = some name → ¬ Sees d name)
    (cfg : Config ι Call Pc Storage Reply)
    (hrun : Relation.ReflTransGen (Step storageMonitor) (start s programs) cfg) :
    ∃ s', s.calls ((programs i).take (cfg.returned i).length) = some (cfg.returned i, s') ∧
      (cfg.owner = none → ∀ d ∈ programs i, ∀ name, Known name → Sees d name →
        tableNamed cfg.shared name = tableNamed s' name) := by
  have hmine : ∀ d ∈ programs i, SeesOnly (fun name => ∃ d ∈ programs i, Sees d name) d :=
    fun d hd name _ hsees => ⟨d, hd, hsees⟩
  have hothers : ∀ j, j ≠ i → ∀ c ∈ programs j,
      Spares (fun name => ∃ d ∈ programs i, Sees d name) c := by
    rintro j hj c hc name hk hnamed ⟨d, hd, hsees⟩
    exact hown j hj c hc d hd name hk hnamed hsees
  obtain ⟨s', hcalls, hsame⟩ := returned_alone storageMonitor_implements hb
    (calls_undisturbed _) ⟨hb, hb, fun _ _ _ => rfl⟩ hmine hothers hrun
  refine ⟨s', hcalls, fun ho d hd name hk hsees => ?_⟩
  exact Queries.names_injective ((hsame ho).contents name hk ⟨d, hd, hsees⟩)

theorem thread_undisturbed_sample :
    ∃ (cfg : Config Bool Call Pc Storage Reply) (s' : Storage),
      Relation.ReflTransGen (Step storageMonitor) (start (boundStorage .empty .empty)
        (samplePrograms (.insert "A" 0 "lean") (.insert "B" 6 "flour"))) cfg ∧
      (∀ i, cfg.todo i = [] ∧ cfg.inside i = none) ∧
      (boundStorage .empty .empty).calls ([.insert "A" 0 "lean"].take (cfg.returned false).length) =
        some (cfg.returned false, s') ∧
      (cfg.owner = none → tableNamed cfg.shared "A" = tableNamed s' "A") := by
  obtain ⟨cfg, hrun, -, hdone⟩ := sample_completes (boundStorage_bound .empty .empty)
    (.insert "A" 0 "lean") (.insert "B" 6 "flour")
  obtain ⟨s', hcalls, hsame⟩ := thread_undisturbed (boundStorage .empty .empty)
    (boundStorage_bound .empty .empty) _ false (by
      intro j hj c hc d hd name _ hnamed hsees
      obtain rfl : j = true := by simpa using hj
      obtain rfl := List.mem_singleton.mp hc
      obtain rfl := List.mem_singleton.mp hd
      cases hnamed
      exact absurd (show "B" = "A" from hsees) (by decide)) cfg hrun
  exact ⟨cfg, s', hrun, hdone, hcalls,
    fun ho => hsame ho _ (List.mem_singleton.mpr rfl) "A" (.inl rfl) rfl⟩

end JoinServer.Undisturbed
