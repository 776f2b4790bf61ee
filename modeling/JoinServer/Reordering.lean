import JoinServer.Contents

namespace JoinServer.Reordering

open JoinServer.Lib.OrderedSet JoinServer.Lib.Runs JoinServer.Lib.FirstWins
open JoinServer.Store JoinServer.Queries JoinServer.Contents

def inserts (ps : List (String × Int × String)) : List Call :=
  ps.map (fun p => .insert p.1 p.2.1 p.2.2)

def succeeds (t : String) (k : Int) : Call × Reply → Bool
  | (.insert t' k' _, .flag true) => t' = t ∧ k' = k
  | _ => false

def successes (t : String) (k : Int) (cs : List Call) (rs : List Reply) : Nat :=
  (cs.zip rs).countP (succeeds t k)

theorem calls_inserts {s : Storage} (hb : Bound s) (ps : List (String × Int × String)) :
    ∃ s', s.calls (inserts ps) = some ((answers Known (contents s) (putAll ps)).map .flag, s') ∧
      Bound s' ∧ contents s' = applyAll Known (contents s) (putAll ps) := by
  induction ps generalizing s with
  | nil => exact ⟨s, rfl, hb, rfl⟩
  | cons p ps ih =>
    obtain ⟨r, s₁, hcall, hb₁, hc₁, hr⟩ := call_refines hb (.insert p.1 p.2.1 p.2.2)
    obtain ⟨s', hcalls, hb', hc'⟩ := ih hb₁
    have hr : r = .flag (accepts Known (contents s) (.put p.1 p.2.1 p.2.2)) := hr
    refine ⟨s', ?_, hb', hc'.trans (by rw [hc₁]; rfl)⟩
    rw [Storage.calls, inserts] at hcalls ⊢
    rw [List.map_cons, trace, hcall, Option.bind_some, hcalls, hc₁, hr]
    rfl

theorem successes_inserts (t : String) (k : Int) (ps : List (String × Int × String))
    (flags : List Bool) : successes t k (inserts ps) (flags.map .flag) = wins t k ps flags := by
  rw [successes, inserts, List.zip_map, List.countP_map, wins]
  congr 1
  funext p
  obtain ⟨⟨t', k', n⟩, b⟩ := p
  cases b <;> simp [succeeds]

theorem keys_ext {t u : Table} (h : ∀ k, names t k = none ↔ names u k = none) : keys t = keys u := by
  have hset : (⟨keys t, keys_sorted t⟩ : KeyedSet Int (fun k => k)) = ⟨keys u, keys_sorted u⟩ := by
    apply KeyedSet.ext_mem
    intro k
    have hk := h k
    rw [names_eq_none, names_eq_none, not_iff_not] at hk
    exact hk
  exact congrArg KeyedSet.toList hset

theorem elems_eq {s s' : Storage} (hb : Bound s) (hb' : Bound s') (h : contents s = contents s') :
    s.tables.elems = s'.tables.elems := by
  rw [hb.elems, hb'.elems, tableNamed_of_contents h, tableNamed_of_contents h]

theorem queries_eq {s s' : Storage} (hb : Bound s) (h : s.tables.elems = s'.tables.elems) :
    ∃ both one, s.intersection = some both ∧ s'.intersection = some both ∧
      s.symmetricDifference = some one ∧ s'.symmetricDifference = some one := by
  obtain ⟨both, hboth, -⟩ := intersection_query hb.elems
  obtain ⟨one, hone, -⟩ := symmetricDifference_query hb.elems
  have hquery : ∀ merge, s'.query merge = s.query merge := fun merge => by
    simp only [Storage.query, h]
  exact ⟨both, one, hboth, (hquery _).trans hboth, hone, (hquery _).trans hone⟩

/-- Insertions in another order leave the same ids in each table, and a key is
inserted once in any order. Where no key comes with two names, the tables and
the results of the queries are the same too. -/
theorem inserts_reorder (s : Storage) (hb : Bound s) (ps ps' : List (String × Int × String))
    (hp : ps.Perm ps') :
    ∃ rs s₁ rs' s₂, s.calls (inserts ps) = some (rs, s₁) ∧
      s.calls (inserts ps') = some (rs', s₂) ∧ Bound s₁ ∧ Bound s₂ ∧
      (∀ t, keys (tableNamed s₁ t) = keys (tableNamed s₂ t)) ∧
      (∀ t k, successes t k (inserts ps) rs = successes t k (inserts ps') rs' ∧
        successes t k (inserts ps) rs =
          if Known t ∧ k ∉ keys (tableNamed s t) ∧ (t, k) ∈ ps.map (fun p => (p.1, p.2.1))
          then 1 else 0) ∧
      ((∀ t k n n', (t, k, n) ∈ ps → (t, k, n') ∈ ps → n = n') →
        s₁.tables.elems = s₂.tables.elems ∧
        ∃ both one, s₁.intersection = some both ∧ s₂.intersection = some both ∧
          s₁.symmetricDifference = some one ∧ s₂.symmetricDifference = some one) := by
  obtain ⟨s₁, hcalls, hb₁, hc₁⟩ := calls_inserts hb ps
  obtain ⟨s₂, hcalls', hb₂, hc₂⟩ := calls_inserts hb ps'
  refine ⟨_, s₁, _, s₂, hcalls, hcalls', hb₁, hb₂, fun t => ?_, fun t k => ?_, fun ha => ?_⟩
  · apply keys_ext
    intro k
    change contents s₁ t k = none ↔ contents s₂ t k = none
    rw [hc₁, hc₂]
    exact taken_perm Known (contents s) hp t k
  · have hfree : contents s t k = none ↔ k ∉ keys (tableNamed s t) := names_eq_none
    have hmem : (t, k) ∈ ps.map (fun p => (p.1, p.2.1)) ↔
        (t, k) ∈ ps'.map (fun p => (p.1, p.2.1)) := (hp.map _).mem_iff
    rw [successes_inserts, successes_inserts, wins_answers, wins_answers]
    simp only [hfree, hmem, and_self]
  · have helems : s₁.tables.elems = s₂.tables.elems :=
      elems_eq hb₁ hb₂ (by rw [hc₁, hc₂, applyAll_perm Known (contents s) hp ha])
    exact ⟨helems, queries_eq hb₁ helems⟩

def sampleInserts : List (String × Int × String) :=
  [("A", 0, "lean"), ("A", 0, "lean"), ("B", 0, "flour")]

theorem inserts_reorder_sample :
    ∃ rs s₁ rs' s₂, (boundStorage .empty .empty).calls (inserts sampleInserts) = some (rs, s₁) ∧
      (boundStorage .empty .empty).calls (inserts sampleInserts.reverse) = some (rs', s₂) ∧
      successes "A" 0 (inserts sampleInserts) rs = 1 ∧
      successes "A" 0 (inserts sampleInserts.reverse) rs' = 1 ∧
      s₁.tables.elems = s₂.tables.elems ∧ ∃ both, s₁.intersection = some both ∧
        s₂.intersection = some both := by
  obtain ⟨rs, s₁, rs', s₂, hcalls, hcalls', -, -, -, hwins, hagree⟩ := inserts_reorder
    (boundStorage .empty .empty) (boundStorage_bound .empty .empty) sampleInserts
    sampleInserts.reverse sampleInserts.reverse_perm.symm
  obtain ⟨hsame, hone⟩ := hwins "A" 0
  have hfirst : successes "A" 0 (inserts sampleInserts) rs = 1 := hone.trans (by decide)
  obtain ⟨helems, both, one, hboth, hboth', -⟩ := hagree (by
    intro t k n n' hn hn'
    simp only [sampleInserts, List.mem_cons, Prod.mk.injEq, List.not_mem_nil, or_false] at hn hn'
    grind)
  exact ⟨rs, s₁, rs', s₂, hcalls, hcalls', hfirst, hsame ▸ hfirst, helems, both, hboth, hboth'⟩

end JoinServer.Reordering
