import LibcSandbox.MemGraph.Language

namespace LibcSandbox
open Library
set_option autoImplicit true

/-- The node that the first edge with this id leads to. -/
def firstEdge (specs : List (List Edge)) (k : Nat) (c : UInt64) : Option Nat :=
  specs[k]?.bind fun es => (lookup es c).map UInt64.toNat

theorem firstEdge_hasEdge (h : firstEdge specs k c = some v) : HasEdge specs k c v := by
  simp only [firstEdge, Option.bind_eq_some_iff, Option.map_eq_some_iff] at h
  obtain ⟨es, hk, t, ht, rfl⟩ := h
  exact ⟨es, hk, _, lookup_mem ht, rfl, rfl⟩

theorem nextState_numbered_eq
    (htargets : ∀ es ∈ specs, ∀ e ∈ es,
      0 < e.nextProgstate.toNat ∧ e.nextProgstate.toNat < specs.length)
    (hlen : specs.length ≤ memoryPoolSize) :
    nextState (numbered specs) k c = firstEdge specs k c := by
  rw [nextState, getElem?_numbered, firstEdge]
  cases hk : specs[k]? with
  | none => rfl
  | some es =>
    rw [Option.map_some, Option.bind_some, Option.bind_some, transitionCode]
    cases hl : lookup es c with
    | none => simp [toUnsignedLong_zero]
    | some t =>
      obtain ⟨hpos, hlt⟩ : 0 < t.toNat ∧ t.toNat < specs.length :=
        htargets es (List.mem_of_getElem? hk) _ (lookup_mem hl)
      rw [memoryPoolSize] at hlen
      have hne : t ≠ 0 := by
        rintro rfl
        exact absurd hpos (Nat.lt_irrefl 0)
      rw [Option.elim_some, toUnsignedLong_toInt (by omega)]
      simp only [hne, ↓reduceIte, Option.map_some]

/-- Wherever the first edges lead on a word, the node there has an edge with every id that can go
on after the word in the graph. -/
def FirstEdgesCover (specs : List (List Edge)) : Prop :=
  ∀ q p, Reaches (Beside (firstEdge specs) (HasEdge specs)) (0, 0) (q, p) →
    ∀ es, specs[p]? = some es → ∀ e ∈ es, (firstEdge specs q e.libcallid).isSome

theorem firstEdgesCover_iff :
    FirstEdgesCover specs ↔
      ∀ w, (∃ p, Path (HasEdge specs) 0 w p) → ∃ q, run (firstEdge specs) 0 w = some q := by
  rw [run_covers_iff]
  apply Iff.intro
  · intro h x hx a u hu
    obtain ⟨q, p⟩ := x
    obtain ⟨es, hk, e, he, rfl, -⟩ := hu
    exact Option.isSome_iff_exists.1 (h q p hx es hk e he)
  · intro h q p hx es hk e he
    exact Option.isSome_iff_exists.2 (h (q, p) hx _ _ ⟨es, hk, e, he, rfl, rfl⟩)

/-- The condition can be read off a list of pairs that no step leads out of. -/
theorem firstEdgesCover_of_closed (pairs : List (Nat × Nat))
    (hstart : (0, 0) ∈ pairs)
    (hclosed : ∀ x ∈ pairs, ∀ es ∈ specs[x.2]?, ∀ e ∈ es,
      ∃ y ∈ pairs, firstEdge specs x.1 e.libcallid = some y.1 ∧ e.nextProgstate.toNat = y.2) :
    FirstEdgesCover specs := by
  intro q p hx es hk e he
  obtain ⟨w, hw⟩ := hx
  have hmem : (q, p) ∈ pairs := by
    refine Path.invariant (I := fun x => x ∈ pairs) (fun x c y hx hstep => ?_) hw hstart
    obtain ⟨hq, es, hk, e, he, rfl, hp⟩ := hstep
    obtain ⟨z, hz, hfirst, htarget⟩ := hclosed x hx es hk e he
    have hzy : z = y := Prod.ext (Option.some.inj (hfirst.symm.trans hq)) (htarget.symm.trans hp)
    exact hzy ▸ hz
  obtain ⟨z, -, hfirst, -⟩ := hclosed (q, p) hmem es hk e he
  rw [hfirst]
  rfl

/-- A graph without edges into node 0 has all its words accepted if and only if the first edges
with an id cover the others. -/
theorem recognises_words_iff (build : Build) (specs : List (List Edge)) (hne : specs ≠ [])
    (htargets : ∀ es ∈ specs, ∀ e ∈ es,
      0 < e.nextProgstate.toNat ∧ e.nextProgstate.toNat < specs.length)
    (hfit : nodeTableOffset + specsSize specs ≤ memoryPoolSize) :
    ∃ m, buildAndReset build (numbered specs) = some m ∧
      ((∀ w, (∃ q, Path (HasEdge specs) 0 w q) → ∃ m', run recogniseStep m w = some m') ↔
        FirstEdgesCover specs) := by
  obtain ⟨m, p, hm, hlen, h⟩ := buildAndReset_numbered build specs hne hfit
  refine ⟨m, hm, ?_⟩
  have hnext (k : Nat) (c : UInt64) : nextState (numbered specs) k c = firstEdge specs k c :=
    nextState_numbered_eq htargets hlen
  have hlt (k : Nat) (c : UInt64) (v : Nat) (hv : nextState (numbered specs) k c = some v) :
      v < (numbered specs).length := by
    rw [hnext] at hv
    obtain ⟨es, hk, e, he, -, rfl⟩ := firstEdge_hasEdge hv
    rw [length_numbered]
    exact (htargets es (List.mem_of_getElem? hk) e he).2
  have hrun (w : List UInt64) :
      (∃ m', run recogniseStep m w = some m') ↔ ∃ q, run (firstEdge specs) 0 w = some q := by
    obtain ⟨hf, hb⟩ := h.follows hlt (by rwa [length_numbered]) w
    rw [← funext fun k => funext (hnext k)]
    apply Iff.intro
    · intro hx
      obtain ⟨m', hm'⟩ := hx
      obtain ⟨q, hq, -⟩ := hf m' hm'
      exact ⟨q, hq⟩
    · intro hx
      obtain ⟨q, hq⟩ := hx
      obtain ⟨m', hm', -⟩ := hb q hq
      exact ⟨m', hm'⟩
  simp only [hrun, firstEdgesCover_iff]

/-- Two branches that start with call 10, and only the second goes on with call 20. -/
def branchingGraph : List (List Edge) := [[⟨10, 1⟩, ⟨10, 2⟩], [], [⟨20, 1⟩]]

theorem branchingGraph_loses_word :
    ¬∀ specs : List (List Edge), specs ≠ [] →
      (∀ es ∈ specs, ∀ e ∈ es,
        0 < e.nextProgstate.toNat ∧ e.nextProgstate.toNat < specs.length) →
      nodeTableOffset + specsSize specs ≤ memoryPoolSize →
      ∃ m, buildAndReset .user (numbered specs) = some m ∧
        ∀ w, (∃ q, Path (HasEdge specs) 0 w q) → ∃ m', run recogniseStep m w = some m' := by
  intro h
  obtain ⟨m, hm, hw⟩ := h branchingGraph (by decide) (by decide) (by decide)
  have hpath : Path (HasEdge branchingGraph) 0 [10, 20] 1 :=
    .cons ⟨[⟨10, 1⟩, ⟨10, 2⟩], rfl, ⟨10, 2⟩, by decide, rfl, rfl⟩
      (.cons ⟨[⟨20, 1⟩], rfl, ⟨20, 1⟩, by decide, rfl, rfl⟩ (.nil 1))
  obtain ⟨m', hm'⟩ := hw [10, 20] ⟨1, hpath⟩
  have hstuck : ((buildAndReset .user (numbered branchingGraph)).bind
      (run recogniseStep · [10, 20])).isNone := by decide +kernel
  rw [hm, Option.bind_some, hm'] at hstuck
  cases hstuck

/-- With call 20 behind both branches, the first edge covers the second. -/
theorem joiningGraph_recognised :
    ∃ m, buildAndReset .user (numbered [[⟨10, 1⟩, ⟨10, 2⟩], [⟨20, 1⟩], [⟨20, 1⟩]]) = some m ∧
      ∀ w, (∃ q, Path (HasEdge [[⟨10, 1⟩, ⟨10, 2⟩], [⟨20, 1⟩], [⟨20, 1⟩]]) 0 w q) →
        ∃ m', run recogniseStep m w = some m' := by
  obtain ⟨m, hm, hiff⟩ := recognises_words_iff .user [[⟨10, 1⟩, ⟨10, 2⟩], [⟨20, 1⟩], [⟨20, 1⟩]]
    (by decide) (by decide) (by decide)
  exact ⟨m, hm, hiff.2 (firstEdgesCover_of_closed [(0, 0), (1, 1), (1, 2)] (by decide) (by decide))⟩

end LibcSandbox
