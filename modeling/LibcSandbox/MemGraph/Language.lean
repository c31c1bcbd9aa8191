import LibcSandbox.MemGraph.RoundTrip

namespace LibcSandbox
open Library
set_option autoImplicit true

/-- The graph has an edge between two nodes that carries the id. -/
def HasEdge (specs : List (List Edge)) (k : Nat) (c : UInt64) (v : Nat) : Prop :=
  ∃ es, specs[k]? = some es ∧ ∃ e ∈ es, e.libcallid = c ∧ e.nextProgstate.toNat = v

/-- One library call: the check, and then the transition, both of which must succeed. -/
def recogniseStep (m : MemGraph) (c : UInt64) : Option MemGraph :=
  match isStateTransitionValid m c with
  | .error _ => none
  | .ok valid =>
    if valid = 0 then none
    else
      match transitionToState m c with
      | (.error _, _) => none
      | (.ok state, m) => if state < 0 then none else some m

/-- Build a graph, verify it and reset the recogniser, as long as each of these succeeds. -/
def buildAndReset (build : Build) (ns : List Node) : Option MemGraph :=
  match buildGraph build ns MemGraph.initial with
  | (.error _, _) => none
  | (.ok (), m) =>
    match verifyGraph m with
    | (.error _, _) => none
    | (.ok code, m) =>
      if code ≠ 1 then none
      else
        match resetProgstate m with
        | (.error _, _) => none
        | (.ok (), m) => some m

/-- The recogniser takes a word exactly if it labels a path from node 0, and then stands at the
end of the path. -/
def RecognisesExactly (m : MemGraph) (E : Nat → UInt64 → Nat → Prop) : Prop :=
  ∀ w, ((∃ m', run recogniseStep m w = some m') ↔ ∃ q, Path E 0 w q) ∧
    ∀ m' q, run recogniseStep m w = some m' → Path E 0 w q → m'.currentProgstate.toNat = q

theorem AtState.recognise_none (h : AtState m p ns k) (hn : nextState ns k c = none) :
    recogniseStep m c = none := by
  rcases h.check_refused hn with hc | ⟨o, hc⟩
  · simp only [recogniseStep, hc, ↓reduceIte]
  · simp only [recogniseStep, hc]

theorem AtState.recognise_some (h : AtState m p ns k) (hn : nextState ns k c = some v)
    (hv : v < ns.length) (hlen : ns.length ≤ memoryPoolSize) :
    ∃ m', recogniseStep m c = some m' ∧ AtState m' p ns v := by
  obtain ⟨z, hz, hcheck, -⟩ := h.check_taken hn
  obtain ⟨m', hm', h'⟩ := (h.transition_taken hn).2 hv
  have hpos : ¬toInt m'.currentProgstate < 0 := by
    rw [h'.toInt_current hlen]
    omega
  exact ⟨m', by simp only [recogniseStep, hcheck, hz, hm', hpos, ↓reduceIte], h'⟩

theorem lookup_eq_some_iff (h : (es.map Edge.libcallid).Nodup) :
    lookup es c = some t ↔ (⟨c, t⟩ : Edge) ∈ es := by
  induction es with
  | nil => simp [lookup]
  | cons e es ih =>
    rw [List.map_cons, List.nodup_cons] at h
    rw [lookup_cons, List.mem_cons]
    by_cases hc : e.libcallid = c
    · subst hc
      rw [if_pos rfl]
      apply Iff.intro
      · intro ht
        cases ht
        exact .inl rfl
      · intro hx
        rcases hx with he | he
        · rw [← he]
        · exact (h.1 (List.mem_map.2 ⟨_, he, rfl⟩)).elim
    · rw [if_neg hc, ih h.2]
      apply Iff.intro
      · exact .inr
      · intro hx
        rcases hx with he | he
        · exact (hc (by rw [← he])).elim
        · exact he

/-- In a deterministic graph the recogniser follows the edges that do not lead to node 0. -/
theorem nextState_numbered_iff (hdet : ∀ es ∈ specs, (es.map Edge.libcallid).Nodup)
    (htargets : ∀ es ∈ specs, ∀ e ∈ es, e.nextProgstate.toNat < specs.length)
    (hlen : specs.length ≤ memoryPoolSize) :
    nextState (numbered specs) k c = some v ↔ HasEdge specs k c v ∧ v ≠ 0 := by
  rw [nextState, getElem?_numbered]
  cases hk : specs[k]? with
  | none => simp [HasEdge, hk]
  | some es =>
    have hmem : es ∈ specs := List.mem_of_getElem? hk
    have hsmall (t : UInt64) (ht : (⟨c, t⟩ : Edge) ∈ es) : toUnsignedLong (toInt t) = t := by
      have hlt : t.toNat < specs.length := htargets es hmem _ ht
      rw [memoryPoolSize] at hlen
      exact toUnsignedLong_toInt (by omega)
    have hedge : HasEdge specs k c v ↔ ∃ t, (⟨c, t⟩ : Edge) ∈ es ∧ t.toNat = v := by
      apply Iff.intro
      · intro hx
        obtain ⟨es', hk', ⟨c', t⟩, he, rfl, ht⟩ := hx
        cases hk.symm.trans hk'
        exact ⟨t, he, ht⟩
      · intro hx
        obtain ⟨t, he, ht⟩ := hx
        exact ⟨es, hk, _, he, rfl, ht⟩
    rw [hedge, Option.map_some, Option.bind_some, transitionCode]
    cases hl : lookup es c with
    | none =>
      have hno (t : UInt64) : (⟨c, t⟩ : Edge) ∉ es := fun he => by
        rw [(lookup_eq_some_iff (hdet es hmem)).2 he] at hl
        cases hl
      simp [hno, toUnsignedLong_zero]
    | some t =>
      have ht := (lookup_eq_some_iff (hdet es hmem)).1 hl
      have huniq (t' : UInt64) (ht' : (⟨c, t'⟩ : Edge) ∈ es) : t' = t := by
        rw [(lookup_eq_some_iff (hdet es hmem)).2 ht', Option.some.injEq] at hl
        exact hl
      rw [Option.elim_some, hsmall t ht]
      apply Iff.intro
      · intro h
        by_cases hz : t = 0
        · simp [hz] at h
        · simp only [hz, ↓reduceIte, Option.some.injEq] at h
          refine ⟨⟨t, ht, h⟩, ?_⟩
          rintro rfl
          exact hz (UInt64.toNat_inj.1 h)
      · intro hx
        obtain ⟨⟨t', ht', rfl⟩, hz⟩ := hx
        rw [huniq t' ht'] at hz ⊢
        have hne : t ≠ 0 := by
          rintro rfl
          exact hz rfl
        simp only [hne, ↓reduceIte]

theorem AtState.follows (h : AtState m p ns k)
    (hlt : ∀ k c v, nextState ns k c = some v → v < ns.length)
    (hlen : ns.length ≤ memoryPoolSize) (w : List UInt64) :
    (∀ m', run recogniseStep m w = some m' →
        ∃ q, run (nextState ns) k w = some q ∧ AtState m' p ns q) ∧
      (∀ q, run (nextState ns) k w = some q →
        ∃ m', run recogniseStep m w = some m' ∧ AtState m' p ns q) := by
  refine run_simulation (R := fun m k => AtState m p ns k) (fun m k c h => ?_) h w
  cases hn : nextState ns k c with
  | none => simp [h.recognise_none hn]
  | some v =>
    obtain ⟨m', hm', h'⟩ := h.recognise_some hn (hlt k c v hn) hlen
    constructor
    · intro m'' hm''
      cases hm'.symm.trans hm''
      exact ⟨v, rfl, h'⟩
    · intro v' hv'
      cases hv'
      exact ⟨m', hm', h'⟩

theorem Room.listingFor_slots {m : MemGraph} (h : Room m.nodes m.numNodesListings k) (p : Pool) :
    k ≤ (m.listingFor p).slots := by
  rw [MemGraph.listingFor]
  generalize m.nodes = nodes at h
  generalize m.numNodesListings = c at h
  cases h with
  | unallocated => exact Nat.zero_le _
  | uncounted hs =>
    rw [Option.getD_some, hs]
    decide
  | counted _ _ _ hk => rwa [Option.getD_some]

theorem buildAndReset_numbered (build : Build) (specs : List (List Edge)) (hne : specs ≠ [])
    (hfit : nodeTableOffset + specsSize specs ≤ memoryPoolSize) :
    ∃ m p, buildAndReset build (numbered specs) = some m ∧ specs.length ≤ memoryPoolSize ∧
      AtState m p (numbered specs) 0 := by
  obtain ⟨m₁, p, hm₁, hp, hb, hr⟩ := buildGraph_numbered build specs hfit
  rw [← length_numbered] at hr
  obtain ⟨m₂, hm₂, hl, -⟩ := hb.verifyGraph hp (hr.listingFor_slots p)
  obtain ⟨m₃, hm₃, h⟩ := hl.resetProgstate (by
    rw [length_numbered]
    exact List.length_pos_iff.2 hne)
  have hlen := hb.length_le
  rw [length_numbered] at hlen
  refine ⟨m₃, p, ?_, hlen, h⟩
  simp only [buildAndReset, hm₁, hm₂, hm₃, ne_eq, not_true_eq_false, ↓reduceIte]

theorem AtState.recognisesExactly_iff (h : AtState m p ns 0) {E : Nat → UInt64 → Nat → Prop}
    (hlt : ∀ k c v, nextState ns k c = some v → v < ns.length) (hlen : ns.length ≤ memoryPoolSize)
    (hsub : ∀ k c v, nextState ns k c = some v → E k c v) :
    RecognisesExactly m E ↔ ∀ w q, Path E 0 w q → run (nextState ns) 0 w = some q := by
  apply Iff.intro
  · intro hr w q hw
    obtain ⟨m', hm'⟩ := (hr w).1.2 ⟨q, hw⟩
    obtain ⟨q', hq', h'⟩ := (h.follows hlt hlen w).1 m' hm'
    rw [hq', ← h'.current, (hr w).2 m' q hm' hw]
  · intro ha w
    refine ⟨⟨?_, ?_⟩, fun m' q hm' hw => ?_⟩
    · intro hx
      obtain ⟨m', hm'⟩ := hx
      obtain ⟨q, hq, -⟩ := (h.follows hlt hlen w).1 m' hm'
      exact ⟨q, (run_eq_some_iff.1 hq).mono hsub⟩
    · intro hx
      obtain ⟨q, hw⟩ := hx
      obtain ⟨m', hm', -⟩ := (h.follows hlt hlen w).2 q (ha w q hw)
      exact ⟨m', hm'⟩
    · obtain ⟨q', hq', h'⟩ := (h.follows hlt hlen w).1 m' hm'
      rw [h'.current]
      exact Option.some.inj (hq'.symm.trans (ha w q hw))

/-- For a deterministic graph the recogniser accepts exactly its language if and only if no edge
that a path from node 0 reaches leads back to node 0. -/
theorem recognises_iff (build : Build) (specs : List (List Edge)) (hne : specs ≠ [])
    (hdet : ∀ es ∈ specs, (es.map Edge.libcallid).Nodup)
    (htargets : ∀ es ∈ specs, ∀ e ∈ es, e.nextProgstate.toNat < specs.length)
    (hfit : nodeTableOffset + specsSize specs ≤ memoryPoolSize) :
    ∃ m, buildAndReset build (numbered specs) = some m ∧
      (RecognisesExactly m (HasEdge specs) ↔
        ∀ k, Reaches (HasEdge specs) 0 k → ∀ c, ¬HasEdge specs k c 0) := by
  obtain ⟨m, p, hm, hlen, h⟩ := buildAndReset_numbered build specs hne hfit
  refine ⟨m, hm, ?_⟩
  have hnext (k : Nat) (c : UInt64) (v : Nat) :
      nextState (numbered specs) k c = some v ↔ HasEdge specs k c v ∧ v ≠ 0 :=
    nextState_numbered_iff hdet htargets hlen
  have hlt (k : Nat) (c : UInt64) (v : Nat) (hv : nextState (numbered specs) k c = some v) :
      v < (numbered specs).length := by
    obtain ⟨es, hk, e, he, -, rfl⟩ := ((hnext k c v).1 hv).1
    rw [length_numbered]
    exact htargets es (List.mem_of_getElem? hk) e he
  rw [h.recognisesExactly_iff hlt (by rwa [length_numbered]) fun k c v hv => ((hnext k c v).1 hv).1,
    run_complete_iff hnext]
  apply Iff.intro
  · intro ha k hk c hc
    exact ha k hk c 0 hc rfl
  · rintro ha k hk c v hv rfl
    exact ha k hk c hv

/-- The second node of this graph leads back to the first. -/
def returningGraph : List (List Edge) := [[⟨7, 1⟩], [⟨8, 0⟩]]

theorem returningGraph_not_recognised :
    ¬∃ m, buildAndReset .user (numbered returningGraph) = some m ∧
      RecognisesExactly m (HasEdge returningGraph) := by
  intro hx
  obtain ⟨m, hm, hr⟩ := hx
  have hpath : Path (HasEdge returningGraph) 0 [7, 8] 0 :=
    .cons ⟨[⟨7, 1⟩], rfl, ⟨7, 1⟩, by decide, rfl, rfl⟩
      (.cons ⟨[⟨8, 0⟩], rfl, ⟨8, 0⟩, by decide, rfl, rfl⟩ (.nil 0))
  obtain ⟨m', hm'⟩ := (hr [7, 8]).1.2 ⟨0, hpath⟩
  have hstuck : ((buildAndReset .user (numbered returningGraph)).bind
      (run recogniseStep · [7, 8])).isNone := by decide +kernel
  rw [hm, Option.bind_some, hm'] at hstuck
  cases hstuck

/-- Without the edge back nothing is lost. -/
theorem forwardGraph_recognised :
    ∃ m, buildAndReset .user (numbered [[⟨7, 1⟩], [⟨8, 1⟩]]) = some m ∧
      RecognisesExactly m (HasEdge [[⟨7, 1⟩], [⟨8, 1⟩]]) := by
  have hforward : ∀ es ∈ [[⟨7, 1⟩], [⟨8, 1⟩]], ∀ e ∈ es, Edge.nextProgstate e ≠ 0 := by decide
  obtain ⟨m, hm, hiff⟩ :=
    recognises_iff .user [[⟨7, 1⟩], [⟨8, 1⟩]] (by decide) (by decide) (by decide) (by decide)
  refine ⟨m, hm, hiff.2 fun k _ c hx => ?_⟩
  obtain ⟨es, hk, e, he, -, hzero⟩ := hx
  exact hforward es (List.mem_of_getElem? hk) e he (UInt64.toNat_inj.1 hzero)

end LibcSandbox
