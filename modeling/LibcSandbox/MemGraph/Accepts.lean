import LibcSandbox.MemGraph.Bounds

namespace LibcSandbox
open Library
set_option autoImplicit true

/-- What the first bad magic number in a node record, or in the edge records behind it, stands
for. -/
inductive RecordViolates (p : Pool) (off : Nat) : Int → Prop
  | node : (p.progstate off).magic ≠ nodeMagicNumber → RecordViolates p off errorInvalidNode
  | edge : (p.progstate off).magic = nodeMagicNumber → EdgesAt p (off + sizeofRecord) es →
      es.length < (p.progstate off).numLibcalls.toNat →
      (p.libcalls (off + sizeofRecord + es.length * sizeofRecord)).magic ≠ edgeMagicNumber →
      RecordViolates p off errorInvalidEdge

/-- The first condition on a pool that does not hold, by its error code: the flag, then the magic
number, then the records in the order they are in. -/
inductive Violates (p : Pool) : Int → Prop
  | finalized : p.graphFinalized = 0 → Violates p errorInvalidState
  | magic : p.graphFinalized ≠ 0 → p.magic ≠ graphMetaMagicNumber → Violates p errorInvalidGraph
  | record : HeaderOk p → TableAt p p.nodesTableOffset.toNat ns → ns.length < p.numNodes.toNat →
      RecordViolates p (nodeOffset p.nodesTableOffset.toNat ns ns.length) code → Violates p code

theorem nodeFails_ok_iff (h : ¬CutOff p off) :
    NodeFails p off (.ok code) ↔ RecordViolates p off code := by
  have hin : Inside off := Classical.not_not.1 fun ho => h (.node ho)
  apply Iff.intro
  · intro hx
    cases hx with
    | magic _ hm => exact .node hm
    | edgeMagic _ hm hes hl _ hbad => exact .edge hm hes hl hbad
  · intro hx
    cases hx with
    | node hm => exact .magic hin hm
    | edge hm hes hl hbad =>
      have hin' : Inside _ := Classical.not_not.1 fun ho => h (.edge hin hm hes hl ho)
      exact .edgeMagic hin hm hes hl hin' hbad

theorem NodeFails.code (hx : NodeFails p off x) (h : ¬CutOff p off) : ∃ code, x = .ok code := by
  cases hx with
  | outside ho => exact absurd (.node ho) h
  | magic => exact ⟨_, rfl⟩
  | edgeOutside hi hm hes hl ho => exact absurd (.edge hi hm hes hl ho) h
  | edgeMagic => exact ⟨_, rfl⟩

theorem verifyGraph_returns {m : MemGraph} (hp : m.pool = some p)
    (hl : p.numNodes.toNat ≤ (m.listingFor p).slots)
    (hin : ¬Overruns p) :
    ∃ code, (verifyGraph m).1 = .ok code := by
  by_cases hh : HeaderOk p
  · obtain ⟨x, hends, hrun⟩ := verifyGraph_ends hp hh
    rw [hrun]
    cases hends with
    | accepted => exact ⟨1, rfl⟩
    | outOfListing ns hlt ht hs => omega
    | fails ns hlt ht hs hx => exact hx.code fun hc => hin ⟨hh, ns, hlt, ht, hc⟩
  · obtain ⟨code, -, he⟩ := verifyGraph_refuses (m := m) fun q hq => by
      rw [hp] at hq
      cases hq
      exact hh
    exact ⟨code, by rw [he]⟩

theorem verifyGraph_record_iff {m : MemGraph} (hp : m.pool = some p) (hh : HeaderOk p)
    (hl : p.numNodes.toNat ≤ (m.listingFor p).slots)
    (hin : ¬Overruns p) :
    (verifyGraph m).1 = .ok code ↔ (code = 1 ∧ ∃ ns, WellFormed p ns) ∨
      ∃ ns, TableAt p p.nodesTableOffset.toNat ns ∧ ns.length < p.numNodes.toNat ∧
        RecordViolates p (nodeOffset p.nodesTableOffset.toNat ns ns.length) code := by
  have hnot {ns : List Node} (ht : TableAt p p.nodesTableOffset.toNat ns)
      (hlt : ns.length < p.numNodes.toNat) :
      ¬CutOff p (nodeOffset p.nodesTableOffset.toNat ns ns.length) :=
    fun hc => hin ⟨hh, ns, hlt, ht, hc⟩
  apply Iff.intro
  · intro h
    obtain ⟨x, hends, hrun⟩ := verifyGraph_ends hp hh
    rw [hrun] at h
    cases hends with
    | accepted ns hlen ht hs =>
      cases h
      exact .inl ⟨rfl, ns, hh, ht, hlen⟩
    | outOfListing => cases h
    | fails ns hlt ht hs hx =>
      change _ = Except.ok code at h
      subst h
      exact .inr ⟨ns, ht, hlt, (nodeFails_ok_iff (hnot ht hlt)).1 hx⟩
  · intro h
    rcases h with ⟨rfl, ns, hns⟩ | ⟨ns, ht, hlt, hx⟩
    · have hs : 0 + p.numNodes.toNat ≤ (m.listingFor p).slots := by omega
      have hrun : verifyGraph m = _ :=
        WalkEnds.verifyGraph hp hh (.accepted ns hns.numNodes hns.table hs)
      rw [hrun]
    · have hs : 0 + ns.length < (m.listingFor p).slots := by omega
      have hrun : verifyGraph m = _ :=
        WalkEnds.verifyGraph hp hh (.fails ns hlt ht hs ((nodeFails_ok_iff (hnot ht hlt)).2 hx))
      rw [hrun]

/-- What `verify_graph` returns other than 1 stands for the first condition that does not hold. -/
theorem verifyGraph_violates_iff {m : MemGraph} (hp : m.pool = some p)
    (hl : p.numNodes.toNat ≤ (m.listingFor p).slots)
    (hin : ¬Overruns p) (hne : code ≠ 1) :
    (verifyGraph m).1 = .ok code ↔ Violates p code := by
  by_cases hf : p.graphFinalized = 0
  · have hrun : verifyGraph m = (.ok errorInvalidState, m) := by
      simp only [verifyGraph, hp, hf, ↓reduceIte]
    rw [hrun, Except.ok.injEq]
    apply Iff.intro
    · intro h
      exact h ▸ .finalized hf
    · intro h
      cases h with
      | finalized => rfl
      | magic hf' => exact absurd hf hf'
      | record hh => exact absurd hf hh.finalized
  · by_cases hm : p.magic = graphMetaMagicNumber
    · rw [verifyGraph_record_iff hp ⟨hf, hm⟩ hl hin, or_iff_right fun h => hne h.1]
      apply Iff.intro
      · intro h
        obtain ⟨ns, ht, hlt, hx⟩ := h
        exact .record ⟨hf, hm⟩ ht hlt hx
      · intro h
        cases h with
        | finalized hf' => exact absurd hf' hf
        | magic _ hm' => exact absurd hm hm'
        | record _ ht hlt hx => exact ⟨_, ht, hlt, hx⟩
    · have hrun : verifyGraph m = (.ok errorInvalidGraph, m) := by
        simp only [verifyGraph, hp, if_neg hf, ne_eq, hm, not_false_eq_true, ↓reduceIte]
      rw [hrun, Except.ok.injEq]
      apply Iff.intro
      · intro h
        exact h ▸ .magic hf hm
      · intro h
        cases h with
        | finalized hf' => exact absurd hf' hf
        | magic => rfl
        | record hh => exact absurd hh.magic hm

theorem extent_size (ns : List Node) :
    extent Node.size ns = (ns.map fun n => 24 + 24 * n.edges.length).sum := by
  rw [extent]
  congr 1
  apply List.map_congr_left
  intro n _
  rw [Node.size, sizeofRecord, Nat.mul_comm]

/-- `verify_graph` accepts exactly the well-formed tables, lists their nodes, and tells of the
others what is wrong first. -/
theorem verifyGraph_accepts_iff {m : MemGraph} (hp : m.pool = some p)
    (hl : p.numNodes.toNat ≤ (m.listingFor p).slots)
    (hin : ¬Overruns p) :
    (∃ code, (verifyGraph m).1 = .ok code) ∧
    ((verifyGraph m).1 = .ok 1 ↔ ∃ ns, WellFormed p ns) ∧
    (∀ code, code ≠ 1 → ((verifyGraph m).1 = .ok code ↔ Violates p code)) ∧
    ∀ ns, WellFormed p ns → ∃ L, (verifyGraph m).2.nodes = some L ∧
      ∀ i < p.numNodes.toNat, L.entry i = some (p.nodesTableOffset.toNat +
        ((ns.take i).map fun n => 24 + 24 * n.edges.length).sum) := by
  refine ⟨verifyGraph_returns hp hl hin, ?_,
    fun code hne => verifyGraph_violates_iff hp hl hin hne, ?_⟩
  · apply Iff.intro
    · intro h
      have hrun : verifyGraph m = (.ok 1, (verifyGraph m).2) := Prod.ext h rfl
      obtain ⟨q, ns, hq, hh, ht, hlen, -⟩ := verifyGraph_eq_one_iff.1 hrun
      cases hp.symm.trans hq
      exact ⟨ns, hh, ht, hlen⟩
    · intro hx
      obtain ⟨ns, hns⟩ := hx
      exact (verifyGraph_record_iff hp hns.header hl hin).2 (.inl ⟨rfl, ns, hns⟩)
  · intro ns hns
    have hrun := verifyGraph_eq_one_iff.2
      ⟨p, ns, hp, hns.header, hns.table, hns.numNodes, by rw [hns.numNodes]; exact hl, rfl⟩
    refine ⟨_, by rw [hrun], fun i hi => ?_⟩
    have hentry :
        ((m.listingFor p).putTable 0 p.nodesTableOffset.toNat ns).entry (0 + i) = _ :=
      Listing.putTable_entry _ (by rw [hns.numNodes]; exact hi)
    rw [Nat.zero_add] at hentry
    rw [hentry, nodeOffset, extent_size]

theorem oneNodePool_accepted :
    (verifyGraph { MemGraph.initial with pool := some oneNodePool }).1 = .ok 1 :=
  (verifyGraph_accepts_iff (m := { MemGraph.initial with pool := some oneNodePool }) rfl
    (by decide +kernel) oneNodePool_wellFormed.not_overruns).2.1.2 ⟨_, oneNodePool_wellFormed⟩

end LibcSandbox
