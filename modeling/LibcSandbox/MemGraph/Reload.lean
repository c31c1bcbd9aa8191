import LibcSandbox.MemGraph.Capacity

namespace LibcSandbox
open Library
set_option autoImplicit true

/-- A sequence of calls of `initialize_graph`, up to the first that does not return. -/
def initializeGraphs (build : Build) : List (Option Bytes × Nat) → MemGraph → Outcome MemGraph Unit
  | [], m => (.ok (), m)
  | (data, size) :: calls, m =>
    match initializeGraph build data size m with
    | (.error h, m) => (.error h, m)
    | (.ok (), m) => initializeGraphs build calls m

/-- Some sequence of calls of `initialize_graph` leads from the start to the state. -/
def ReachedByLoads (build : Build) (m : MemGraph) : Prop :=
  ∃ calls, initializeGraphs build calls MemGraph.initial = (.ok (), m)

/-- What `verify_graph` returns inside `initialize_graph`, which calls it unless the size is 0. -/
def loadVerdict (m : MemGraph) (data : Bytes) (size : Nat) : Option (Except Halt Int) :=
  if 0 < size then some (verifyGraph (m.copied data size)).1 else none

/-- The results of both calls for each id of a sequence, up to the first that does not return. -/
def answers : List UInt64 → MemGraph → Except Halt (List (Int × Int))
  | [], _ => .ok []
  | c :: cs, m =>
    match isStateTransitionValid m c with
    | .error h => .error h
    | .ok valid =>
      match transitionToState m c with
      | (.error h, _) => .error h
      | (.ok state, m) => (answers cs m).map fun rest => (valid, state) :: rest

def answersAfterReset (cs : List UInt64) (m : MemGraph) : Except Halt (List (Int × Int)) :=
  match resetProgstate m with
  | (.error h, _) => .error h
  | (.ok (), m) => answers cs m

/-- A load has the same verdict in both states and, when the graph is accepted, every sequence of
ids has the same answers. -/
def SameLoad (build : Build) (data : Bytes) (size : Nat) (m₁ m₂ : MemGraph) : Prop :=
  loadVerdict m₁ data size = loadVerdict m₂ data size ∧
    (loadVerdict m₁ data size = some (.ok 1) → ∀ cs,
      answersAfterReset cs (initializeGraph build (some data) size m₁).2 =
        answersAfterReset cs (initializeGraph build (some data) size m₂).2)

theorem loadVerdict_pos (h : 0 < size) :
    loadVerdict m data size = some (verifyGraph (m.copied data size)).1 := if_pos h

theorem loadVerdict_zero : loadVerdict m data 0 = none := if_neg (Nat.lt_irrefl 0)

theorem initializeGraph_state (h₁ : 0 < size) (h₂ : size ≤ memoryPoolSize) :
    (initializeGraph build (some data) size m).2 = (verifyGraph (m.copied data size)).2 := by
  rw [initializeGraph_copied h₁ h₂, verifyLoaded_state]

theorem graphFinalized_copy (p data : Bytes) (h : 32 < size) :
    Pool.graphFinalized (copy p data size) = data 32 :=
  copy_agree_data (Nat.le_refl size) 32 (Nat.zero_le _) h

theorem magic_copy (p data : Bytes) (h : 32 < size) :
    Pool.magic (copy p data size) = Pool.magic data :=
  readWord_congr (copy_agree_data (by omega))

/-- A header that the buffer brings and that is not in order is refused in every state. -/
theorem verifyGraph_refused (m : MemGraph) (h : 32 < size) (hbad : ¬HeaderOk data) :
    (verifyGraph (m.copied data size)).1 =
      .ok (if data 32 = 0 then errorInvalidState else errorInvalidGraph) := by
  have hf := graphFinalized_copy (m.pool.getD emptyPool) data h
  have hm := magic_copy (m.pool.getD emptyPool) data h
  by_cases hz : data 32 = 0
  · simp only [verifyGraph, MemGraph.copied_pool, hf, hz, ↓reduceIte]
  · have hmagic : Pool.magic data ≠ graphMetaMagicNumber := fun he => hbad ⟨hz, he⟩
    simp only [verifyGraph, MemGraph.copied_pool, hf, hz, hm, ne_eq, hmagic, not_false_eq_true,
      ↓reduceIte]

theorem headerOk_copy (p data : Bytes) (h : 32 < size) (hh : HeaderOk data) :
    HeaderOk (copy p data size) := by
  constructor
  · rw [graphFinalized_copy p data h]
    exact hh.finalized
  · rw [magic_copy p data h]
    exact hh.magic

theorem verifyGraph_ne_errorInvalidState {m : MemGraph} (hp : m.pool = some p)
    (hf : p.graphFinalized ≠ 0) : (verifyGraph m).1 ≠ .ok errorInvalidState := by
  by_cases hm : p.magic = graphMetaMagicNumber
  · obtain ⟨x, hends, hrun⟩ := verifyGraph_ends hp ⟨hf, hm⟩
    rw [hrun]
    intro h
    cases hends with
    | accepted => exact absurd (Except.ok.inj h) (by decide)
    | outOfListing => cases h
    | fails _ _ _ _ hx =>
      cases hx with
      | outside => cases h
      | magic => exact absurd (Except.ok.inj h) (by decide)
      | edgeOutside => cases h
      | edgeMagic => exact absurd (Except.ok.inj h) (by decide)
  · simp only [verifyGraph, hp, hf, ne_eq, hm, not_false_eq_true, ↓reduceIte]
    decide

theorem resetProgstate_noSlots {m : MemGraph} (hn : m.nodes = some L) (hs : L.slots = 0) :
    answersAfterReset [] m = .error (.outOfListing 0) := by
  have hread : L.read 0 = .error (.outOfListing 0) := if_neg (by omega)
  simp only [answersAfterReset, resetProgstate, hn, hread]

theorem resetProgstate_slots {m : MemGraph} (hn : m.nodes = some L) (hs : 0 < L.slots) :
    answersAfterReset [] m = .ok [] := by
  have hread : L.read 0 = .ok (L.entry 0) := if_pos hs
  simp only [answersAfterReset, resetProgstate, hn, hread, answers]

theorem verifyGraph_noSlots {m : MemGraph} (hp : m.pool = some p) (hh : HeaderOk p)
    (hn : m.nodes = some L) (hs : L.slots = 0) :
    (verifyGraph m).1 = .error (.outOfListing 0) ∨
      (verifyGraph m).1 = .ok 1 ∧
        answersAfterReset [] (verifyGraph m).2 = .error (.outOfListing 0) := by
  have hL : m.listingFor p = L := by rw [MemGraph.listingFor, hn, Option.getD_some]
  rw [verifyGraph_headerOk hp hh, hL]
  cases p.numNodes.toNat with
  | zero =>
    right
    rw [verifyNodes]
    exact ⟨rfl, resetProgstate_noSlots rfl hs⟩
  | succ k =>
    left
    rw [verifyNodes_outOfListing (Nat.le_of_eq hs)]

theorem verifyGraph_slots {m : MemGraph} (hp : m.pool = some p) (hh : HeaderOk p)
    (hn : m.nodes = some L) (hs : 0 < L.slots) :
    (verifyGraph m).1 ≠ .error (.outOfListing 0) ∧
      ((verifyGraph m).1 = .ok 1 → answersAfterReset [] (verifyGraph m).2 = .ok []) := by
  have hL : m.listingFor p = L := by rw [MemGraph.listingFor, hn, Option.getD_some]
  obtain ⟨x, hends, hrun⟩ := verifyGraph_ends hp hh
  rw [hL] at hends
  rw [hrun]
  refine ⟨?_, fun h => ?_⟩
  · intro h
    cases hends with
    | accepted => cases h
    | outOfListing =>
      simp only [Except.error.injEq, Halt.outOfListing.injEq] at h
      omega
    | fails _ _ _ _ hx =>
      cases hx with
      | outside => cases h
      | magic => cases h
      | edgeOutside => cases h
      | edgeMagic => cases h
  · apply resetProgstate_slots rfl
    cases hends with
    | accepted => exact Nat.lt_of_lt_of_eq hs (Listing.putTable_slots ..).symm
    | outOfListing => exact Nat.lt_of_lt_of_eq hs (Listing.putTable_slots ..).symm
    | fails => exact Nat.lt_of_lt_of_eq hs (Listing.putTable_slots ..).symm

/-- A finalized graph without nodes, whose listing has no slots. -/
def nodelessPool : Pool := emptyPool.setGraphFinalized 1

def afterLoad (data : Bytes) : MemGraph :=
  (verifyGraph (MemGraph.initial.copied data memoryPoolSize)).2

theorem reachedByLoads_afterLoad (build : Build)
    (hv : (verifyGraph (MemGraph.initial.copied data memoryPoolSize)).1 = .ok 1) :
    ReachedByLoads build (afterLoad data) := by
  refine ⟨[(some data, memoryPoolSize)], ?_⟩
  have hload : initializeGraph build (some data) memoryPoolSize MemGraph.initial =
      (.ok (), afterLoad data) := by
    rw [initializeGraph_copied (by decide) (Nat.le_refl _), verifyLoaded, afterLoad]
    generalize verifyGraph (MemGraph.initial.copied data memoryPoolSize) = x at hv
    obtain ⟨r, m⟩ := x
    cases hv
    simp only [ne_eq, not_true_eq_false, ↓reduceIte]
  simp only [initializeGraphs, hload]

theorem afterLoad_nodelessPool :
    (verifyGraph (MemGraph.initial.copied nodelessPool memoryPoolSize)).1 = .ok 1 ∧
      (afterLoad nodelessPool).nodes.map Listing.slots = some 0 := by
  decide +kernel

theorem afterLoad_edgePool :
    (verifyGraph (MemGraph.initial.copied (edgePool 0) memoryPoolSize)).1 = .ok 1 ∧
      (afterLoad (edgePool 0)).nodes.map Listing.slots = some 1 ∧
      (afterLoad (edgePool 0)).pool.map Pool.graphFinalized = some 1 := by
  decide +kernel

theorem reachedByLoads_initial (build : Build) : ReachedByLoads build MemGraph.initial :=
  ⟨[], rfl⟩

/-- A buffer that does not bring the flag is taken for finalized if the last one was. -/
theorem sameLoad_short_false (h₁ : 0 < size) (h₂ : size ≤ 32) :
    ¬SameLoad build data size MemGraph.initial (afterLoad (edgePool 0)) := by
  intro hx
  obtain ⟨hsame, -⟩ := hx
  rw [loadVerdict_pos h₁, loadVerdict_pos h₁, Option.some.injEq] at hsame
  have hflag (p : Pool) : Pool.graphFinalized (copy p data size) = p.graphFinalized := by
    simp only [Pool.graphFinalized, copy, if_neg (Nat.not_lt.2 h₂)]
  obtain ⟨p, hp, hf⟩ := Option.map_eq_some_iff.1 afterLoad_edgePool.2.2
  have hnew : (verifyGraph (MemGraph.initial.copied data size)).1 = .ok errorInvalidState := by
    have hz : Pool.graphFinalized (copy emptyPool data size) = 0 := by
      rw [hflag]
      exact (Pool.numNodes_header header_emptyPool).1
    simp only [verifyGraph, MemGraph.copied_pool, MemGraph.initial, Option.getD_none, hz,
      ↓reduceIte]
  have hold := verifyGraph_ne_errorInvalidState ((afterLoad (edgePool 0)).copied_pool data size)
    (by rw [hp, Option.getD_some, hflag, hf]; decide)
  exact hold (hsame.symm.trans hnew)

/-- A header in order is not enough: the listing may be one that an earlier load made. -/
theorem sameLoad_headerOk_false (h₁ : 32 < size) (h₂ : size ≤ memoryPoolSize)
    (hh : HeaderOk data) :
    ¬SameLoad build data size (afterLoad nodelessPool) (afterLoad (edgePool 0)) := by
  intro hx
  obtain ⟨hsame, hanswers⟩ := hx
  have hpos : 0 < size := by omega
  rw [loadVerdict_pos hpos, loadVerdict_pos hpos] at hsame
  rw [loadVerdict_pos hpos] at hanswers
  simp only [Option.some.injEq, initializeGraph_state hpos h₂] at hsame hanswers
  obtain ⟨L₀, hn₀, hs₀⟩ := Option.map_eq_some_iff.1 afterLoad_nodelessPool.2
  obtain ⟨L₁, hn₁, hs₁⟩ := Option.map_eq_some_iff.1 afterLoad_edgePool.2.1
  obtain ⟨hne, hok⟩ := verifyGraph_slots ((afterLoad (edgePool 0)).copied_pool data size)
    (headerOk_copy _ _ h₁ hh) ((MemGraph.copied_nodes _ _ _).trans hn₁) (by omega)
  rcases verifyGraph_noSlots ((afterLoad nodelessPool).copied_pool data size)
    (headerOk_copy _ _ h₁ hh) ((MemGraph.copied_nodes _ _ _).trans hn₀) hs₀ with he | ⟨he, hreset⟩
  · exact hne (hsame.symm.trans he)
  · have hboth := hanswers he []
    rw [hreset, hok (hsame.symm.trans he)] at hboth
    cases hboth

/-- Only a buffer that is refused for what it brings itself has one outcome in every state that
earlier loads lead to. -/
theorem sameLoad_iff (build : Build) (data : Bytes) (size : Nat) (hsize : size ≤ memoryPoolSize) :
    (∀ m₁ m₂, ReachedByLoads build m₁ → ReachedByLoads build m₂ →
        SameLoad build data size m₁ m₂) ↔
      size = 0 ∨ 32 < size ∧ ¬HeaderOk data := by
  have hedge : ReachedByLoads build (afterLoad (edgePool 0)) :=
    reachedByLoads_afterLoad build afterLoad_edgePool.1
  have hnodeless : ReachedByLoads build (afterLoad nodelessPool) :=
    reachedByLoads_afterLoad build afterLoad_nodelessPool.1
  apply Iff.intro
  · intro h
    rcases Nat.eq_zero_or_pos size with hz | hpos
    · exact .inl hz
    · rcases Nat.lt_or_ge 32 size with hlong | hshort
      · exact .inr ⟨hlong, fun hh =>
          sameLoad_headerOk_false hlong hsize hh (h _ _ hnodeless hedge)⟩
      · exact (sameLoad_short_false hpos hshort
          (h _ _ (reachedByLoads_initial build) hedge)).elim
  · intro hx m₁ m₂ _ _
    rcases hx with rfl | ⟨hlong, hbad⟩
    · rw [SameLoad, loadVerdict_zero, loadVerdict_zero]
      exact ⟨rfl, fun h => nomatch h⟩
    · have hpos : 0 < size := by omega
      rw [SameLoad, loadVerdict_pos hpos, loadVerdict_pos hpos, verifyGraph_refused m₁ hlong hbad,
        verifyGraph_refused m₂ hlong hbad]
      refine ⟨rfl, fun h => ?_⟩
      rw [Option.some.injEq, Except.ok.injEq] at h
      split at h <;> exact absurd h (by decide)

/-- A header that announces a node, in a buffer that ends before it. -/
def shortBuffer : Bytes := (emptyPool.setGraphFinalized 1).setNumNodes 1

/-- The record behind the end of the buffer is the one that an earlier graph left there. -/
theorem shortBuffer_depends_on_history :
    ¬∀ (data : Bytes) (size : Nat) (m₁ m₂ : MemGraph), size ≤ memoryPoolSize →
      ReachedByLoads .kernel m₁ → ReachedByLoads .kernel m₂ →
      SameLoad .kernel data size m₁ m₂ := by
  intro h
  obtain ⟨hsame, -⟩ := h shortBuffer nodeTableOffset MemGraph.initial (afterLoad (edgePool 0))
    (by decide) (reachedByLoads_initial .kernel)
    (reachedByLoads_afterLoad .kernel afterLoad_edgePool.1)
  have hnew : (verifyGraph (MemGraph.initial.copied shortBuffer nodeTableOffset)).1 =
      .ok errorInvalidNode := by decide +kernel
  have hold : (verifyGraph ((afterLoad (edgePool 0)).copied shortBuffer nodeTableOffset)).1 =
      .ok 1 := by decide +kernel
  rw [loadVerdict_pos (by decide), loadVerdict_pos (by decide), hnew, hold] at hsame
  exact absurd hsame (by decide)

/-- A buffer of zeros is refused at the start, and where a graph is loaded. -/
theorem zeros_sameLoad :
    SameLoad .kernel (fun _ => 0) nodeTableOffset .initial (afterLoad (edgePool 0)) :=
  (sameLoad_iff .kernel (fun _ => 0) nodeTableOffset (by decide)).2
    (.inr ⟨by decide, fun h => h.finalized rfl⟩) .initial (afterLoad (edgePool 0))
    (reachedByLoads_initial .kernel) (reachedByLoads_afterLoad .kernel afterLoad_edgePool.1)

/-- The buffer holds a finished graph with all its records and no edge that leads out of it. -/
structure WholeGraph (data : Bytes) (size : Nat) (ns : List Node) : Prop where
  header : HeaderOk data
  metadata : nodeTableOffset ≤ size
  size_le : size ≤ memoryPoolSize
  table : TableAt data (Pool.nodesTableOffset data).toNat ns
  numNodes : ns.length = (Pool.numNodes data).toNat
  end_le : (Pool.nodesTableOffset data).toNat + extent Node.size ns ≤ size
  targets : TargetsInRange ns

theorem WholeGraph.header_copy (h : WholeGraph data size ns) (q : Bytes) :
    Pool.header (copy q data size) = Pool.header data :=
  Pool.header_congr (copy_agree_data h.metadata)

theorem WholeGraph.copy (h : WholeGraph data size ns) (q : Bytes) :
    WholeGraph (Library.copy q data size) size ns := by
  obtain ⟨hf, hm, hnum, hoff⟩ := Pool.header_eq_iff.1 (h.header_copy q)
  refine ⟨⟨?_, ?_⟩, h.metadata, h.size_le, ?_, ?_, ?_, h.targets⟩
  · rw [hf]
    exact h.header.finalized
  · rw [hm]
    exact h.header.magic
  · rw [hoff]
    exact h.table.congr (copy_agree_data h.end_le).symm
  · rw [hnum]
    exact h.numNodes
  · rw [hoff]
    exact h.end_le

theorem WholeGraph.verifyGraph {m : MemGraph} (h : WholeGraph p size ns) (hp : m.pool = some p)
    (hroom : ns.length ≤ m.slotsFor ns.length) :
    ∃ m', verifyGraph m = (.ok 1, m') ∧ Loaded m' p ns := by
  have hslots : ns.length ≤ (m.listingFor p).slots := by
    rw [MemGraph.listingFor]
    rw [MemGraph.slotsFor] at hroom
    cases hn : m.nodes with
    | none =>
      have hlen := length_le_extent ns
      have hend := h.end_le
      have hsize := h.size_le
      rw [Option.getD_none, malloc_slots (by rw [← h.numNodes]; omega), ← h.numNodes]
    | some L =>
      rw [hn] at hroom
      exact hroom
  have hv := verifyGraph_eq_one_iff.2 ⟨p, ns, hp, h.header, h.table, h.numNodes, hslots, rfl⟩
  obtain ⟨q, hq, -, hl⟩ := loaded_of_verifyGraph hv
  cases hp.symm.trans hq
  rw [h.table.table h.numNodes] at hl
  exact ⟨_, hv, hl⟩

/-- Where two recognisers stand at the same node of tables that start at the same offset, they
give the same answers. -/
theorem AtState.answers_eq {m₁ m₂ : MemGraph} (h₁ : AtState m₁ p₁ ns k) (h₂ : AtState m₂ p₂ ns k)
    (hoff : p₁.nodesTableOffset = p₂.nodesTableOffset)
    (ht : ∀ j, Reaches (fun k c v => nextState ns k c = some v) k j →
      ∀ c v, nextState ns j c = some v → v < ns.length) (cs : List UInt64) :
    answers cs m₁ = answers cs m₂ := by
  induction cs generalizing m₁ m₂ k with
  | nil => rfl
  | cons c cs ih =>
    obtain ⟨n, hk⟩ := h₁.node
    have hcheck : isStateTransitionValid m₁ c = isStateTransitionValid m₂ c := by
      rw [h₁.check hk, h₂.check hk, hoff]
    rw [answers, answers, hcheck]
    cases hvalid : isStateTransitionValid m₂ c with
    | error e => rfl
    | ok valid =>
      rw [hvalid] at hcheck
      cases hn : nextState ns k c with
      | none =>
        have hz : valid = 0 := by
          rcases h₂.check_refused hn with hc | ⟨o, hc⟩
          · exact Except.ok.inj (hvalid.symm.trans hc)
          · cases hvalid.symm.trans hc
        subst hz
        have hr (m : MemGraph) (p : Pool) (h : AtState m p ns k)
            (hc : isStateTransitionValid m c = .ok 0) :
            transitionToState m c = (.ok errorInvalidState, m) := by
          simp only [transitionToState, h.pool, if_neg h.not_le, hc, toUnsignedLong_zero, ne_eq,
            not_true_eq_false, ↓reduceIte]
        simp only [hr m₁ p₁ h₁ hcheck, hr m₂ p₂ h₂ hvalid, ih h₁ h₂ ht]
      | some v =>
        have hv := ht k (.refl k) c v hn
        obtain ⟨m₁', hm₁, h₁'⟩ := (h₁.transition_taken hn).2 hv
        obtain ⟨m₂', hm₂, h₂'⟩ := (h₂.transition_taken hn).2 hv
        have hcur : m₁'.currentProgstate = m₂'.currentProgstate :=
          UInt64.toNat_inj.1 (h₁'.current.trans h₂'.current.symm)
        have hrest := ih h₁' h₂' fun j hj => by
          obtain ⟨w, hw⟩ := hj
          exact ht j ⟨c :: w, .cons hn hw⟩
        simp only [hm₁, hm₂, hcur, hrest]

/-- A whole graph has one outcome in all states whose listing has room for it. -/
theorem WholeGraph.sameLoad (h : WholeGraph data size ns) (build : Build) (m₁ m₂ : MemGraph)
    (h₁ : ns.length ≤ m₁.slotsFor ns.length) (h₂ : ns.length ≤ m₂.slotsFor ns.length) :
    SameLoad build data size m₁ m₂ := by
  have hmeta := h.metadata
  rw [nodeTableOffset] at hmeta
  have hpos : 0 < size := by omega
  have hload (m : MemGraph) (hm : ns.length ≤ m.slotsFor ns.length) :
      ∃ m' p, LibcSandbox.verifyGraph (m.copied data size) = (.ok 1, m') ∧ Loaded m' p ns ∧
        p.nodesTableOffset = Pool.nodesTableOffset data := by
    obtain ⟨m', hv, hl⟩ := (h.copy (m.pool.getD emptyPool)).verifyGraph
      (m.copied_pool data size) (by rwa [MemGraph.slotsFor, MemGraph.copied_nodes])
    exact ⟨m', _, hv, hl, (Pool.header_eq_iff.1 (h.header_copy _)).2.2.2⟩
  obtain ⟨m₁', p₁, hv₁, hl₁, hoff₁⟩ := hload m₁ h₁
  obtain ⟨m₂', p₂, hv₂, hl₂, hoff₂⟩ := hload m₂ h₂
  obtain ⟨hn, ht⟩ := h.targets
  obtain ⟨r₁, hr₁, hs₁⟩ := hl₁.resetProgstate hn
  obtain ⟨r₂, hr₂, hs₂⟩ := hl₂.resetProgstate hn
  rw [SameLoad, loadVerdict_pos hpos, loadVerdict_pos hpos, initializeGraph_state hpos h.size_le,
    initializeGraph_state hpos h.size_le, hv₁, hv₂]
  refine ⟨rfl, fun _ cs => ?_⟩
  simp only [answersAfterReset, hr₁, hr₂]
  exact hs₁.answers_eq hs₂ (hoff₁.trans hoff₂.symm) ht cs

end LibcSandbox
