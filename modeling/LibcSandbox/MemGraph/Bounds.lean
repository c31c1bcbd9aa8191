import LibcSandbox.MemGraph.Verify

namespace LibcSandbox
open Library
set_option autoImplicit true

/-- The edge records that the inner loop of `verify_graph` looks at, from edge `j` on. What it
finds outside of the pool is not known, and the list ends there. -/
def edgeReads (p : Pool) (libcalls j : Nat) : (remaining : Nat) → List Nat
  | 0 => []
  | remaining + 1 =>
    (libcalls + j * sizeofRecord) ::
      if ¬Inside (libcalls + j * sizeofRecord) ∨
          (p.libcalls (libcalls + j * sizeofRecord)).magic ≠ edgeMagicNumber then []
      else edgeReads p libcalls (j + 1) remaining

/-- The records that the outer loop looks at. A node past the end of the listing is entered there
as well, and the loop goes on. -/
def verifyReads (p : Pool) (startNode : Nat) : (remaining : Nat) → List Nat
  | 0 => []
  | remaining + 1 =>
    startNode ::
      if ¬Inside startNode ∨ (p.progstate startNode).magic ≠ nodeMagicNumber then []
      else
        let libcalls := startNode + sizeofRecord
        let numLibcalls := (p.progstate startNode).numLibcalls.toNat
        edgeReads p libcalls 0 numLibcalls ++
          match verifyEdges p libcalls 0 libcalls numLibcalls with
          | .done startNode => verifyReads p startNode remaining
          | _ => []

/-- The records that `verify_graph` inspects, by their offsets in the pool. Where `MALLOC` fails
the first node is written through a null pointer before anything is read. -/
def inspects (mallocOk : Bool) (m : MemGraph) : List Nat :=
  match m.pool with
  | none => []
  | some p =>
    if p.graphFinalized = 0 then []
    else if p.magic ≠ graphMetaMagicNumber then []
    else if m.nodes.isNone ∧ ¬mallocOk then []
    else verifyReads p p.nodesTableOffset.toNat p.numNodes.toNat

/-- The record at `off` is cut off by the end of the pool: the node record itself, or, behind a
node record with the right magic number and some edge records with theirs, the next edge record. -/
inductive CutOff (p : Pool) (off : Nat) : Prop
  | node : ¬Inside off → CutOff p off
  | edge : Inside off → (p.progstate off).magic = nodeMagicNumber →
      EdgesAt p (off + sizeofRecord) es → es.length < (p.progstate off).numLibcalls.toNat →
      ¬Inside (off + sizeofRecord + es.length * sizeofRecord) → CutOff p off

/-- A table that is still unfinished where the pool ends: behind fewer well-formed nodes than
the header announces comes a record that the end of the pool cuts off. -/
def Overruns (p : Pool) : Prop :=
  HeaderOk p ∧ ∃ ns, ns.length < p.numNodes.toNat ∧ TableAt p p.nodesTableOffset.toNat ns ∧
    CutOff p (nodeOffset p.nodesTableOffset.toNat ns ns.length)

theorem nodeFails_outOfPool_iff :
    (∃ o, NodeFails p off (.error (.outOfPool o))) ↔ CutOff p off := by
  apply Iff.intro
  · intro hx
    obtain ⟨o, h⟩ := hx
    cases h with
    | outside ho => exact .node ho
    | edgeOutside hi hm hes hl ho => exact .edge hi hm hes hl ho
  · intro hx
    rcases hx with ho | ⟨hi, hm, hes, hl, ho⟩
    · exact ⟨_, .outside ho⟩
    · exact ⟨_, .edgeOutside hi hm hes hl ho⟩

/-- With room in the listing for every node the model stops at a record outside of the pool. -/
theorem verifyGraph_outOfPool_iff {m : MemGraph} (hp : m.pool = some p)
    (hl : p.numNodes.toNat ≤ (m.listingFor p).slots) :
    (∃ o, (verifyGraph m).1 = .error (.outOfPool o)) ↔ Overruns p := by
  by_cases hh : HeaderOk p
  · apply Iff.intro
    · intro hx
      obtain ⟨o, ho⟩ := hx
      obtain ⟨x, hends, hrun⟩ := verifyGraph_ends hp hh
      rw [hrun] at ho
      cases hends with
      | accepted => simp at ho
      | outOfListing => simp at ho
      | @fails x ns hlt ht hs hx =>
        refine ⟨hh, ns, hlt, ht, nodeFails_outOfPool_iff.1 ⟨o, ?_⟩⟩
        rwa [← show x = _ from ho]
    · intro hx
      obtain ⟨-, ns, hlt, ht, hc⟩ := hx
      obtain ⟨o, hx⟩ := nodeFails_outOfPool_iff.2 hc
      have hrun : verifyGraph m = _ :=
        WalkEnds.verifyGraph hp hh (.fails ns hlt ht (by omega) hx)
      exact ⟨o, by rw [hrun]⟩
  · obtain ⟨code, -, he⟩ := verifyGraph_refuses (m := m) fun q hq => by
      rw [hp] at hq
      cases hq
      exact hh
    apply Iff.intro
    · intro hx
      obtain ⟨o, ho⟩ := hx
      rw [he] at ho
      cases ho
    · intro hx
      obtain ⟨hh', -⟩ := hx
      exact (hh hh').elim

theorem edgeReads_inside_iff :
    (∀ off ∈ edgeReads p libcalls j n, Inside off) ↔
      ∀ h, verifyEdges p libcalls j s n ≠ .halt h := by
  induction n generalizing j s with
  | zero => simp [edgeReads, verifyEdges]
  | succ n ih =>
    rw [edgeReads, List.forall_mem_cons]
    by_cases hi : Inside (libcalls + j * sizeofRecord)
    · by_cases hm : (p.libcalls (libcalls + j * sizeofRecord)).magic = edgeMagicNumber
      · simp only [verifyEdges, hi, hm, not_true_eq_false, ne_eq, or_self, ↓reduceIte,
          true_and]
        exact ih
      · simp [verifyEdges, hi, hm]
    · simp [verifyEdges, hi]

theorem verifyNodes_inside_iff (hs : i + n ≤ L.slots) :
    (∀ o, (verifyNodes p L i s n).1 ≠ .error (.outOfPool o)) ↔
      ∀ off ∈ verifyReads p s n, Inside off := by
  induction n generalizing L i s with
  | zero => simp [verifyNodes, verifyReads]
  | succ n ih =>
    have hi : i < L.slots := by omega
    rw [verifyReads, List.forall_mem_cons]
    by_cases hin : Inside s
    · by_cases hm : (p.progstate s).magic = nodeMagicNumber
      · have hedges : (∀ off ∈ edgeReads p (s + sizeofRecord) 0
            (p.progstate s).numLibcalls.toNat, Inside off) ↔
            ∀ h, verifyEdges p (s + sizeofRecord) 0 (s + sizeofRecord)
              (p.progstate s).numLibcalls.toNat ≠ .halt h := edgeReads_inside_iff
        simp only [verifyNodes, Listing.write_eq_ok hi, hin, hm, not_true_eq_false, ne_eq,
          or_self, ↓reduceIte, List.forall_mem_append, hedges, true_and]
        cases he : verifyEdges p (s + sizeofRecord) 0 (s + sizeofRecord)
          (p.progstate s).numLibcalls.toNat with
        | done s' => simpa using ih (by rw [Listing.put_slots]; omega)
        | stop code => simp
        | halt h =>
          obtain ⟨o, rfl⟩ := verifyEdges_halt he
          simp
      · simp [verifyNodes, Listing.write_eq_ok hi, hin, hm]
    · simp [verifyNodes, Listing.write_eq_ok hi, hin]

theorem verifyGraph_inside_iff {m : MemGraph} (hp : m.pool = some p)
    (hl : p.numNodes.toNat ≤ (m.listingFor p).slots) :
    (∀ o, (verifyGraph m).1 ≠ .error (.outOfPool o)) ↔ ∀ off ∈ inspects true m, Inside off := by
  by_cases hf : p.graphFinalized = 0
  · simp [verifyGraph, inspects, hp, hf]
  · by_cases hm : p.magic = graphMetaMagicNumber
    · rw [verifyGraph_headerOk hp ⟨hf, hm⟩]
      simp only [inspects, hp, if_neg hf, hm, ne_eq, not_true_eq_false, and_false, ↓reduceIte]
      exact verifyNodes_inside_iff (by omega)
    · simp [verifyGraph, inspects, hp, hf, hm]

theorem inspects_true_inside_iff {m : MemGraph} (hp : m.pool = some p) :
    (∀ off ∈ inspects true m, Inside off) ↔ ¬Overruns p := by
  let roomy : MemGraph := { m with nodes := some ⟨p.numNodes.toNat, fun _ => none⟩ }
  have hroom : p.numNodes.toNat ≤ (roomy.listingFor p).slots := Nat.le_refl _
  have hinside := verifyGraph_inside_iff (m := roomy) hp hroom
  have hover := verifyGraph_outOfPool_iff (m := roomy) hp hroom
  have hsame : inspects true m = inspects true roomy := by simp [inspects, roomy]
  rw [← hover, not_exists, hsame]
  exact hinside.symm

theorem inspects_false_none {m : MemGraph} (hn : m.nodes = none) : inspects false m = [] := by
  cases hp : m.pool <;> simp [inspects, hp, hn]

theorem inspects_false_some {m : MemGraph} (hn : m.nodes ≠ none) :
    inspects false m = inspects true m := by
  cases hp : m.pool <;> simp [inspects, hp, hn]

theorem inspects_inside_iff {m : MemGraph} (hp : m.pool = some p) (mallocOk : Bool) :
    (∀ off ∈ inspects mallocOk m, Inside off) ↔
      ¬Overruns p ∨ m.nodes = none ∧ mallocOk = false := by
  cases mallocOk with
  | true =>
    rw [inspects_true_inside_iff hp]
    simp
  | false =>
    by_cases hn : m.nodes = none
    · simp [inspects_false_none hn, hn]
    · rw [inspects_false_some hn, inspects_true_inside_iff hp]
      simp [hn]

/-- The tables that are as they should be: a header in order, and as many node records as it
announces, each followed by its edge records. -/
structure WellFormed (p : Pool) (ns : List Node) : Prop where
  header : HeaderOk p
  table : TableAt p p.nodesTableOffset.toNat ns
  numNodes : ns.length = p.numNodes.toNat

theorem WellFormed.not_overruns (h : WellFormed p ns) : ¬Overruns p := by
  let roomy : MemGraph := { MemGraph.initial with
    pool := some p, nodes := some ⟨p.numNodes.toNat, fun _ => none⟩ }
  have hroom : p.numNodes.toNat ≤ (roomy.listingFor p).slots := Nat.le_refl _
  have hrun := verifyGraph_eq_one_iff.2
    ⟨p, ns, rfl, h.header, h.table, h.numNodes, h.numNodes ▸ hroom, rfl⟩
  rw [← verifyGraph_outOfPool_iff (m := roomy) rfl hroom]
  intro hx
  obtain ⟨o, ho⟩ := hx
  rw [hrun] at ho
  cases ho

theorem WellFormed.loaded {data : Bytes} (h : WellFormed data ns)
    (hoff : (Pool.nodesTableOffset data).toNat ≤ memoryPoolSize) :
    WellFormed (loadedPool data memoryPoolSize) ns := by
  have hheader : (loadedPool data memoryPoolSize).header = Pool.header data :=
    Pool.header_congr (copy_agree_data (by decide))
  obtain ⟨hf, hm, hn, ht⟩ := Pool.header_eq_iff.1 hheader
  refine ⟨⟨by rw [hf]; exact h.header.finalized, by rw [hm]; exact h.header.magic⟩, ?_, ?_⟩
  · rw [ht]
    exact h.table.congr (copy_agree_data (h.table.end_le hoff)).symm
  · rw [hn]
    exact h.numNodes

/-- On a fresh pool `verify_graph` inspects only records inside of it for exactly the buffers
whose table is not cut off by the end of the pool, and where it finds no memory for the listing. -/
theorem initializeGraph_inside_iff (build : Build) (data : Bytes) (size : Nat) (m : MemGraph)
    (mallocOk : Bool) (hm : m.pool = none) (h₁ : 1 ≤ size) (h₂ : size ≤ memoryPoolSize) :
    initializeGraph build (some data) size m = verifyLoaded build (m.copied data size) ∧
      ((∀ off ∈ inspects mallocOk (m.copied data size), Inside off) ↔
        ¬Overruns (loadedPool data size) ∨ m.nodes = none ∧ mallocOk = false) := by
  constructor
  · exact initializeGraph_copied h₁ h₂
  · rw [inspects_inside_iff (m.copied_pool_of_none data size hm) mallocOk, MemGraph.copied_nodes]

/-- A finalized header that puts a table of one node behind the end of the pool. -/
def overrunBuffer : Bytes :=
  writeWord (writeWord (emptyPool.setGraphFinalized 1) 64 1) 72 (UInt64.ofNat memoryPoolSize)

theorem overrunBuffer_overruns :
    ¬∀ off ∈ inspects true (MemGraph.initial.copied overrunBuffer nodeTableOffset), Inside off := by
  intro h
  have hout : ¬Inside memoryPoolSize := by decide
  exact hout (h memoryPoolSize (by decide +kernel))

/-- A finalized table of one node, with an edge from the node to itself. -/
def oneNodePool : Pool :=
  let p := emptyPool.putProgstate 88 ⟨nodeMagicNumber, 0, 1⟩
  let p := p.putLibcalls 112 ⟨edgeMagicNumber, 7, 0⟩
  (p.setNumNodes 1).setGraphFinalized 1

theorem oneNodePool_wellFormed : WellFormed oneNodePool [⟨0, [⟨7, 0⟩]⟩] := by
  have hoff : oneNodePool.nodesTableOffset.toNat = 88 := by decide +kernel
  refine ⟨⟨by decide +kernel, by decide +kernel⟩, ?_, by decide +kernel⟩
  rw [hoff]
  exact ⟨⟨by decide, by decide +kernel, by decide +kernel, by decide +kernel,
    ⟨by decide, by decide +kernel⟩, trivial⟩, trivial⟩

/-- The two records of such a table. -/
theorem initializeGraph_inside_oneNode :
    inspects true (MemGraph.initial.copied oneNodePool memoryPoolSize) = [88, 112] ∧
      ∀ off ∈ inspects true (MemGraph.initial.copied oneNodePool memoryPoolSize), Inside off := by
  have hloaded := oneNodePool_wellFormed.loaded (by decide +kernel)
  have hinside := (initializeGraph_inside_iff .kernel oneNodePool memoryPoolSize MemGraph.initial
    true rfl (by decide) (Nat.le_refl _)).2
  exact ⟨by decide +kernel, hinside.2 (.inl hloaded.not_overruns)⟩

end LibcSandbox
