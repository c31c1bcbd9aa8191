import LibcSandbox.Pass.CombineGraphs
import LibcSandbox.Pass.Instrument
import LibcSandbox.Pass.Trace

namespace LibcSandbox
open Library
set_option autoImplicit true

variable {G : Graaf}

/-- A block with the name that `nameBasicBlocks` has given it. -/
structure NamedBlock where
  getName : String
  block : BasicBlock

def NamedBlock.getTerminator (bb : NamedBlock) : Option Instruction :=
  bb.block.instructions.getLast?

def NamedBlock.isReturn (bb : NamedBlock) : Bool := bb.getTerminator.any Instruction.isReturnInst

def Instruction.successors : Instruction → List Nat
  | .branch successors => successors
  | _ => []

def NamedBlock.successors (bb : NamedBlock) : List Nat :=
  (bb.getTerminator.map Instruction.successors).getD []

/-- A function with a body. Its blocks have different names and are what the branches lead to, of
which none leads to the first block. -/
structure DefinedFunction where
  blocks : List NamedBlock
  nonempty : blocks ≠ []
  distinct : (blocks.map NamedBlock.getName).Nodup
  inside : ∀ bb ∈ blocks, ∀ i ∈ bb.successors, i < blocks.length
  entry : ∀ bb ∈ blocks, 0 ∉ bb.successors

/-- Every branch to the block counts. -/
def DefinedFunction.hasNPredecessors (f : DefinedFunction) (i n : Nat) : Bool :=
  (f.blocks.map fun bb => bb.successors.count i).sum = n

def DefinedFunction.blockName (f : DefinedFunction) (i : Nat) : String :=
  (f.blocks[i]?.map NamedBlock.getName).getD ""

/-- The body of the first loop over the blocks of a function in `runOnModule`. -/
def FileToMapReader.addBlock (r : FileToMapReader) (f : DefinedFunction) (m : FuncBBGraphMeta G)
    (bb : NamedBlock × Nat) : FuncBBGraphMeta G :=
  let name := bb.1.getName
  let hasFuncCall := !(r.getLibraryCalls bb.1.block.instructions).isEmpty
  let m :=
    if f.hasNPredecessors bb.2 0 then
      { m with entryNode := name, bbGraph := (m.bbGraph.addVertex name hasFuncCall).2 }
    else m
  if bb.1.isReturn then
    { m with exitNode := name, bbGraph := (m.bbGraph.addVertex name hasFuncCall).2 }
  else { m with bbGraph := (m.bbGraph.addVertex name hasFuncCall).2 }

/-- The body of the second loop. -/
def addSuccessors (f : DefinedFunction) (g : LibcCallgraph G) (bb : NamedBlock) :
    LibcCallgraph G :=
  bb.successors.foldl (fun g i => g.addEdge bb.getName (f.blockName i) "control") g

/-- What the third loop puts into the map. -/
def FileToMapReader.bbToLibcMap (r : FileToMapReader) (f : DefinedFunction) :
    List (String × List String) :=
  ((f.blocks.map fun bb => (bb.getName, r.getLibraryCalls bb.block.instructions)).filter
    fun e => !e.2.isEmpty).mergeSort fun e e' => e.1 ≤ e'.1

/-- The record of a function as `runOnModule` builds it. -/
def FileToMapReader.generateCallGraph (r : FileToMapReader) (f : DefinedFunction) :
    FuncBBGraphMeta G :=
  let m := f.blocks.zipIdx.foldl (r.addBlock f) .empty
  { m with
    bbGraph := f.blocks.foldl (addSuccessors f) m.bbGraph
    bbToLibcMap := r.bbToLibcMap f }

/-- No block but the first is without predecessors. -/
def DefinedFunction.SingleEntry (f : DefinedFunction) : Prop :=
  ∀ i, 0 < i → i < f.blocks.length → ¬f.hasNPredecessors i 0 = true

/-- At most one block returns. -/
def DefinedFunction.SingleReturn (f : DefinedFunction) : Prop :=
  ∀ bb ∈ f.blocks, ∀ bb' ∈ f.blocks, bb.isReturn = true → bb'.isReturn = true → bb = bb'

/-- The entry of a record is the first block, and every return is its exit or leads to it. -/
structure FuncBBGraphMeta.EndsOf (m : FuncBBGraphMeta G) (f : DefinedFunction) : Prop where
  entryNode : m.entryNode = f.blockName 0
  exitNode : ∀ bb ∈ f.blocks, bb.isReturn = true →
    bb.getName = m.exitNode ∨ Reaches m.bbGraph.Edge bb.getName m.exitNode

theorem LibcCallgraph.addVertex_twice (g : LibcCallgraph G) (s : String) (b : Bool) :
    ((g.addVertex s b).2.addVertex s b).2 = (g.addVertex s b).2 := by
  cases hs : g.vertexIdMap s with
  | some i =>
    have hsame : (g.addVertex s b).2 = g := by simp only [LibcCallgraph.addVertex, hs]
    rw [hsame, hsame]
  | none =>
    obtain ⟨i, hi⟩ := Option.isSome_iff_exists.1 ((g.vertexIdMap_addVertex s b s).2 (.inl rfl))
    generalize (g.addVertex s b).2 = g' at hi
    simp only [LibcCallgraph.addVertex, hi]

theorem addBlock_eq (r : FileToMapReader) (f : DefinedFunction) (m : FuncBBGraphMeta G)
    (bb : NamedBlock × Nat) :
    r.addBlock f m bb = { m with
      entryNode := if f.hasNPredecessors bb.2 0 then bb.1.getName else m.entryNode
      exitNode := if bb.1.isReturn then bb.1.getName else m.exitNode
      bbGraph := (m.bbGraph.addVertex bb.1.getName
        !(r.getLibraryCalls bb.1.block.instructions).isEmpty).2 } := by
  simp only [FileToMapReader.addBlock]
  split <;> split <;> simp only [LibcCallgraph.addVertex_twice]

theorem foldl_overwrite (p : α → Bool) (v : α → β) (b : β) (xs : List α) :
    xs.foldl (fun b x => if p x then v x else b) b = ((xs.filter p).getLast?.map v).getD b := by
  induction xs using List.reverseRecOn with
  | nil => rfl
  | append_singleton xs x ih =>
    rw [List.foldl_append, List.foldl_cons, List.foldl_nil, ih, List.filter_append]
    cases hp : p x with
    | true => simp [hp]
    | false => simp [hp]

/-- It leaves the variable alone exactly if it never writes, where all it writes is different. -/
theorem foldl_overwrite_eq_iff {p : α → Bool} {v : α → β} {b : β} {xs : List α}
    (hne : ∀ x ∈ xs, v x ≠ b) :
    xs.foldl (fun b x => if p x then v x else b) b = b ↔ ∀ x ∈ xs, ¬p x = true := by
  rw [foldl_overwrite]
  apply Iff.intro
  · intro h x hx hp
    have hmem : x ∈ xs.filter p := List.mem_filter.2 ⟨hx, hp⟩
    obtain ⟨y, hy⟩ := List.getLast?_isSome.2 (List.ne_nil_of_mem hmem) |> Option.isSome_iff_exists.1
    rw [hy] at h
    exact hne y (List.mem_filter.1 (List.mem_of_getLast? hy)).1 h
  · intro h
    rw [List.filter_eq_nil_iff.2 h]
    rfl

theorem foldl_overwrite_cases (p : α → Bool) (v : α → β) (b : β) (xs : List α) :
    xs.foldl (fun b x => if p x then v x else b) b = b ∨
      ∃ x ∈ xs, xs.foldl (fun b x => if p x then v x else b) b = v x := by
  rw [foldl_overwrite]
  cases hlast : (xs.filter p).getLast? with
  | none => exact .inl rfl
  | some x => exact .inr ⟨x, (List.mem_filter.1 (List.mem_of_getLast? hlast)).1, rfl⟩

/-- The graph of the first loop: a vertex for every block, and no edges. -/
structure BlockVertices (g : LibcCallgraph G) (names : List String) : Prop where
  inv : g.Inv
  vertices : ∀ v, (g.vertexIdMap v).isSome ↔ v ∈ names
  noEdges : ∀ u l v, ¬g.Edge u l v

theorem BlockVertices.empty : BlockVertices (LibcCallgraph.empty : LibcCallgraph G) [] where
  inv := .empty
  vertices := fun v => by simp [LibcCallgraph.empty]
  noEdges := by
    rintro u l v ⟨i, j, hi, -⟩
    cases hi

theorem BlockVertices.addVertex {g : LibcCallgraph G} (h : BlockVertices g names) (s : String)
    (b : Bool) : BlockVertices (g.addVertex s b).2 (names ++ [s]) where
  inv := h.inv.addVertex s b
  vertices := by
    intro v
    rw [LibcCallgraph.vertexIdMap_addVertex, h.vertices, List.mem_append, List.mem_singleton,
      or_comm]
  noEdges := by
    intro u l v he
    rw [← LibcCallgraph.label_eq_some_iff, h.inv.label_addVertex,
      LibcCallgraph.label_eq_some_iff] at he
    exact h.noEdges u l v he

theorem addBlocks_vertices (r : FileToMapReader) (f : DefinedFunction)
    (bbs : List (NamedBlock × Nat)) {m : FuncBBGraphMeta G} (h : BlockVertices m.bbGraph names) :
    BlockVertices (bbs.foldl (r.addBlock f) m).bbGraph
      (names ++ bbs.map fun bb => bb.1.getName) := by
  induction bbs generalizing m names with
  | nil => rwa [List.foldl_nil, List.map_nil, List.append_nil]
  | cons bb bbs ih =>
    rw [List.foldl_cons, List.map_cons, List.append_cons]
    apply ih
    rw [addBlock_eq]
    exact h.addVertex _ _

theorem addBlocks_entryNode (r : FileToMapReader) (f : DefinedFunction)
    (bbs : List (NamedBlock × Nat)) (m : FuncBBGraphMeta G) :
    (bbs.foldl (r.addBlock f) m).entryNode =
      bbs.foldl (fun entryNode bb =>
        if f.hasNPredecessors bb.2 0 then bb.1.getName else entryNode) m.entryNode := by
  refine (List.foldl_hom FuncBBGraphMeta.entryNode fun m bb => ?_).symm
  rw [addBlock_eq]

theorem addBlocks_exitNode (r : FileToMapReader) (f : DefinedFunction)
    (bbs : List (NamedBlock × Nat)) (m : FuncBBGraphMeta G) :
    (bbs.foldl (r.addBlock f) m).exitNode =
      bbs.foldl (fun exitNode bb => if bb.1.isReturn then bb.1.getName else exitNode)
        m.exitNode := by
  refine (List.foldl_hom FuncBBGraphMeta.exitNode fun m bb => ?_).symm
  rw [addBlock_eq]

/-- What edges with the label "control" add to a graph that has no others. -/
structure ControlEdges (g : LibcCallgraph G) (names : List String)
    (E : String → String → Prop) : Prop where
  inv : g.Inv
  vertices : ∀ v, (g.vertexIdMap v).isSome ↔ v ∈ names
  edges : ∀ u l v, g.Edge u l v ↔ l = "control" ∧ E u v

theorem ControlEdges.addEdge {g : LibcCallgraph G} (h : ControlEdges g names E) (hs : s ∈ names)
    (ht : t ∈ names) :
    ControlEdges (g.addEdge s t "control") names fun u v => E u v ∨ u = s ∧ v = t where
  inv := h.inv.addEdge _ _ _
  vertices := by
    rw [LibcCallgraph.vertexIdMap_addEdge]
    exact h.vertices
  edges := by
    intro u l v
    rw [← LibcCallgraph.label_eq_some_iff,
      h.inv.label_addEdge ((h.vertices s).2 hs) ((h.vertices t).2 ht)]
    by_cases huv : u = s ∧ v = t
    · obtain ⟨rfl, rfl⟩ := huv
      have hlabel : (g.label u v).getD "control" = "control" := by
        cases hl : g.label u v with
        | none => rfl
        | some l => exact ((h.edges u l v).1 (LibcCallgraph.label_eq_some_iff.1 hl)).1
      rw [if_pos ⟨rfl, rfl⟩, hlabel, Option.some.injEq]
      simp only [and_self, or_true, and_true]
      exact eq_comm
    · rw [if_neg huv, LibcCallgraph.label_eq_some_iff, h.edges]
      simp only [huv, or_false]

/-- The branches of a function, by the names of the blocks. -/
def DefinedFunction.branches (f : DefinedFunction) (bbs : List NamedBlock) :
    List (String × String) :=
  bbs.flatMap fun bb => bb.successors.map fun i => (bb.getName, f.blockName i)

theorem ControlEdges.addEdges {g : LibcCallgraph G} (h : ControlEdges g names E)
    (es : List (String × String)) (hes : ∀ e ∈ es, e.1 ∈ names ∧ e.2 ∈ names) :
    ControlEdges (es.foldl (fun g e => g.addEdge e.1 e.2 "control") g) names
      fun u v => E u v ∨ (u, v) ∈ es := by
  induction es generalizing g E with
  | nil => simpa using h
  | cons e es ih =>
    rw [List.forall_mem_cons] at hes
    have h' := ih (h.addEdge hes.1.1 hes.1.2) hes.2
    refine ⟨h'.inv, h'.vertices, fun u l v => ?_⟩
    rw [List.foldl_cons, h'.edges, List.mem_cons, or_assoc, Prod.ext_iff]

theorem addSuccessors_foldl (f : DefinedFunction) (bbs : List NamedBlock) (g : LibcCallgraph G) :
    bbs.foldl (addSuccessors f) g =
      (f.branches bbs).foldl (fun g e => g.addEdge e.1 e.2 "control") g := by
  rw [DefinedFunction.branches, List.foldl_flatMap]
  congr 1
  funext g bb
  rw [addSuccessors, List.foldl_map]

theorem DefinedFunction.blockName_mem (f : DefinedFunction) (h : i < f.blocks.length) :
    f.blockName i ∈ f.blocks.map NamedBlock.getName := by
  rw [blockName, List.getElem?_eq_getElem h]
  exact List.mem_map_of_mem (List.getElem_mem h)

theorem DefinedFunction.mem_branches (f : DefinedFunction) :
    (u, v) ∈ f.branches f.blocks ↔
      ∃ bb ∈ f.blocks, bb.getName = u ∧ ∃ i ∈ bb.successors, f.blockName i = v := by
  simp only [branches, List.mem_flatMap, List.mem_map, Prod.mk.injEq]
  apply Iff.intro
  · rintro ⟨bb, hbb, i, hi, hu, hv⟩
    exact ⟨bb, hbb, hu, i, hi, hv⟩
  · rintro ⟨bb, hbb, hu, i, hi, hv⟩
    exact ⟨bb, hbb, i, hi, hu, hv⟩

/-- The block graph: a vertex for every block and a "control" edge for every branch. -/
theorem generateCallGraph_bbGraph (r : FileToMapReader) (f : DefinedFunction) :
    ControlEdges (r.generateCallGraph f : FuncBBGraphMeta G).bbGraph
      (f.blocks.map NamedBlock.getName) fun u v =>
        ∃ bb ∈ f.blocks, bb.getName = u ∧ ∃ i ∈ bb.successors, f.blockName i = v := by
  have hv : BlockVertices (f.blocks.zipIdx.foldl (r.addBlock f)
      (.empty : FuncBBGraphMeta G)).bbGraph (f.blocks.map NamedBlock.getName) := by
    have hnames : f.blocks.zipIdx.map (fun bb => bb.1.getName) =
        f.blocks.map NamedBlock.getName := by
      rw [← List.zipIdx_map_fst 0 f.blocks, List.map_map, List.zipIdx_map_fst]
      rfl
    rw [← hnames]
    exact addBlocks_vertices r f f.blocks.zipIdx (m := .empty) .empty
  have hempty : ControlEdges (f.blocks.zipIdx.foldl (r.addBlock f)
      (.empty : FuncBBGraphMeta G)).bbGraph (f.blocks.map NamedBlock.getName)
      fun _ _ => False := by
    refine ⟨hv.inv, hv.vertices, fun u l v => ?_⟩
    simp only [hv.noEdges, and_false]
  have hes : ∀ e ∈ f.branches f.blocks,
      e.1 ∈ f.blocks.map NamedBlock.getName ∧ e.2 ∈ f.blocks.map NamedBlock.getName := by
    intro e he
    obtain ⟨bb, hbb, hu, i, hi, hv⟩ := f.mem_branches.1 he
    rw [← hu, ← hv]
    exact ⟨List.mem_map_of_mem hbb, f.blockName_mem (f.inside bb hbb i hi)⟩
  have h := hempty.addEdges (f.branches f.blocks) hes
  rw [← addSuccessors_foldl] at h
  simp only [false_or, f.mem_branches] at h
  exact h

theorem DefinedFunction.getName_inj (f : DefinedFunction) (hbb : bb ∈ f.blocks)
    (hbb' : bb' ∈ f.blocks) (h : bb.getName = bb'.getName) : bb = bb' :=
  List.inj_on_of_nodup_map f.distinct hbb hbb' h

theorem DefinedFunction.entry_hasNPredecessors (f : DefinedFunction) :
    f.hasNPredecessors 0 0 = true := by
  rw [hasNPredecessors, decide_eq_true_eq, List.sum_eq_zero_iff_forall_eq_nat]
  intro n hn
  obtain ⟨bb, hbb, rfl⟩ := List.mem_map.1 hn
  exact List.count_eq_zero.2 (f.entry bb hbb)

/-- The first block has no predecessors, so that only what comes after it matters. -/
theorem generateCallGraph_entryNode (r : FileToMapReader) {f : DefinedFunction}
    (hblocks : f.blocks = first :: rest) :
    (r.generateCallGraph f : FuncBBGraphMeta G).entryNode =
      (rest.zipIdx 1).foldl (fun entryNode bb =>
        if f.hasNPredecessors bb.2 0 then bb.1.getName else entryNode) first.getName := by
  have hrun := addBlocks_entryNode r f f.blocks.zipIdx (.empty : FuncBBGraphMeta G)
  rw [hblocks, List.zipIdx_cons, List.foldl_cons, List.foldl_cons,
    if_pos f.entry_hasNPredecessors] at hrun
  rw [FileToMapReader.generateCallGraph, hblocks]
  exact hrun

/-- The field is left alone after the first block only if no other block is without
predecessors. -/
theorem generateCallGraph_entryNode_iff (r : FileToMapReader) (f : DefinedFunction) :
    (r.generateCallGraph f : FuncBBGraphMeta G).entryNode = f.blockName 0 ↔ f.SingleEntry := by
  obtain ⟨first, rest, hblocks⟩ := List.exists_cons_of_ne_nil f.nonempty
  have hname : f.blockName 0 = first.getName := by
    rw [DefinedFunction.blockName, hblocks]
    rfl
  have hdiffer : ∀ bb ∈ rest.zipIdx 1, bb.1.getName ≠ first.getName := by
    intro bb hbb hsame
    have hd := f.distinct
    rw [hblocks, List.map_cons, List.nodup_cons] at hd
    exact hd.1 (hsame ▸ List.mem_map_of_mem (List.fst_mem_of_mem_zipIdx hbb))
  rw [hname, generateCallGraph_entryNode r hblocks, foldl_overwrite_eq_iff hdiffer]
  apply Iff.intro
  · intro h i hpos hlt
    obtain ⟨i, rfl⟩ := Nat.exists_eq_add_of_lt hpos
    rw [hblocks, List.length_cons] at hlt
    have hi : i < rest.length := by omega
    apply h (rest[i], 0 + i + 1)
    rw [List.mk_mem_zipIdx_iff_le_and_getElem?_sub]
    refine ⟨by omega, ?_⟩
    rw [List.getElem?_eq_some_iff]
    exact ⟨by omega, by simp⟩
  · intro h bb hbb
    obtain ⟨hle, hget⟩ := List.mk_mem_zipIdx_iff_le_and_getElem?_sub.1 hbb
    have hlt := (List.getElem?_eq_some_iff.1 hget).1
    exact h bb.2 hle (by rw [hblocks, List.length_cons]; omega)

theorem generateCallGraph_exitNode (r : FileToMapReader) (f : DefinedFunction) :
    (r.generateCallGraph f : FuncBBGraphMeta G).exitNode =
      ((f.blocks.filter NamedBlock.isReturn).getLast?.map NamedBlock.getName).getD "" := by
  have hrun := addBlocks_exitNode r f f.blocks.zipIdx (.empty : FuncBBGraphMeta G)
  apply hrun.trans
  rw [← foldl_overwrite]
  conv_rhs => rw [← List.zipIdx_map_fst 0 f.blocks, List.foldl_map]
  rfl

theorem NamedBlock.successors_of_isReturn (bb : NamedBlock) (h : bb.isReturn = true) :
    bb.successors = [] := by
  rw [isReturn] at h
  rw [successors]
  cases ht : bb.getTerminator with
  | none => rfl
  | some i =>
    rw [ht, Option.any_some] at h
    cases i with
    | ret => rfl
    | call => cases h
    | branch => cases h
    | other => cases h

theorem generateCallGraph_return_stops (r : FileToMapReader) {f : DefinedFunction}
    (hbb : bb ∈ f.blocks) (hret : bb.isReturn = true)
    (h : Reaches (r.generateCallGraph f : FuncBBGraphMeta G).bbGraph.Edge bb.getName v) :
    v = bb.getName := by
  obtain ⟨w, hw⟩ := h
  cases hw with
  | nil => rfl
  | cons he _ =>
    obtain ⟨-, bb', hbb', hname, i, hi, -⟩ := ((generateCallGraph_bbGraph r f).edges _ _ _).1 he
    rw [f.getName_inj hbb' hbb hname, bb.successors_of_isReturn hret] at hi
    cases hi

theorem generateCallGraph_exitNode_iff (r : FileToMapReader) (f : DefinedFunction)
    {m : FuncBBGraphMeta G} (hm : m = r.generateCallGraph f) :
    (∀ bb ∈ f.blocks, bb.isReturn = true →
      bb.getName = m.exitNode ∨ Reaches m.bbGraph.Edge bb.getName m.exitNode) ↔
      f.SingleReturn := by
  subst hm
  have hlast (bb : NamedBlock) (hbb : bb ∈ f.blocks) (hret : bb.isReturn = true) :
      ∃ bb' ∈ f.blocks, bb'.isReturn = true ∧
        (r.generateCallGraph f : FuncBBGraphMeta G).exitNode = bb'.getName := by
    have hmem : bb ∈ f.blocks.filter NamedBlock.isReturn := List.mem_filter.2 ⟨hbb, hret⟩
    have hsome := List.getLast?_eq_some_getLast (List.ne_nil_of_mem hmem)
    obtain ⟨hbb', hret'⟩ := List.mem_filter.1 (List.mem_of_getLast? hsome)
    exact ⟨_, hbb', hret', by rw [generateCallGraph_exitNode, hsome]; rfl⟩
  apply Iff.intro
  · intro h bb hbb bb' hbb' hret hret'
    have hend (x : NamedBlock) (hx : x ∈ f.blocks) (hr : x.isReturn = true) :
        (r.generateCallGraph f : FuncBBGraphMeta G).exitNode = x.getName := by
      rcases h x hx hr with heq | hpath
      · exact heq.symm
      · exact generateCallGraph_return_stops r hx hr hpath
    exact f.getName_inj hbb hbb' ((hend bb hbb hret).symm.trans (hend bb' hbb' hret'))
  · intro h bb hbb hret
    obtain ⟨bb', hbb', hret', hexit⟩ := hlast bb hbb hret
    rw [h bb hbb bb' hbb' hret hret']
    exact .inl hexit.symm

/-- The entry of the record is the first block and every return can be continued at its exit, if
and only if no other block is without predecessors and at most one block returns. -/
theorem generateCallGraph_endsOf_iff (r : FileToMapReader) (f : DefinedFunction) :
    (r.generateCallGraph f : FuncBBGraphMeta G).EndsOf f ↔ f.SingleEntry ∧ f.SingleReturn := by
  rw [← generateCallGraph_entryNode_iff (G := G) r,
    ← generateCallGraph_exitNode_iff (G := G) r f rfl]
  apply Iff.intro
  · intro h
    exact ⟨h.entryNode, h.exitNode⟩
  · intro hx
    obtain ⟨hentry, hexit⟩ := hx
    exact ⟨hentry, hexit⟩

/-- A block of one instruction. -/
def NamedBlock.single (name : String) (i : Instruction) (h : i.isTerminator = true) :
    NamedBlock where
  getName := name
  block := ⟨[i], [], i, rfl, h, by simp⟩

/-- A return, and behind it a block that nothing leads to and that returns too. -/
def deadReturn : DefinedFunction where
  blocks := [.single "[f]%0" .ret rfl, .single "[f]%1" .ret rfl]
  nonempty := by simp
  distinct := by decide
  inside := by decide
  entry := by decide

/-- The dead block is taken for the entry and for the only exit. -/
theorem deadReturn_ends :
    ¬∀ (r : FileToMapReader) (f : DefinedFunction),
      (r.generateCallGraph f : FuncBBGraphMeta listGraaf).EndsOf f := by
  intro h
  have hentry := (h ⟨fun _ => none, true⟩ deadReturn).entryNode
  have hdead : (FileToMapReader.generateCallGraph ⟨fun _ => none, true⟩ deadReturn :
      FuncBBGraphMeta listGraaf).entryNode = "[f]%1" := by
    decide +kernel
  rw [hdead] at hentry
  exact absurd hentry (by decide)

theorem FileToMapReader.bbToLibcMap_perm (r : FileToMapReader) (f : DefinedFunction) :
    (r.bbToLibcMap f).Perm ((f.blocks.map fun bb =>
      (bb.getName, r.getLibraryCalls bb.block.instructions)).filter fun e => !e.2.isEmpty) :=
  List.mergeSort_perm _ _

theorem FileToMapReader.getLibraryCalls_prefix (r : FileToMapReader) (bb : List Instruction)
    (h : l ∈ r.getLibraryCalls bb) :
    ∃ s ∈ ["libc:", "llvm:", "decl:", "user:"], ∃ name, l = s ++ name := by
  obtain ⟨i, -, hi⟩ := List.mem_filterMap.1 h
  cases i with
  | call callee =>
    cases callee with
    | none => cases hi
    | some callee =>
      simp only [libraryCall] at hi
      split at hi
      · cases hi
        exact ⟨"libc:", by simp, _, rfl⟩
      · split at hi
        · cases hi
          exact ⟨"llvm:", by simp, _, rfl⟩
        · split at hi
          · cases hi
            exact ⟨"decl:", by simp, _, rfl⟩
          · cases hi
            exact ⟨"user:", by simp, _, rfl⟩
  | branch => cases hi
  | ret => cases hi
  | other => cases hi

/-- The record is one that can be expanded, if no block is named like a vertex of a call. -/
theorem generateCallGraph_expandable (r : FileToMapReader) (f : DefinedFunction)
    (hn : ChainNamesFree fun b => b ∈ f.blocks.map NamedBlock.getName) :
    Expandable (r.generateCallGraph f : FuncBBGraphMeta G) := by
  have hg := generateCallGraph_bbGraph (G := G) r f
  have hblock (b : String) : (r.generateCallGraph f : FuncBBGraphMeta G).IsBlock b ↔
      b ∈ f.blocks.map NamedBlock.getName := hg.vertices b
  have hperm := r.bbToLibcMap_perm f
  have hmem (e : String × List String) (he : e ∈ r.bbToLibcMap f) :
      ∃ bb ∈ f.blocks, (bb.getName, r.getLibraryCalls bb.block.instructions) = e ∧ e.2 ≠ [] := by
    obtain ⟨hmap, hcalls⟩ := List.mem_filter.1 (hperm.mem_iff.1 he)
    obtain ⟨bb, hbb, heq⟩ := List.mem_map.1 hmap
    exact ⟨bb, hbb, heq, by simpa using hcalls⟩
  refine ⟨hg.inv, ?_, fun u l v he => ((hg.edges u l v).1 he).1, ?_, ?_, ?_, ?_, ?_⟩
  · obtain ⟨first, rest, hblocks⟩ := List.exists_cons_of_ne_nil f.nonempty
    rw [hblock, generateCallGraph_entryNode r hblocks, hblocks, List.map_cons, List.mem_cons]
    rcases foldl_overwrite_cases (fun bb : NamedBlock × Nat => f.hasNPredecessors bb.2 0)
      (fun bb => bb.1.getName) first.getName (rest.zipIdx 1) with hfirst | ⟨bb, hbb, hlast⟩
    · exact .inl hfirst
    · rw [hlast]
      exact .inr (List.mem_map_of_mem (List.fst_mem_of_mem_zipIdx hbb))
  · intro b b' hb hb'
    exact hn b b' ((hblock b).1 hb) ((hblock b').1 hb')
  · have hkeys := hperm.map Prod.fst
    rw [show (r.generateCallGraph f : FuncBBGraphMeta G).bbToLibcMap = r.bbToLibcMap f from rfl,
      hkeys.nodup_iff]
    apply List.Nodup.sublist _ f.distinct
    have hsub := (List.filter_sublist (p := fun e : String × List String => !e.2.isEmpty)
      (l := f.blocks.map fun bb =>
        (bb.getName, r.getLibraryCalls bb.block.instructions))).map Prod.fst
    rwa [List.map_map] at hsub
  · intro e he
    obtain ⟨bb, hbb, rfl, -⟩ := hmem e he
    exact (hblock _).2 (List.mem_map_of_mem hbb)
  · intro e he
    obtain ⟨bb, hbb, -, hne⟩ := hmem e he
    exact hne
  · intro e he l hl
    obtain ⟨bb, hbb, rfl, -⟩ := hmem e he
    exact r.getLibraryCalls_prefix _ hl

end LibcSandbox
