import LibcSandbox.Pass.Names
import LibcSandbox.Pass.PassTable
import LibcSandbox.Pass.Separation

namespace LibcSandbox
open Library
set_option autoImplicit true

variable {G : Graaf} {r : FileToMapReader} {m : IRModule} {hash : String → UInt64}
  {records : List (String × FuncBBGraphMeta G)}

/-- The map of a module is made, and no two of its functions have vertices of the same name. -/
theorem libcCallGraphs_apart (r : FileToMapReader) (m : IRModule) :
    ∃ records, r.libcCallGraphs m = some (records : List (String × FuncBBGraphMeta G)) ∧
      (FuncMap.ofList records).Disjoint := by
  obtain ⟨records, hrecords, -⟩ := libcCallGraphs_some (G := G) r m
  exact ⟨records, hrecords, libcCallGraphs_disjoint hrecords⟩

/-- The final graph of a module: the graphs of main and of what main calls, with nothing left to
merge. -/
structure FileToMapReader.Linked (r : FileToMapReader) (m : IRModule)
    (records : List (String × FuncBBGraphMeta G)) (final : Merging G) : Prop where
  graphs : r.libcCallGraphs m = some records
  finalGraph : r.finalGraph m = some final
  combined : combineLibcgGraph (.ofList records) = some final
  inv : final.graph.Inv
  merged : ∃ g, HasInserted (.ofList records)
    {f | f = "main" ∨ (FuncMap.ofList records).Calls "main" f} g ∧
    final.graph = final.merges.foldl combine g
  transitions : ∀ u l v, final.graph.Edge u l v → isTransition l = true

theorem linked_some (r : FileToMapReader) (m : IRModule) :
    ∃ records final, r.Linked m records (final : Merging G) := by
  obtain ⟨records, hrecords, -⟩ := libcCallGraphs_some (G := G) r m
  have hd := libcCallGraphs_disjoint hrecords
  obtain ⟨g, final, hg, hfinal, hI, hgraph, -, hlabels⟩ := combineLibcgGraph_some hd.inv
  obtain ⟨g', hg', hinserted⟩ := insertCallees_some hd
  cases hg.symm.trans hg'
  have hw : g.Within (fun _ => True) fun _ => True := ⟨hI, fun _ _ => trivial, fun _ _ _ _ => trivial⟩
  refine ⟨records, final, hrecords, ?_, hfinal, ?_, ⟨g, hinserted, hgraph⟩, fun u l v he => ?_⟩
  · rw [FileToMapReader.finalGraph, hrecords]
    exact hfinal
  · rw [hgraph]
    exact (hw.foldl_combine _).inv
  · obtain ⟨hcontrol, huser⟩ := hlabels u l v he
    rw [isTransition, hcontrol, huser]
    rfl

/-- What the pass leaves of a module, by the graph of its calls. -/
structure Compiled (r : FileToMapReader) (hash : String → UInt64) (stack : Nat → Edge)
    (m : IRModule) (out : PassOutput G) : Prop where
  buffer : ∃ b : GraphBuffer, b.data = out.data ∧ b.size = memoryPoolSize ∧
    b.nodes = passTable r.stringMap hash out.finalGraph stack
  functions : out.functions = ((m.functions.map ModuleFunction.ir).map fun f => locate f.code).map
    (Routine.flatMap (weave r memoryPoolSize))
  inserted : out.insertedAtLeastOnePrintf = m.functions.any r.injects

theorem runOnModule_ok {final : Merging G} (hfinal : r.finalGraph m = some final)
    (hn : final.graph.getVertices.length * final.graph.getVertices.length < maxNeighbors)
    (hash : String → UInt64) (edgeList neighborList : Nat → UInt64) :
    ∃ out, r.runOnModule hash edgeList neighborList m = .ok out ∧ out.finalGraph = final.graph ∧
      Compiled r hash (fun k => ⟨neighborList k, edgeList k⟩) m out := by
  obtain ⟨records, final', hl⟩ := linked_some (G := G) r m
  cases hfinal.symm.trans hl.finalGraph
  obtain ⟨b, m', hm', hsize, hnodes⟩ :=
    generateInMemoryGraph_buffer r.stringMap hash hl.inv hn edgeList neighborList
  have hinstrument := r.instrument_eq memoryPoolSize (m.functions.map ModuleFunction.ir)
  rw [← IRModule.code] at hinstrument
  refine ⟨⟨final.graph, ((FuncMap.ofList records).get "main").entryNode, final.exitNode, b.data,
    ((m.functions.map ModuleFunction.ir).map fun f => locate f.code).map
      (Routine.flatMap (weave r memoryPoolSize)), m.functions.any r.injects⟩, ?_, rfl,
    ⟨b, rfl, hsize, hnodes⟩, rfl, rfl⟩
  rw [FileToMapReader.runOnModule, hl.graphs]
  simp only [hl.combined, hm', hinstrument]

theorem runOnModule_abort {final : Merging G} (hfinal : r.finalGraph m = some final)
    (hn : maxNeighbors ≤ final.graph.getVertices.length * final.graph.getVertices.length)
    (hash : String → UInt64) (edgeList neighborList : Nat → UInt64) :
    r.runOnModule hash edgeList neighborList m = (.error .abort : Except Halt (PassOutput G)) := by
  obtain ⟨records, final', hl⟩ := linked_some (G := G) r m
  cases hfinal.symm.trans hl.finalGraph
  have habort := generateInMemoryGraph_abort r.stringMap hash hl.inv hn edgeList neighborList
  rw [FileToMapReader.runOnModule, hl.graphs]
  simp only [hl.combined, habort]

theorem compiled_of_runOnModule {out : PassOutput G}
    (h : r.runOnModule hash edgeList neighborList m = .ok out) :
    ∃ final : Merging G, r.finalGraph m = some final ∧ out.finalGraph = final.graph ∧
      Compiled r hash (fun k => ⟨neighborList k, edgeList k⟩) m out := by
  obtain ⟨_, final, hl⟩ := linked_some (G := G) r m
  refine ⟨final, hl.finalGraph, ?_⟩
  by_cases hn : final.graph.getVertices.length * final.graph.getVertices.length < maxNeighbors
  · obtain ⟨out', hout', hc⟩ := runOnModule_ok hl.finalGraph hn hash edgeList neighborList
    cases h.symm.trans hout'
    exact hc
  · cases h.symm.trans (runOnModule_abort hl.finalGraph (Nat.not_lt.1 hn) hash edgeList neighborList)

/-- The pass is done with a module exactly if the square of the number of vertices of the final
graph is below `MAX_NEIGHBORS`, and fails its assertion otherwise. -/
theorem runOnModule_ends (r : FileToMapReader) (hash : String → UInt64)
    (edgeList neighborList : Nat → UInt64) (m : IRModule) :
    ∃ final : Merging G, r.finalGraph m = some final ∧
      (∀ u l v, final.graph.Edge u l v → isTransition l = true) ∧
      if final.graph.getVertices.length * final.graph.getVertices.length < maxNeighbors then
        ∃ out, r.runOnModule hash edgeList neighborList m = .ok out ∧
          out.finalGraph = final.graph ∧
          Compiled r hash (fun k => ⟨neighborList k, edgeList k⟩) m out
      else r.runOnModule hash edgeList neighborList m = (.error .abort : Except Halt (PassOutput G)) := by
  obtain ⟨_, final, hl⟩ := linked_some (G := G) r m
  refine ⟨final, hl.finalGraph, hl.transitions, ?_⟩
  split
  next hn => exact runOnModule_ok hl.finalGraph hn hash edgeList neighborList
  next hn => exact runOnModule_abort hl.finalGraph (Nat.not_lt.1 hn) hash edgeList neighborList

/-- A main function that prints two lines over and over. -/
def loopMain : ModuleFunction where
  getName := "main"
  blocks := [
    ⟨.number 0,
      ⟨[.branch [1]], [], .branch [1], rfl, rfl, by decide⟩⟩,
    ⟨.number 1,
      ⟨[callPuts, callPuts, .branch [1, 2]], [callPuts, callPuts], .branch [1, 2], rfl, rfl,
        by decide⟩⟩,
    ⟨.number 2, ⟨[.other, .ret], [.other], .ret, rfl, rfl, by decide⟩⟩]
  distinct := by decide +kernel
  inside := by decide
  entry := by decide

def loopModule : IRModule := ⟨[loopMain], by decide⟩

def firstReader : FileToMapReader where
  stringMap name := if name = "puts" then some 1 else none
  loaded := true

theorem loopMain_calls : firstReader.bbToLibcMap (loopMain.body (by decide)) =
    [("[main]%1", ["libc:puts", "libc:puts"])] := by
  apply List.perm_singleton.1
  have hperm := firstReader.bbToLibcMap_perm (loopMain.body (by decide))
  have hcalls : (((loopMain.body (by decide)).blocks.map fun bb =>
      (bb.getName, firstReader.getLibraryCalls bb.block.instructions)).filter
        fun e => !e.2.isEmpty) = [("[main]%1", ["libc:puts", "libc:puts"])] := by
    decide +kernel
  rwa [hcalls] at hperm

theorem loopModule_finalGraph :
    (firstReader.finalGraph loopModule : Option (Merging listGraaf)).map (fun final =>
      (final.graph.getVertices, final.graph.getVertices.map final.graph.outgoing)) =
    some (["[main]%1-libc_1", "[main]%1-libc_2"],
      [[("libc:puts", "[main]%1-libc_2")], [("libc:puts", "[main]%1-libc_1")]]) := by
  have hrecord : (firstReader.funcBBToMetaMap loopModule :
      List (String × FuncBBGraphMeta listGraaf)) =
        [("main", firstReader.generateCallGraph (loopMain.body (by decide)))] := rfl
  rw [FileToMapReader.finalGraph, FileToMapReader.libcCallGraphs, hrecord,
    FileToMapReader.generateCallGraph, loopMain_calls]
  decide +kernel

theorem loopModule_runs : ∃ out : PassOutput listGraaf,
    firstReader.runOnModule (fun _ => 1) (fun _ => 0) (fun _ => 0) loopModule = .ok out ∧
      out.finalGraph.getVertices = ["[main]%1-libc_1", "[main]%1-libc_2"] ∧
      out.finalGraph.getVertices.map out.finalGraph.outgoing =
        [[("libc:puts", "[main]%1-libc_2")], [("libc:puts", "[main]%1-libc_1")]] := by
  obtain ⟨final, hfinal, hgraph⟩ := Option.map_eq_some_iff.1 loopModule_finalGraph
  rw [Prod.mk.injEq] at hgraph
  obtain ⟨out, hout, heq, -⟩ := runOnModule_ok hfinal (by rw [hgraph.1]; decide) (fun _ => 1)
    (fun _ => 0) (fun _ => 0)
  exact ⟨out, hout, by rw [heq, hgraph.1], by rw [heq, hgraph.2]⟩

end LibcSandbox
