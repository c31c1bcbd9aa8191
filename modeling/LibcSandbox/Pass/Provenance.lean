import LibcSandbox.Pass.Continuation
import LibcSandbox.Pass.ModuleRun

namespace LibcSandbox
open Library
set_option autoImplicit true

variable {G : Graaf} {g g' : LibcCallgraph G} {funcs : FuncMap G} {r : FileToMapReader}
  {m : IRModule} {hash : String → UInt64} {stack : Nat → Edge}
  {records : List (String × FuncBBGraphMeta G)} {final : Merging G}

/-- The functions whose graphs go into the final one. -/
def FuncMap.Near (funcs : FuncMap G) (f : String) : Prop := f = "main" ∨ funcs.Calls "main" f

/-- A graph put together out of those functions and of "control" edges. -/
def FuncMap.Gathered (funcs : FuncMap G) (g : LibcCallgraph G) : Prop :=
  g.Within (fun v => ∃ f, funcs.Near f ∧ funcs.HasVertex f v)
    fun l => l = "control" ∨ ∃ f, funcs.Near f ∧ ∃ s t, (funcs.graph f).Edge s l t

theorem FuncMap.Gathered.of_near (hI : ∀ f, (funcs.graph f).Inv) (hf : funcs.Near f) :
    funcs.Gathered (funcs.graph f) where
  inv := hI f
  vertices := fun _ hv => ⟨f, hf, hv⟩
  labels := fun u _ v he => .inr ⟨f, hf, u, v, he⟩

theorem FuncMap.Gathered.insertCallee (hd : funcs.Disjoint) (h : funcs.Gathered g)
    (hin : HasInserted funcs done g)
    (he : ∀ f, edge = "user:" ++ f → ∃ t, (funcs.graph "main").Edge entry ("user:" ++ f) t) :
    ∃ g' done', LibcSandbox.insertCallee funcs entry g edge = some g' ∧ funcs.Gathered g' ∧
      HasInserted funcs done' g' := by
  by_cases huser : ∃ f, edge = "user:" ++ f
  · obtain ⟨f, rfl⟩ := huser
    obtain ⟨t, ht⟩ := he f rfl
    obtain ⟨g', hg', hin'⟩ := hin.insertCallee hd ht
    obtain ⟨g₁, front, hg₁, heq⟩ :=
      insertCallee_some hd.inv hin.inv f (hin.edges "main" hin.main entry _ t ht)
    cases hg'.symm.trans heq
    have h₁ := hg₁.within h (FuncMap.Gathered.of_near hd.inv (.inr ⟨entry, t, ht⟩))
    exact ⟨_, _, hg', (h₁.addEdge _ _ (.inl rfl)).addEdge _ _ (.inl rfl), hin'⟩
  · refine ⟨g, done, ?_, h, hin⟩
    rw [LibcSandbox.insertCallee, if_neg fun hl => huser (foundAtStart_user_iff.1 hl)]

theorem FuncMap.Gathered.insertCallees (hd : funcs.Disjoint) (h : funcs.Gathered g)
    (hin : HasInserted funcs done g) (edges : List String)
    (he : ∀ f, "user:" ++ f ∈ edges → ∃ t, (funcs.graph "main").Edge entry ("user:" ++ f) t) :
    ∃ g' done', edges.foldlM (LibcSandbox.insertCallee funcs entry) g = some g' ∧
      funcs.Gathered g' ∧ HasInserted funcs done' g' := by
  induction edges generalizing g done with
  | nil => exact ⟨g, done, rfl, h, hin⟩
  | cons edge edges ih =>
    obtain ⟨g₁, done₁, hg₁, h₁, hin₁⟩ := h.insertCallee hd hin fun f hf =>
      he f (hf ▸ List.mem_cons_self)
    obtain ⟨g', done', hg', h', hin'⟩ := ih h₁ hin₁ fun f hf => he f (List.mem_cons_of_mem _ hf)
    refine ⟨g', done', ?_, h', hin'⟩
    rw [List.foldlM_cons, hg₁]
    exact hg'

theorem FuncMap.Gathered.insertCalleesOf (hd : funcs.Disjoint) (h : funcs.Gathered g)
    (hin : HasInserted funcs done g) (vertices : List String)
    (hv : ∀ s ∈ vertices, funcs.HasVertex "main" s) :
    ∃ g', vertices.foldlM (LibcSandbox.insertCalleesOf funcs) g = some g' ∧ funcs.Gathered g' := by
  induction vertices generalizing g done with
  | nil => exact ⟨g, rfl, h⟩
  | cons entry vertices ih =>
    rw [List.forall_mem_cons] at hv
    obtain ⟨hedges, -, hmem⟩ := hin.inv.outgoing entry
    have hcalls (f : String) (hf : "user:" ++ f ∈ (g.outgoing entry).map Prod.fst) :
        ∃ t, (funcs.graph "main").Edge entry ("user:" ++ f) t := by
      obtain ⟨⟨l, t⟩, hx, hl⟩ := List.mem_map.1 hf
      exact ⟨t, hin.calls entry f t hv.1 ((hmem _ t).1 (hl ▸ hx))⟩
    obtain ⟨g₁, done₁, hg₁, h₁, hin₁⟩ :=
      h.insertCallees hd hin ((g.outgoing entry).map Prod.fst) hcalls
    obtain ⟨g', hg', h'⟩ := ih h₁ hin₁ hv.2
    refine ⟨g', ?_, h'⟩
    rw [List.foldlM_cons, LibcSandbox.insertCalleesOf, hedges]
    change ((((g.outgoing entry).map Prod.fst).foldlM (LibcSandbox.insertCallee funcs entry) g).bind
      fun g => vertices.foldlM (LibcSandbox.insertCalleesOf funcs) g) = some g'
    rw [hg₁]
    exact hg'

theorem gathered_insertCallees (hd : funcs.Disjoint) (hg : insertCallees funcs = some g) :
    funcs.Gathered g := by
  obtain ⟨g', hg', h⟩ := FuncMap.Gathered.insertCalleesOf hd (.of_near hd.inv (.inl rfl))
    (hasInserted_main hd) (funcs.graph "main").getVertices fun s hs =>
      (LibcCallgraph.mem_getVertices (hd.inv "main")).1 hs
  cases hg.symm.trans hg'
  exact h

/-- Main, or a function that main calls by its name. -/
structure FileToMapReader.Included (r : FileToMapReader) (m : IRModule) (f : ModuleFunction) :
    Prop where
  mem : f ∈ m.functions
  processed : f.Processed
  near : f.getName = "main" ∨
    ∃ main ∈ m.functions, main.getName = "main" ∧ r.CallOf main ("user:" ++ f.getName)

theorem graphOf_hasVertex (h : r.libcCallGraphs m = some records)
    (hv : (FuncMap.ofList records).HasVertex s v) :
    ∃ f ∈ m.functions, s = f.getName ∧ r.GraphOf f ((FuncMap.ofList records).graph s) := by
  obtain ⟨records', heq, hgraphs⟩ := libcCallGraphs_some (G := G) r m
  cases h.symm.trans heq
  rcases FuncMap.graph_ofList records s with hempty | ⟨m', hm', hgraph⟩
  · rw [FuncMap.HasVertex, hempty] at hv
    cases hv
  · obtain ⟨f, hf, hs, hg⟩ := hgraphs (s, m') hm'
    rw [hgraph]
    exact ⟨f, hf, hs, hg⟩

theorem included_of_near (h : r.libcCallGraphs m = some records)
    (hn : (FuncMap.ofList records).Near s) (hv : (FuncMap.ofList records).HasVertex s v) :
    ∃ f, r.Included m f ∧ r.GraphOf f ((FuncMap.ofList records).graph s) := by
  obtain ⟨f, hf, rfl, hg⟩ := graphOf_hasVertex h hv
  refine ⟨f, ⟨hf, hg.processed, ?_⟩, hg⟩
  rcases hn with hmain | ⟨u, t, he⟩
  · exact .inl hmain
  · obtain ⟨main, hmem, hname, hgmain⟩ := graphOf_hasVertex h (s := "main") he.isSome.1
    exact .inr ⟨main, hmem, hname.symm, hgmain.within.labels u _ t he⟩

/-- The final graph has the blocks and calls of main and of what main calls, and no others. -/
theorem FileToMapReader.Linked.within (h : r.Linked m records final) :
    final.graph.Within (fun v => ∃ f, r.Included m f ∧ r.VertexOf f v)
      fun l => isTransition l = true ∧ ∃ f, r.Included m f ∧ r.CallOf f l := by
  have hd := libcCallGraphs_disjoint h.graphs
  obtain ⟨g, final', hg, hfinal, -, hgraph, -⟩ := combineLibcgGraph_some hd.inv
  cases h.combined.symm.trans hfinal
  have hw := (gathered_insertCallees hd hg).foldl_combine final.merges
  rw [← hgraph] at hw
  refine ⟨h.inv, fun v hv => ?_, fun u l v he => ?_⟩
  · obtain ⟨s, hs, hv⟩ := hw.vertices v hv
    obtain ⟨f, hf, hg⟩ := included_of_near h.graphs hs hv
    exact ⟨f, hf, hg.within.vertices v hv⟩
  · have htransition := h.transitions u l v he
    rcases hw.labels u l v he with rfl | ⟨s, hs, u', v', he'⟩
    · exact absurd htransition (by decide)
    · obtain ⟨f, hf, hg⟩ := included_of_near h.graphs hs he'.isSome.1
      exact ⟨htransition, f, hf, hg.within.labels u' l v' he'⟩

/-- Where an edge record of the table comes from: from an edge of the final graph, which is a call
of main or of a function that main calls, or from the stack. -/
inductive FileToMapReader.Source (r : FileToMapReader) (hash : String → UInt64)
    (stack : Nat → Edge) (m : IRModule) (g : LibcCallgraph G) : Edge → Prop
  | leftover : k < g.getVertices.length * g.getVertices.length →
    r.Source hash stack m g (stack k)
  | call : g.Edge u l v → isTransition l = true → r.Included m f → r.CallOf f l →
    r.Included m f' → r.VertexOf f' v →
    r.Source hash stack m g ⟨hash v % modulus, libcId r.stringMap l⟩

theorem FileToMapReader.Linked.arrayEntry_source (h : r.Linked m records final)
    (hk : k < final.graph.getVertices.length * final.graph.getVertices.length) :
    r.Source hash stack m final.graph (arrayEntry r.stringMap hash final.graph stack k) := by
  rw [arrayEntry]
  split
  next vertex hvertex =>
    rw [lastEdge]
    split
    next l v hlast =>
      obtain ⟨-, -, hmem⟩ := h.inv.outgoing vertex
      have he : final.graph.Edge vertex l v := (hmem l v).1 (List.mem_of_getLast? hlast)
      obtain ⟨ht, f, hf, hl⟩ := h.within.labels vertex l v he
      obtain ⟨f', hf', hv⟩ := h.within.vertices v he.isSome.2
      exact .call he ht hf hl hf' hv
    next => exact .leftover hk
  next => exact .leftover hk

/-- The section of the program has a node for each vertex, and edges from nowhere else. -/
theorem runOnModule_sources {out : PassOutput G}
    (h : r.runOnModule hash edgeList neighborList m = .ok out) :
    ∃ b : GraphBuffer, b.data = out.data ∧
      b.nodes.length = out.finalGraph.getVertices.length ∧ ∀ n ∈ b.nodes,
      (∃ f v, r.Included m f ∧ r.VertexOf f v ∧ (out.finalGraph.vertexIdMap v).isSome ∧
        n.id = hash v % modulus) ∧
      ∀ e ∈ n.edges,
        r.Source hash (fun k => ⟨neighborList k, edgeList k⟩) m out.finalGraph e := by
  obtain ⟨final, hfinal, hout, hc⟩ := compiled_of_runOnModule h
  obtain ⟨records, final', hl⟩ := linked_some (G := G) r m
  cases hfinal.symm.trans hl.finalGraph
  obtain ⟨b, hdata, -, hnodes⟩ := hc.buffer
  rw [hout] at hnodes ⊢
  refine ⟨b, hdata, by rw [hnodes, length_passTable], fun n hn => ?_⟩
  rw [hnodes] at hn
  obtain ⟨i, hi⟩ := List.mem_iff_getElem?.1 hn
  rw [getElem?_passTable, Option.map_eq_some_iff] at hi
  obtain ⟨vertex, hvertex, rfl⟩ := hi
  obtain ⟨hlt, -⟩ := List.getElem?_eq_some_iff.1 hvertex
  constructor
  · have hv := (LibcCallgraph.mem_getVertices hl.inv).1 (List.mem_of_getElem? hvertex)
    obtain ⟨f, hf, hname⟩ := hl.within.vertices vertex hv
    exact ⟨f, vertex, hf, hname, hv, rfl⟩
  · intro e he
    obtain ⟨k, hk, rfl⟩ := List.mem_map.1 he
    rw [List.mem_range] at hk
    exact hl.arrayEntry_source (Nat.lt_of_lt_of_le hk (Nat.mul_le_mul_right _ hlt))

theorem loopModule_sources : ∃ (out : PassOutput listGraaf) (b : GraphBuffer),
    firstReader.runOnModule (fun _ => 1) (fun _ => 0) (fun _ => 0) loopModule = .ok out ∧
      b.data = out.data ∧ b.nodes.length = 2 ∧ ∀ n ∈ b.nodes,
        (∃ f v, firstReader.Included loopModule f ∧ firstReader.VertexOf f v ∧
          (out.finalGraph.vertexIdMap v).isSome ∧ n.id = 1 % modulus) ∧
        ∀ e ∈ n.edges,
          firstReader.Source (fun _ => 1) (fun _ => ⟨0, 0⟩) loopModule out.finalGraph e := by
  obtain ⟨out, hout, hvertices, -⟩ := loopModule_runs
  obtain ⟨b, hdata, hlength, hsources⟩ := runOnModule_sources hout
  rw [hvertices] at hlength
  exact ⟨out, b, hout, hdata, hlength, hsources⟩

end LibcSandbox
