import LibcSandbox.Kernel.Compiled
import LibcSandbox.Pass.Provenance

namespace LibcSandbox
open Library
set_option autoImplicit true

variable {G : Graaf} {k : Kernel} {r : FileToMapReader} {m : IRModule} {hash : String → UInt64}
  {out : PassOutput G} {results : Nat → InitResult}

theorem vertex_of_policy {g : LibcCallgraph G} (hI : g.Inv)
    (h : (policy stringMap hash g c).isSome) :
    ∃ v, (g.vertexIdMap v).isSome ∧ hash v % modulus = c := by
  obtain ⟨n, hn⟩ := Option.isSome_iff_exists.1 h
  rw [policy, Option.bind_eq_some_iff] at hn
  obtain ⟨target, htarget, -⟩ := hn
  rw [policyTarget, Option.map_eq_some_iff] at htarget
  obtain ⟨e, he, -⟩ := htarget
  have hid := List.find?_some he
  rw [decide_eq_true_eq] at hid
  obtain ⟨vertex, -, hlast⟩ := List.mem_filterMap.1 (List.mem_of_find?_eq_some he)
  obtain ⟨-, -, hmem⟩ := hI.outgoing vertex
  have hedge : g.Edge vertex e.1 e.2 := (hmem e.1 e.2).1 (List.mem_of_getLast? hlast)
  exact ⟨e.2, hedge.isSome.2, hid⟩

theorem Compiled.runsClean_vertex {stack : Nat → Edge} {main : IRFunction} {τ : List Point}
    (h : Compiled r hash stack m out) (hI : out.finalGraph.Inv) (hname : main.name = "main")
    (hrun : Executes (m.functions.map ModuleFunction.ir) main τ) (hk : k.kernelBuffer = none)
    (hslots : k.graph.slotsFor out.finalGraph.getVertices.length = out.finalGraph.getVertices.length)
    (hleft : ∀ c ∈ r.libcalls τ, ¬Leftover out.finalGraph stack c)
    (hres : ∀ i, (results i).Succeeds)
    (hclean : RunsClean (out.syscalls results (τ.flatMap (weave r memoryPoolSize))) k) :
    ∀ c ∈ r.libcalls τ, ∃ v, (out.finalGraph.vertexIdMap v).isSome ∧ hash v % modulus = c := by
  obtain ⟨-, hall, -⟩ := (h.runsClean_iff hname hrun hk hslots hleft hres).1 hclean
  intro c hc
  exact vertex_of_policy hI (hall c hc)

/-- A clean execution calls no library functions but those whose numbers are the hashes of vertices:
of blocks and calls of main and of what main calls. -/
theorem runOnModule_runsClean_hashed {f : ModuleFunction} {τ : List Point}
    (h : r.runOnModule hash edgeList neighborList m = .ok out) (hname : f.getName = "main")
    (hrun : Executes (m.functions.map ModuleFunction.ir) f.ir τ) (hk : k.kernelBuffer = none)
    (hslots : k.graph.slotsFor out.finalGraph.getVertices.length = out.finalGraph.getVertices.length)
    (hleft : ∀ c ∈ r.libcalls τ, ¬Leftover out.finalGraph (fun k => ⟨neighborList k, edgeList k⟩) c)
    (hres : ∀ i, (results i).Succeeds)
    (hclean : RunsClean (out.syscalls results (τ.flatMap (weave r memoryPoolSize))) k) :
    ∀ c ∈ r.libcalls τ, c < modulus ∧
      ∃ f v, r.Included m f ∧ r.VertexOf f v ∧ (out.finalGraph.vertexIdMap v).isSome ∧
        hash v % modulus = c := by
  obtain ⟨final, hfinal, hout, hc⟩ := compiled_of_runOnModule h
  obtain ⟨records, final', hl⟩ := linked_some (G := G) r m
  cases hfinal.symm.trans hl.finalGraph
  have hvertex := hc.runsClean_vertex (hout ▸ hl.inv) hname hrun hk hslots hleft hres hclean
  intro c hmem
  obtain ⟨v, hv, rfl⟩ := hvertex c hmem
  obtain ⟨f, hf, hnamed⟩ := hl.within.vertices v (hout ▸ hv)
  exact ⟨UInt64.mod_lt _ (by decide), f, v, hf, hnamed, hv, rfl⟩

theorem loopModule_runsClean_hashed : ∃ out : PassOutput listGraaf,
    firstReader.runOnModule (fun _ => 1) (fun _ => 0) (fun _ => 0) loopModule = .ok out ∧
      ∀ c ∈ firstReader.libcalls (loopRun 0), c < modulus ∧
        ∃ f v, firstReader.Included loopModule f ∧ firstReader.VertexOf f v ∧
          (out.finalGraph.vertexIdMap v).isSome ∧ 1 % modulus = c := by
  obtain ⟨out, hout, hleft, hfirst⟩ := loopModule_first
  exact ⟨out, hout, runOnModule_runsClean_hashed (f := loopMain) hout rfl (loopRun_executes 0)
    rfl rfl (fun c _ => hleft c) (fun _ => InitResult.done_succeeds) hfirst⟩

end LibcSandbox
