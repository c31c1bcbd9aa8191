import LibcSandbox.Pass.Names
import LibcSandbox.Pass.Soundness
import LibcSandbox.Pass.Words

namespace LibcSandbox
open Library
set_option autoImplicit true

variable {G : Graaf} {r : FileToMapReader} {m : IRModule}
  {records : List (String × FuncBBGraphMeta G)}

theorem libcCallGraphs_graph (h : r.libcCallGraphs m = some records) (hf : f ∈ m.functions)
    (hp : f.Processed) :
    ∃ m₁ m₂ ms, expandBBGraph (r.generateCallGraph (f.body hp.1) : FuncBBGraphMeta G) = some m₁ ∧
      convertBBGraphToLibcCallGraph m₁ = some (m₂, ms) ∧
      (FuncMap.ofList records).graph f.getName = m₂.libcCallGraph := by
  have hkeys : ((r.funcBBToMetaMap m : List (String × FuncBBGraphMeta G)).map Prod.fst).Nodup := by
    apply List.Nodup.sublist _ m.distinct
    rw [FileToMapReader.funcBBToMetaMap]
    induction m.functions with
    | nil => exact .slnil
    | cons f fs ih =>
      rw [List.filterMap_cons, List.map_cons]
      cases hmeta : (r.funcMeta f : Option (String × FuncBBGraphMeta G)) with
      | none => exact ih.cons _
      | some e =>
        have hname : e.1 = f.getName := by
          rw [FileToMapReader.funcMeta] at hmeta
          split at hmeta
          · cases hmeta
          · split at hmeta
            · cases hmeta
            · cases hmeta
              rfl
        rw [List.map_cons, hname]
        exact ih.cons_cons _
  have hlookup : (r.funcBBToMetaMap m : List (String × FuncBBGraphMeta G)).lookup f.getName =
      some (r.generateCallGraph (f.body hp.1)) :=
    (lookup_eq_some_iff_mem hkeys).2 (mem_funcBBToMetaMap.2 ⟨f, hf, hp, rfl, rfl⟩)
  rw [FileToMapReader.libcCallGraphs, Option.bind_eq_bind, Option.bind_eq_some_iff] at h
  obtain ⟨expanded, hexpanded, hconverted⟩ := h
  obtain ⟨m₁, h₁, hI, -⟩ := expandBBGraph_some
    (generateCallGraph_bbGraph (G := G) r (f.body hp.1)).inv
  obtain ⟨m₂, ms, h₂, -⟩ := convertBBGraphToLibcCallGraph_some hI
  refine ⟨m₁, m₂, ms, h₁, h₂, ?_⟩
  have hlast : records.lookup f.getName = some m₂ := by
    rw [lookup_replaceRecords hconverted, lookup_replaceRecords hexpanded, hlookup]
    simp only [Option.bind_some, h₁, h₂, Option.map_some]
  rw [FuncMap.graph, FuncMap.get, FuncMap.ofList, hlast]
  rfl

/-- A hyphen in a name comes from the expansion only. -/
theorem ModuleFunction.chainNamesFree {f : ModuleFunction} (hb : f.blocks ≠ [])
    (h : ∀ bb ∈ f.blocks, '-' ∉ bb.operand.text) :
    ChainNamesFree fun b => b ∈ (f.body hb).blocks.map NamedBlock.getName := by
  have hname {b : String} (hmem : b ∈ (f.body hb).blocks.map NamedBlock.getName) :
      ∃ text, '-' ∉ text ∧ b.toList = '[' :: (f.getName.toList ++ ']' :: '%' :: text) := by
    obtain ⟨_, hbb, rfl⟩ := List.mem_map.1 hmem
    obtain ⟨bb, hsource, rfl⟩ := List.mem_map.1 hbb
    exact ⟨_, h bb hsource, toList_blockName f.getName bb.operand⟩
  intro b b' hmem hmem' k
  obtain ⟨text, -, hb⟩ := hname hmem
  obtain ⟨text', hno, hb'⟩ := hname hmem'
  have hne (s : String) (hs : s.toList.head? = some '-') : b' ≠ b ++ s ++ toString k := by
    intro heq
    have hlist := congrArg String.toList heq
    rw [String.toList_append, String.toList_append, hb, hb'] at hlist
    simp only [List.cons_append, List.append_assoc, List.cons.injEq, true_and,
      List.append_cancel_left_eq] at hlist
    apply hno
    rw [hlist]
    apply List.mem_append_right
    exact List.mem_append_left _ (List.mem_of_mem_head? hs)
  exact ⟨hne "-libc_" (by simp), hne "-user_" (by simp)⟩

/-- The calls are an order of calls in the expanded graph of the function. They are one in the graph
that is kept too, from where the first block has got to, if no merge loses a label. -/
def FileToMapReader.Accounts (r : FileToMapReader) (f : DefinedFunction) (g : LibcCallgraph G)
    (calls : List String) : Prop :=
  ∃ m₁ m₂ ms, expandBBGraph (r.generateCallGraph f) = some m₁ ∧
    convertBBGraphToLibcCallGraph m₁ = some (m₂, ms) ∧ g = m₂.libcCallGraph ∧
    f.Shows r m₁.bbExpandedGraph calls ∧
    (EveryStep follow MergeKeeps (m₁.bbExpandedGraph, f.blockName 0) ms →
      ∃ t, Path g.Edge (ms.foldl follow (m₁.bbExpandedGraph, f.blockName 0)).2 calls t)

theorem DefinedFunction.Executes.accounts {f : DefinedFunction} {m₁ m₂ : FuncBBGraphMeta G}
    (h : f.Executes is) (hn : ChainNamesFree fun b => b ∈ f.blocks.map NamedBlock.getName)
    (h₁ : expandBBGraph (r.generateCallGraph f) = some m₁)
    (h₂ : convertBBGraphToLibcCallGraph m₁ = some (m₂, ms)) :
    r.Accounts f m₂.libcCallGraph (r.getLibraryCalls is) := by
  obtain ⟨m₁', h₁', hshows⟩ := shows_expanded_iff (G := G) r hn
  cases h₁.symm.trans h₁'
  have hshown := (hshows _).2 ((executes_iff_trail r f _).1 ⟨is, h, rfl⟩)
  refine ⟨m₁, m₂, ms, h₁, h₂, rfl, hshown, fun hkeep => ?_⟩
  obtain ⟨m₁', h₁', hI, -⟩ := expandBBGraph_some (generateCallGraph_bbGraph (G := G) r f).inv
  cases h₁.symm.trans h₁'
  obtain ⟨m₂', ms', h₂', hI', hgraph, hmerges⟩ := convertBBGraphToLibcCallGraph_some hI
  cases h₂.symm.trans h₂'
  obtain ⟨bb, -, -, w', hpath, hvisible⟩ := hshown
  have hwords := (follow_everyState_keepsWords (s := (m₁.bbExpandedGraph, f.blockName 0)) hI hmerges
    hkeep).last
  obtain ⟨w, t, hw, hsame⟩ := hwords.words w' _ hpath
  rw [foldl_follow_fst, ← hgraph] at hw
  -- After the merges no edge is silent.
  have hall := hw.visible_eq_self fun u l v => convertBBGraphToLibcCallGraph_done hI h₂
  rw [← hvisible, ← hsame, hall]
  exact ⟨t, hw⟩

/-- An execution of a program is made up of what its functions execute themselves from when they are
entered to when they return, and what each of them calls meanwhile is accounted for by its graph. -/
theorem execution_accounted {main : ModuleFunction} (hgraphs : r.libcCallGraphs m = some records)
    (hmain : main ∈ m.functions)
    (hrun : Run Instruction.control m.code (.routines [main.ir.code]) w) :
    ∃ as : List (Activation Instruction), w.Perm (as.flatMap Activation.own) ∧ ∀ a ∈ as, ∃ f ∈ m.functions,
      a.routine = f.ir.code ∧ ∀ hp : f.Processed,
        (ChainNamesFree fun b => b ∈ (f.body hp.1).blocks.map NamedBlock.getName) →
          (f.body hp.1).Executes a.own ∧
          r.Accounts (f.body hp.1) ((FuncMap.ofList records).graph f.getName)
            (r.getLibraryCalls a.own) := by
  obtain ⟨_, as, h, rfl⟩ := run_iff_activates.1 hrun
  refine ⟨as, h.perm, fun a ha => ?_⟩
  have hmem : a.routine ∈ m.code := by
    apply h.mem _ a ha
    rintro _ ⟨⟩ f hf
    rw [List.mem_singleton.1 hf, IRModule.code, List.map_map]
    exact List.mem_map_of_mem hmain
  rw [IRModule.code, List.map_map] at hmem
  obtain ⟨f, hf, hroutine⟩ := List.mem_map.1 hmem
  refine ⟨f, hf, hroutine.symm, fun hp hn => ?_⟩
  have hcode : a.routine.blocks = (f.body hp.1).code := by
    rw [← hroutine, DefinedFunction.code]
    simp [IRFunction.code, ModuleFunction.ir, ModuleFunction.body, nameBasicBlocks]
  have hexecutes : (f.body hp.1).Executes a.own := by
    obtain ⟨block, hblock, hown⟩ := h.valid.2 a ha
    rw [hcode] at hblock hown
    rw [DefinedFunction.Executes, blockAt_of_getElem? hblock]
    exact hown
  obtain ⟨m₁, m₂, ms, h₁, h₂, hgraph⟩ := libcCallGraphs_graph hgraphs hf hp
  rw [hgraph]
  exact ⟨hexecutes, hexecutes.accounts hn h₁ h₂⟩

theorem losesNoLabel_of_last {g : LibcCallgraph G} (hne : a ≠ b) (hout : ∀ l t, ¬g.Edge b l t)
    (hin : ∀ u l, g.Edge u l b → u = a) (S : String → Prop) : LosesNoLabel g S (a, b) where
  distinct := fun h => absurd h hne
  selfLoop := fun l _ he => absurd he (hout l b)
  outgoing := fun l _ t _ _ he => absurd he (hout l t)
  incoming := fun l _ u _ hu _ he => absurd (hin u l he) hu

/-- A main function that prints a line and goes on to its end. -/
def printMain : ModuleFunction where
  getName := "main"
  blocks := [
    ⟨.number 0, ⟨[.other, callPuts, .branch [1]], [.other, callPuts], .branch [1], rfl, rfl,
      by decide⟩⟩,
    ⟨.number 1, ⟨[.other, .other, .other, .ret], [.other, .other, .other], .ret, rfl, rfl,
      by decide⟩⟩]
  distinct := by decide +kernel
  inside := by decide
  entry := by decide

def printModule : IRModule := ⟨[printMain], by decide⟩

theorem printMain_processed : printMain.Processed := ⟨by decide, by decide +kernel⟩

theorem printMain_calls : putsReader.bbToLibcMap (printMain.body printMain_processed.1) =
    [("[main]%0", ["libc:puts"])] := by
  apply List.perm_singleton.1
  have hperm := putsReader.bbToLibcMap_perm (printMain.body printMain_processed.1)
  have hcalls : (((printMain.body printMain_processed.1).blocks.map fun bb =>
      (bb.getName, putsReader.getLibraryCalls bb.block.instructions)).filter
        fun e => !e.2.isEmpty) = [("[main]%0", ["libc:puts"])] := by
    decide +kernel
  rwa [hcalls] at hperm

theorem printMain_free : ChainNamesFree fun b =>
    b ∈ (printMain.body printMain_processed.1).blocks.map NamedBlock.getName :=
  ModuleFunction.chainNamesFree _ (by decide +kernel)

theorem printMain_converted :
    (expandBBGraph (putsReader.generateCallGraph (printMain.body printMain_processed.1) :
      FuncBBGraphMeta listGraaf)).bind (fun m => (convertBBGraphToLibcCallGraph m).map fun x =>
        (m.bbExpandedGraph.edges, x.2)) =
      some ([("[main]%0-libc_1", "control", "[main]%1"),
        ("[main]%0", "libc:puts", "[main]%0-libc_1")], [("[main]%0-libc_1", "[main]%1")]) := by
  rw [FileToMapReader.generateCallGraph, printMain_calls]
  decide +kernel

theorem printModule_accounted : ∃ (records : List (String × FuncBBGraphMeta listGraaf))
    (as : List (Activation Instruction)), putsReader.libcCallGraphs printModule = some records ∧
      [.other, callPuts, .branch [1], .other, .other, .other, .ret].Perm (as.flatMap Activation.own) ∧
      ∀ a ∈ as, ∃ s t, Path ((FuncMap.ofList records).graph "main").Edge s
        (putsReader.getLibraryCalls a.own) t := by
  obtain ⟨records, hrecords, -⟩ := libcCallGraphs_some (G := listGraaf) putsReader printModule
  have hputs : MayCall printModule.code callPuts.control [] := by
    apply mayCall_nil
    decide +kernel
  have hother : MayCall printModule.code Instruction.other.control [] := rfl
  have hlast : Run Instruction.control printModule.code
      (.rest printMain.ir.code.blocks [.other, .other, .other, .ret])
      [.other, .other, .other, .ret] :=
    .instruction (u := []) hother .nil (.instruction (u := []) hother .nil
      (.instruction (u := []) hother .nil (.ret rfl)))
  have hbody : Run Instruction.control printModule.code
      (.rest printMain.ir.code.blocks [.other, callPuts, .branch [1]])
      [.other, callPuts, .branch [1], .other, .other, .other, .ret] :=
    .instruction (u := []) hother .nil
      (.instruction (u := []) hputs .nil (.branch rfl List.mem_cons_self rfl hlast))
  have hrun : Run Instruction.control printModule.code (.routines [printMain.ir.code])
      [.other, callPuts, .branch [1], .other, .other, .other, .ret] :=
    .routine (v := []) rfl hbody .nil
  obtain ⟨as, hperm, has⟩ := execution_accounted hrecords (List.mem_singleton.2 rfl) hrun
  refine ⟨records, as, hrecords, hperm, fun a ha => ?_⟩
  obtain ⟨f, hf, -, haccounts⟩ := has a ha
  obtain rfl := List.mem_singleton.1 hf
  obtain ⟨-, m₁, m₂, ms, h₁, h₂, -, -, hkeep⟩ :=
    haccounts printMain_processed printMain_free
  obtain ⟨m₁', h₁', hI, -⟩ := expandBBGraph_some (generateCallGraph_bbGraph (G := listGraaf)
    putsReader (printMain.body printMain_processed.1)).inv
  cases h₁.symm.trans h₁'
  have hconv := printMain_converted
  rw [h₁, Option.bind_some, h₂, Option.map_some, Option.some.injEq, Prod.mk.injEq] at hconv
  obtain ⟨hedges, rfl⟩ := hconv
  have he := hI.edge_of_edges hedges
  obtain ⟨t, ht⟩ := hkeep ⟨fun _ => keepsLabels_iff.2 (losesNoLabel_of_last (by decide)
    (by simp [he]) (by simp [he]) _), trivial⟩
  exact ⟨_, t, ht⟩

end LibcSandbox
