import LibcSandbox.Library.Activation
import LibcSandbox.Pass.BlockGraph

namespace LibcSandbox
open Library
set_option autoImplicit true

variable {G : Graaf} {r : FileToMapReader} {f : DefinedFunction}

def DefinedFunction.code (f : DefinedFunction) : List (List Instruction) :=
  f.blocks.map fun bb => bb.block.instructions

theorem Instruction.leaves_iff (i : Instruction) : i.control.Leaves ↔ i.isTerminator = true := by
  cases i with
  | call callee => cases callee <;> simp [control, Control.Leaves, isTerminator]
  | branch => simp [control, Control.Leaves, isTerminator]
  | ret => simp [control, Control.Leaves, isTerminator]
  | other => simp [control, Control.Leaves, isTerminator]

theorem BasicBlock.ends (bb : BasicBlock) : Ends Instruction.control bb.instructions := by
  obtain ⟨is, i, heq, hi, his⟩ := bb.terminated
  refine ⟨is, i, heq, i.leaves_iff.2 hi, fun x hx hleaves => ?_⟩
  rw [x.leaves_iff, his x hx] at hleaves
  cases hleaves

theorem DefinedFunction.ends (f : DefinedFunction) :
    ∀ block ∈ f.code, Ends Instruction.control block := by
  intro block hblock
  obtain ⟨bb, -, rfl⟩ := List.mem_map.1 hblock
  exact bb.block.ends

theorem DefinedFunction.blockAt_code (hk : f.blocks[k]? = some bb) :
    blockAt f.code k = bb.block.instructions := by
  rw [blockAt, code, List.getElem?_map, hk]
  rfl

theorem DefinedFunction.blockName_eq (hk : f.blocks[k]? = some bb) :
    f.blockName k = bb.getName := by
  rw [blockName, hk]
  rfl

theorem Instruction.control_eq_branch (i : Instruction) {successors : List Nat} :
    i.control = .branch successors ↔ i = .branch successors := by
  cases i with
  | call callee => cases callee <;> simp [control]
  | branch => simp [control]
  | ret => simp [control]
  | other => simp [control]

theorem Instruction.control_eq_ret (i : Instruction) :
    i.control = .ret ↔ i.isReturnInst = true := by
  cases i with
  | call callee => cases callee <;> simp [control, isReturnInst]
  | branch => simp [control, isReturnInst]
  | ret => simp [control, isReturnInst]
  | other => simp [control, isReturnInst]

theorem DefinedFunction.leadsTo_iff (hk : f.blocks[k]? = some bb) :
    LeadsTo Instruction.control f.code k k' ↔ k' ∈ bb.successors := by
  rw [LeadsTo, blockAt_code hk, NamedBlock.successors, NamedBlock.getTerminator, code,
    List.length_map]
  apply Iff.intro
  · intro hx
    obtain ⟨i, successors, hi, hcontrol, hmem, -⟩ := hx
    rw [hi, i.control_eq_branch.1 hcontrol]
    exact hmem
  · intro h
    have hlt : k' < f.blocks.length := f.inside bb (List.mem_of_getElem? hk) k' h
    cases hi : bb.block.instructions.getLast? with
    | none =>
      rw [hi] at h
      cases h
    | some i =>
      rw [hi] at h
      cases i with
      | branch successors => exact ⟨_, successors, rfl, rfl, h, hlt⟩
      | call => cases h
      | ret => cases h
      | other => cases h

theorem DefinedFunction.returns_iff (hk : f.blocks[k]? = some bb) :
    Returns Instruction.control f.code k ↔ bb.isReturn = true := by
  rw [Returns, blockAt_code hk, NamedBlock.isReturn, NamedBlock.getTerminator]
  simp only [Instruction.control_eq_ret, Option.any_eq_true]

theorem callsOf_bbToLibcMap (r : FileToMapReader) (hbb : bb ∈ f.blocks) :
    callsOf (r.bbToLibcMap f) bb.getName = r.getLibraryCalls bb.block.instructions := by
  have hperm := r.bbToLibcMap_perm f
  have hkeys : ((r.bbToLibcMap f).map Prod.fst).Nodup := by
    rw [(hperm.map Prod.fst).nodup_iff]
    apply List.Nodup.sublist _ f.distinct
    have hsub := (List.filter_sublist (p := fun e : String × List String => !e.2.isEmpty)
      (l := f.blocks.map fun bb =>
        (bb.getName, r.getLibraryCalls bb.block.instructions))).map Prod.fst
    rwa [List.map_map] at hsub
  have hmem (libCalls : List String) : (r.bbToLibcMap f).lookup bb.getName = some libCalls ↔
      r.getLibraryCalls bb.block.instructions = libCalls ∧ libCalls ≠ [] := by
    rw [lookup_eq_some_iff_mem hkeys, hperm.mem_iff, List.mem_filter, List.mem_map]
    apply Iff.intro
    · rintro ⟨⟨bb', hbb', heq⟩, hne⟩
      rw [Prod.mk.injEq] at heq
      obtain rfl := f.getName_inj hbb' hbb heq.1
      exact ⟨heq.2, by simpa using hne⟩
    · rintro ⟨rfl, hne⟩
      exact ⟨⟨bb, hbb, rfl⟩, by simpa using hne⟩
  rw [callsOf]
  cases hlookup : (r.bbToLibcMap f).lookup bb.getName with
  | some libCalls => exact ((hmem libCalls).1 hlookup).1.symm
  | none =>
    by_cases hne : r.getLibraryCalls bb.block.instructions = []
    · exact hne.symm
    · rw [(hmem _).2 ⟨rfl, hne⟩] at hlookup
      cases hlookup

/-- The trail in the graph of the blocks that goes with a walk. -/
def DefinedFunction.trailOf (f : DefinedFunction) (ks : List Nat) : List (String × String) :=
  ks.map fun k => ("control", f.blockName k)

theorem generateCallGraph_edge (r : FileToMapReader) (hk : f.blocks[k]? = some bb) :
    (r.generateCallGraph f : FuncBBGraphMeta G).bbGraph.Edge (f.blockName k) l v ↔
      l = "control" ∧ ∃ k', LeadsTo Instruction.control f.code k k' ∧ v = f.blockName k' := by
  have hbb := List.mem_of_getElem? hk
  rw [(generateCallGraph_bbGraph r f).edges, DefinedFunction.blockName_eq hk]
  simp only [DefinedFunction.leadsTo_iff hk]
  apply and_congr_right
  intro _
  apply Iff.intro
  · rintro ⟨bb', hbb', hname, k', hk', rfl⟩
    obtain rfl := f.getName_inj hbb' hbb hname
    exact ⟨k', hk', rfl⟩
  · rintro ⟨k', hk', rfl⟩
    exact ⟨bb, hbb, rfl, k', hk', rfl⟩

theorem DefinedFunction.lt_of_leadsTo (h : LeadsTo Instruction.control f.code k k') :
    k' < f.blocks.length := by
  obtain ⟨-, -, -, -, -, hlt⟩ := h
  rwa [code, List.length_map] at hlt

theorem walk_trail (r : FileToMapReader) (h : BlockWalk Instruction.control f.code k ks t)
    (hk : k < f.blocks.length) : t < f.blocks.length ∧
      Trail (r.generateCallGraph f : FuncBBGraphMeta G).bbGraph.Edge (f.blockName k)
        (f.trailOf ks) (f.blockName t) := by
  induction h with
  | nil k => exact ⟨hk, .nil _⟩
  | @cons k x k' ks t he _ ih =>
    obtain ⟨he, rfl⟩ := he
    obtain ⟨ht, htrail⟩ := ih (DefinedFunction.lt_of_leadsTo he)
    refine ⟨ht, .cons ⟨?_, rfl⟩ htrail⟩
    exact (generateCallGraph_edge r (List.getElem?_eq_getElem hk)).2 ⟨rfl, _, he, rfl⟩

theorem trail_walk (r : FileToMapReader)
    (h : Trail (r.generateCallGraph f : FuncBBGraphMeta G).bbGraph.Edge s w v)
    (hs : s = f.blockName k) (hk : k < f.blocks.length) :
    ∃ ks t, BlockWalk Instruction.control f.code k ks t ∧ t < f.blocks.length ∧
      v = f.blockName t ∧ w = f.trailOf ks := by
  induction h generalizing k with
  | nil s => exact ⟨[], k, .nil k, hk, hs, rfl⟩
  | @cons s x v w u he _ ih =>
    obtain ⟨he, rfl⟩ := he
    rw [hs, generateCallGraph_edge r (List.getElem?_eq_getElem hk)] at he
    obtain ⟨hl, k', hleads, hv⟩ := he
    obtain ⟨ks, t, hwalk, ht, hend, rfl⟩ := ih hv (DefinedFunction.lt_of_leadsTo hleads)
    refine ⟨k' :: ks, t, .cons ⟨hleads, rfl⟩ hwalk, ht, hend, ?_⟩
    rw [DefinedFunction.trailOf, DefinedFunction.trailOf, List.map_cons, ← hl, ← hv]

theorem getLibraryCalls_walk (r : FileToMapReader) (ks : List Nat)
    (hks : ∀ k ∈ ks, k < f.blocks.length) :
    r.getLibraryCalls (ks.flatMap (blockAt f.code)) =
      (ks.map f.blockName).flatMap (callsOf (r.bbToLibcMap f)) := by
  induction ks with
  | nil => rfl
  | cons k ks ih =>
    rw [List.forall_mem_cons] at hks
    have hk := List.getElem?_eq_getElem hks.1
    rw [List.flatMap_cons, FileToMapReader.getLibraryCalls, List.filterMap_append,
      ← FileToMapReader.getLibraryCalls, ← FileToMapReader.getLibraryCalls, ih hks.2,
      List.map_cons, List.flatMap_cons, DefinedFunction.blockAt_code hk,
      DefinedFunction.blockName_eq hk, callsOf_bbToLibcMap r (List.getElem_mem hks.1)]

/-- What is executed of a function itself, from its first block to a return. -/
def DefinedFunction.Executes (f : DefinedFunction) (is : List Instruction) : Prop :=
  Own Instruction.control f.code (blockAt f.code 0) is

theorem DefinedFunction.length_pos (f : DefinedFunction) : 0 < f.blocks.length :=
  List.length_pos_iff.2 f.nonempty

theorem executes_iff_trail (r : FileToMapReader) (f : DefinedFunction) (w : List String) :
    (∃ is, f.Executes is ∧ r.getLibraryCalls is = w) ↔
      ∃ bb ∈ f.blocks, bb.isReturn = true ∧ ∃ τ,
        Trail (r.generateCallGraph f : FuncBBGraphMeta G).bbGraph.Edge (f.blockName 0) τ
          bb.getName ∧
        (f.blockName 0 :: τ.map Prod.snd).flatMap (callsOf (r.bbToLibcMap f)) = w := by
  have hlength : f.code.length = f.blocks.length := List.length_map ..
  have hnames (ks : List Nat) : (f.trailOf ks).map Prod.snd = ks.map f.blockName := by
    rw [DefinedFunction.trailOf, List.map_map]
    rfl
  have hcalls {ks : List Nat} {t : Nat} (h : BlockWalk Instruction.control f.code 0 ks t) :
      r.getLibraryCalls ((0 :: ks).flatMap (blockAt f.code)) =
        (f.blockName 0 :: (f.trailOf ks).map Prod.snd).flatMap (callsOf (r.bbToLibcMap f)) := by
    rw [hnames, ← List.map_cons]
    apply getLibraryCalls_walk
    exact List.forall_mem_cons.2 ⟨f.length_pos, fun k hk => hlength ▸ h.lt k hk⟩
  simp only [DefinedFunction.Executes, own_iff_walk f.ends (hlength ▸ f.length_pos)]
  apply Iff.intro
  · rintro ⟨_, ⟨ks, t, hwalk, hret, rfl⟩, rfl⟩
    obtain ⟨ht, htrail⟩ := walk_trail r hwalk f.length_pos
    have hget := List.getElem?_eq_getElem ht
    rw [DefinedFunction.blockName_eq hget] at htrail
    exact ⟨_, List.getElem_mem ht, (DefinedFunction.returns_iff hget).1 hret, _, htrail,
      (hcalls hwalk).symm⟩
  · rintro ⟨bb, hbb, hret, τ, htrail, rfl⟩
    obtain ⟨ks, t, hwalk, ht, hend, rfl⟩ := trail_walk r htrail rfl f.length_pos
    have hget := List.getElem?_eq_getElem ht
    rw [DefinedFunction.blockName_eq hget] at hend
    obtain rfl := f.getName_inj hbb (List.getElem_mem ht) hend
    exact ⟨_, ⟨ks, t, hwalk, (DefinedFunction.returns_iff hget).2 hret, rfl⟩, hcalls hwalk⟩

/-- What an expanded graph shows on the way from the entry to a return. -/
def DefinedFunction.Shows (f : DefinedFunction) (r : FileToMapReader) (g : LibcCallgraph G)
    (w : List String) : Prop :=
  ∃ bb ∈ f.blocks, bb.isReturn = true ∧ ∃ w',
    Path g.Edge (f.blockName 0) w' (lastVertex (r.bbToLibcMap f) bb.getName) ∧
      visible "control" w' = w

/-- The expanded graph shows the calls of the blocks that are visited on the way. -/
theorem shows_expanded_iff (r : FileToMapReader) {f : DefinedFunction}
    (hn : ChainNamesFree fun b => b ∈ f.blocks.map NamedBlock.getName) :
    ∃ m, expandBBGraph (r.generateCallGraph f : FuncBBGraphMeta G) = some m ∧
      ∀ w, f.Shows r m.bbExpandedGraph w ↔ ∃ bb ∈ f.blocks, bb.isReturn = true ∧ ∃ τ,
        Trail (r.generateCallGraph f : FuncBBGraphMeta G).bbGraph.Edge (f.blockName 0) τ
          bb.getName ∧
        (f.blockName 0 :: τ.map Prod.snd).flatMap (callsOf (r.bbToLibcMap f)) = w := by
  have h : Expandable (r.generateCallGraph f : FuncBBGraphMeta G) := generateCallGraph_expandable r f hn
  have hblocks (b : String) : (r.generateCallGraph f : FuncBBGraphMeta G).IsBlock b ↔
      b ∈ f.blocks.map NamedBlock.getName := (generateCallGraph_bbGraph r f).vertices b
  have hentry := (hblocks _).2 (f.blockName_mem f.length_pos)
  obtain ⟨m, hm, hexpanded⟩ := expandBBGraph_expandedBy h
  have hedge : m.bbExpandedGraph.Edge =
      Subdivided (r.generateCallGraph f : FuncBBGraphMeta G).bbGraph.Edge
        (r.generateCallGraph f : FuncBBGraphMeta G).IsBlock (chains (r.bbToLibcMap f)) := by
    funext u l v
    exact propext (hexpanded.edges u l v)
  have hcalls (b : String) : (chains (r.bbToLibcMap f) b).map Prod.fst =
      callsOf (r.bbToLibcMap f) b := map_chainFrom b 1 _
  have hlabels : ∀ b, ∀ x ∈ chains (r.bbToLibcMap f) b, x.1 ≠ "control" := by
    intro b x hx
    obtain ⟨e, he, hl⟩ := mem_callsOf (hcalls b ▸ List.mem_map_of_mem hx)
    exact label_ne_control (h.labels e he x.1 hl)
  have hvisible {τ : List (String × String)} {b : String}
      (hτ : Trail (r.generateCallGraph f : FuncBBGraphMeta G).bbGraph.Edge (f.blockName 0) τ b) :
      visible "control" ((expandTrail (chains (r.bbToLibcMap f)) (f.blockName 0) τ).map Prod.fst) =
        (f.blockName 0 :: τ.map Prod.snd).flatMap (callsOf (r.bbToLibcMap f)) := by
    rw [visible_expandTrail h.control hlabels hτ]
    simp only [hcalls]
  refine ⟨m, hm, fun w => ?_⟩
  rw [DefinedFunction.Shows, hedge]
  apply Iff.intro
  · rintro ⟨bb, hbb, hret, w', hpath, rfl⟩
    obtain ⟨τ', hτ', rfl⟩ := hpath.trail
    have hstart : chains (r.bbToLibcMap f) (f.blockName 0) =
        [] ++ chains (r.bbToLibcMap f) (f.blockName 0) := rfl
    obtain ⟨τ, hτ, rfl⟩ := trail_of_place h.edge_blocks (h.separate _) hτ' hentry hstart rfl
      ((hblocks _).2 (List.mem_map_of_mem hbb)) rfl
    exact ⟨bb, hbb, hret, τ, hτ, (hvisible hτ).symm⟩
  · rintro ⟨bb, hbb, hret, τ, hτ, rfl⟩
    exact ⟨bb, hbb, hret, _, (trail_expandTrail h.edge_blocks hentry hτ).path, hvisible hτ⟩

/-- The expanded graph shows what the function calls, in all its executions and in no other way. -/
theorem executes_iff_shows (r : FileToMapReader) {f : DefinedFunction}
    (hn : ChainNamesFree fun b => b ∈ f.blocks.map NamedBlock.getName) :
    ∃ m, expandBBGraph (r.generateCallGraph f : FuncBBGraphMeta G) = some m ∧
      ∀ w, (∃ is, f.Executes is ∧ r.getLibraryCalls is = w) ↔ f.Shows r m.bbExpandedGraph w := by
  obtain ⟨m, hm, hshows⟩ := shows_expanded_iff (G := G) r hn
  exact ⟨m, hm, fun w => (executes_iff_trail r f w).trans (hshows w).symm⟩

/-- Two lines are printed, the second one over and over, before something is called by its address. -/
def printLines : DefinedFunction where
  blocks := [
    ⟨"A", ⟨[.call (some ⟨"puts", false, true⟩), .branch [1]], [.call (some ⟨"puts", false, true⟩)],
      .branch [1], rfl, rfl, by decide⟩⟩,
    ⟨"B", ⟨[.call (some ⟨"puts", false, true⟩), .branch [1, 2]],
      [.call (some ⟨"puts", false, true⟩)], .branch [1, 2], rfl, rfl, by decide⟩⟩,
    ⟨"C", ⟨[.call none, .ret], [.call none], .ret, rfl, rfl, by decide⟩⟩]
  nonempty := by simp
  distinct := by decide
  inside := by decide
  entry := by decide

theorem printLines_shows :
    ∃ m, expandBBGraph (putsReader.generateCallGraph printLines : FuncBBGraphMeta listGraaf) =
        some m ∧
      printLines.Shows putsReader m.bbExpandedGraph ["libc:puts", "libc:puts", "libc:puts"] := by
  have hn : ChainNamesFree fun b => b ∈ printLines.blocks.map NamedBlock.getName := by
    have hlength : ∀ b ∈ printLines.blocks.map NamedBlock.getName, b.length = 1 := by decide
    intro b b' hb hb' k
    have hlibc : "-libc_".length = 6 := rfl
    have huser : "-user_".length = 6 := rfl
    constructor
    · intro heq
      have hlen := congrArg String.length heq
      rw [String.length_append, String.length_append, hlength b hb, hlength b' hb'] at hlen
      omega
    · intro heq
      have hlen := congrArg String.length heq
      rw [String.length_append, String.length_append, hlength b hb, hlength b' hb'] at hlen
      omega
  obtain ⟨m, hm, hshows⟩ := executes_iff_shows (G := listGraaf) putsReader hn
  refine ⟨m, hm, (hshows _).1 ⟨[.call (some ⟨"puts", false, true⟩), .branch [1],
    .call (some ⟨"puts", false, true⟩), .branch [1, 2], .call (some ⟨"puts", false, true⟩),
    .branch [1, 2], .call none, .ret], ?_, by decide +kernel⟩⟩
  have hend : Own Instruction.control printLines.code [.call none, .ret] [.call none, .ret] :=
    .instruction id (.ret rfl)
  have hsecond : Own Instruction.control printLines.code
      [.call (some ⟨"puts", false, true⟩), .branch [1, 2]]
      [.call (some ⟨"puts", false, true⟩), .branch [1, 2], .call none, .ret] := by
    apply Own.instruction id
    exact .branch rfl (List.mem_cons_of_mem _ List.mem_cons_self) rfl hend
  have hfirst : Own Instruction.control printLines.code
      [.call (some ⟨"puts", false, true⟩), .branch [1, 2]]
      [.call (some ⟨"puts", false, true⟩), .branch [1, 2], .call (some ⟨"puts", false, true⟩),
        .branch [1, 2], .call none, .ret] := by
    apply Own.instruction id
    exact .branch rfl List.mem_cons_self rfl hsecond
  apply Own.instruction id
  exact .branch rfl List.mem_cons_self rfl hfirst

end LibcSandbox
