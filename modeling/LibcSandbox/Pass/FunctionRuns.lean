import LibcSandbox.Pass.RunOnModule
import LibcSandbox.Pass.Words

namespace LibcSandbox
open Library
set_option autoImplicit true

variable {m : IRModule} {τ : List Point}

theorem map_locate (f : Routine Instruction) :
    (locate f).blocks.map (List.map Point.instruction) = f.blocks := by
  have hblocks : (f.blocks.mapIdx (locateBlock f)).map (List.map Point.instruction) =
      f.blocks.map id :=
    map_mapIdx (fun k bb => map_instruction (fun index => index) bb) f.blocks
  rwa [List.map_id] at hblocks

theorem blockAt_locate (f : Routine Instruction) (k : Nat) :
    blockAt (locate f).blocks k = locateBlock f k (blockAt f.blocks k) := by
  rw [blockAt, blockAt, locate, List.getElem?_mapIdx]
  cases f.blocks[k]? <;> rfl

theorem ends_locate (f : IRFunction) : ∀ block ∈ (locate f.code).blocks, Ends Point.control block := by
  intro block hblock
  have hmem : block.map Point.instruction ∈ f.code.blocks := by
    rw [← map_locate f.code]
    exact List.mem_map_of_mem hblock
  obtain ⟨bb, -, hbb⟩ := List.mem_map.1 hmem
  have hends := bb.ends
  rw [hbb, ends_map] at hends
  exact hends

theorem leadsTo_locate (f : Routine Instruction) (k k' : Nat) :
    LeadsTo Point.control (locate f).blocks k k' ↔ LeadsTo Instruction.control f.blocks k k' := by
  have h : LeadsTo Instruction.control ((locate f).blocks.map (List.map Point.instruction)) k k' ↔
      LeadsTo Point.control (locate f).blocks k k' := leadsTo_map
  rw [← h, map_locate]

theorem returns_locate (f : Routine Instruction) (k : Nat) :
    Returns Point.control (locate f).blocks k ↔ Returns Instruction.control f.blocks k := by
  have h : Returns Instruction.control ((locate f).blocks.map (List.map Point.instruction)) k ↔
      Returns Point.control (locate f).blocks k := returns_map
  rw [← h, map_locate]

theorem countP_mapIdx {g : Nat → α → β} {P : β → Bool} (h : ∀ k x, P (g k x) = decide (k = i))
    (xs : List α) (hi : i < xs.length) : (xs.mapIdx g).countP P = 1 := by
  induction xs generalizing g i with
  | nil => cases hi
  | cons x xs ih =>
    rw [List.mapIdx_cons, List.countP_cons, h]
    cases i with
    | zero =>
      have hrest : (xs.mapIdx fun k => g (k + 1)).countP P = 0 := by
        rw [List.countP_eq_zero]
        intro y hy
        obtain ⟨k, hk, rfl⟩ := List.mem_mapIdx.1 hy
        simp [h]
      rw [hrest]
      rfl
    | succ i =>
      have hrest := ih (g := fun k => g (k + 1)) (i := i) (fun k x => by simp [h])
        (Nat.lt_of_succ_lt_succ hi)
      rw [hrest]
      rfl

/-- A place that is marked in functions with a name like the one of the main function. -/
def Point.isMarked (position : Nat × Nat) (p : Point) : Bool :=
  isMain p.function.name && decide ((p.block, p.index) = position)

theorem Point.isEntry_eq : Point.isEntry = Point.isMarked (0, 0) := by
  funext p
  have hstart : decide ((p.block, p.index) = (0, 0)) =
      (decide (p.block = 0) && decide (p.index = 0)) := by
    rw [← Bool.decide_and]
    exact decide_eq_decide.2 Prod.mk_inj
  rw [Point.isEntry, Point.isMarked, hstart, Bool.and_assoc]

theorem countP_isMarked {f : Routine Instruction} {position : Nat × Nat}
    (h : position.2 < (blockAt f.blocks position.1).length) (k : Nat) :
    (blockAt (locate f).blocks k).countP (Point.isMarked position) =
      if isMain f.name && decide (k = position.1) then 1 else 0 := by
  rw [blockAt_locate]
  cases hk : isMain f.name && decide (k = position.1) with
  | true =>
    rw [Bool.and_eq_true, decide_eq_true_eq] at hk
    obtain ⟨hname, rfl⟩ := hk
    apply countP_mapIdx (i := position.2)
    · intro index i
      rw [Point.isMarked, hname, Bool.true_and]
      exact decide_eq_decide.2 (by rw [Prod.ext_iff]; exact and_iff_right rfl)
    · exact h
  | false =>
    rw [if_neg Bool.false_ne_true, List.countP_eq_zero]
    intro p hp
    obtain ⟨hf, hblock, -⟩ := mem_locateBlock.1 hp
    rw [Bool.and_eq_false_iff, decide_eq_false_iff_not] at hk
    rw [Point.isMarked, hf, Bool.and_eq_true, decide_eq_true_eq]
    rintro ⟨hname, hposition⟩
    rcases hk with hk | hk
    · rw [hk] at hname
      cases hname
    · exact hk (by rw [← hposition, hblock])

theorem length_firstBlock {f : IRFunction} (h : f.blocks ≠ []) :
    0 < (blockAt f.code.blocks 0).length := by
  obtain ⟨bb, bbs, hbbs⟩ := List.exists_cons_of_ne_nil h
  obtain ⟨is, i, heq, -⟩ := bb.terminated
  rw [IRFunction.code, hbbs, List.map_cons, blockAt, List.getElem?_cons_zero, Option.getD_some,
    heq, List.length_append]
  exact Nat.succ_pos _

theorem cleanupPosition_lt {f : IRFunction} (h : f.blocks ≠ []) :
    (cleanupPosition f.code).2 < (blockAt f.code.blocks (cleanupPosition f.code).1).length := by
  rw [cleanupPosition]
  rcases lastBlock_cases Instruction.isReturnInst f.code.blocks with
    hnone | ⟨bbs₁, is, i, rest, bbs₂, hblocks, hpos, hrest, hafter⟩
  · rw [lastInst_none hnone, Option.getD_none]
    exact length_firstBlock h
  · rw [hblocks, lastInst_some bbs₁ hpos hrest hafter, Option.getD_some, blockAt,
      List.getElem?_append_right (Nat.le_refl _), Nat.sub_self, List.getElem?_cons_zero,
      Option.getD_some, List.length_append]
    exact Nat.lt_add_of_pos_right (Nat.succ_pos _)

theorem Executes.of_return {m : List IRFunction} {f : IRFunction} {τ : List Point}
    (h : Executes m f (p :: τ)) (hp : p.instruction.isReturnInst = true) : τ = [] := by
  generalize heq : p :: τ = w at h
  have hcontrol : p.control = .ret := p.instruction.control_eq_ret.2 hp
  cases h with
  | @routine _ block u _ v _ hrun hrest =>
    cases hrest
    rw [List.append_nil] at heq
    subst heq
    cases hrun with
    | ret => rfl
    | branch hbranch => cases hcontrol.symm.trans hbranch
    | instruction hcall =>
      rw [hcontrol] at hcall
      exact hcall.elim

/-- A function of a module that is called and returns, with the blocks that it enters behind the
first one. -/
structure FunctionRun where
  function : ModuleFunction
  entered : List Nat
  nonempty : function.blocks ≠ []
  walk : ∃ k, BlockWalk Instruction.control function.ir.code.blocks 0 entered k ∧
    Returns Instruction.control function.ir.code.blocks k

/-- The places that it passes itself. -/
def FunctionRun.passed (a : FunctionRun) : List Point :=
  (0 :: a.entered).flatMap (blockAt (locate a.function.ir.code).blocks)

def FunctionRun.isMain (a : FunctionRun) : Bool := LibcSandbox.isMain a.function.getName

/-- How often it takes the sandbox down: as often as it enters the last block, in the order of the
blocks, that has an instruction before its return. -/
def FunctionRun.cleanups (a : FunctionRun) : Nat :=
  if a.isMain then (0 :: a.entered).count (cleanupPosition a.function.ir.code).1 else 0

theorem ModuleFunction.not_leadsTo (f : ModuleFunction) :
    ¬LeadsTo Instruction.control f.ir.code.blocks k 0 := by
  rintro ⟨i, successors, hi, hcontrol, hmem, -⟩
  rw [blockAt, IRFunction.code, ModuleFunction.ir, List.map_map, List.getElem?_map] at hi
  cases hbb : f.blocks[k]? with
  | none =>
    rw [hbb] at hi
    cases hi
  | some bb =>
    rw [hbb] at hi
    have hnamed : (⟨blockName f.getName bb.operand, bb.block⟩ : NamedBlock) ∈
        nameBasicBlocks f.getName f.blocks :=
      List.mem_map_of_mem (List.mem_of_getElem? hbb)
    apply f.entry _ hnamed
    have hterminator : bb.block.instructions.getLast? = some i := hi
    rw [NamedBlock.successors, NamedBlock.getTerminator, hterminator, i.control_eq_branch.1 hcontrol]
    exact hmem

theorem FunctionRun.not_mem_entered (a : FunctionRun) : 0 ∉ a.entered := by
  intro hmem
  obtain ⟨_, hwalk, -⟩ := a.walk
  obtain ⟨_, he⟩ := hwalk.leadsTo 0 hmem
  exact a.function.not_leadsTo he

theorem FunctionRun.ir_blocks (a : FunctionRun) : a.function.ir.blocks ≠ [] := by
  rw [ModuleFunction.ir, ne_eq, List.map_eq_nil_iff]
  exact a.nonempty

theorem FunctionRun.function_of_mem (a : FunctionRun) (h : p ∈ a.passed) :
    p.function = a.function.ir.code := by
  obtain ⟨k, -, hp⟩ := List.mem_flatMap.1 h
  rw [blockAt_locate, mem_locateBlock] at hp
  exact hp.1

theorem FunctionRun.of_activation {a : Activation Point}
    (hmem : a.routine ∈ (m.functions.map ModuleFunction.ir).map fun f => locate f.code)
    (h : a.Valid Point.control) :
    ∃ x : FunctionRun, x.function ∈ m.functions ∧ x.passed = a.own := by
  rw [List.map_map] at hmem
  obtain ⟨f, hf, hroutine⟩ := List.mem_map.1 hmem
  obtain ⟨block, hblock, hown⟩ := h
  rw [← hroutine] at hblock hown
  have hlt : 0 < (locate f.ir.code).blocks.length := (List.getElem?_eq_some_iff.1 hblock).1
  rw [← blockAt_of_getElem? hblock] at hown
  obtain ⟨ks, k, hwalk, hreturns, heq⟩ := (own_iff_walk (ends_locate f.ir) hlt _).1 hown
  have hne : f.blocks ≠ [] := by
    rintro hnil
    rw [locate, IRFunction.code, ModuleFunction.ir, hnil] at hlt
    cases hlt
  refine ⟨⟨f, ks, hne, k, ?_, (returns_locate _ k).1 hreturns⟩, hf, heq.symm⟩
  exact hwalk.mono fun s a t he => ⟨(leadsTo_locate _ s t).1 he.1, he.2⟩

theorem FunctionRun.countP_isMarked (a : FunctionRun) {position : Nat × Nat}
    (h : position.2 < (blockAt a.function.ir.code.blocks position.1).length) :
    a.passed.countP (Point.isMarked position) =
      if a.isMain then (0 :: a.entered).count position.1 else 0 := by
  rw [passed, countP_flatMap_eq (LibcSandbox.countP_isMarked h)]
  have hname : LibcSandbox.isMain a.function.ir.code.name = a.isMain := rfl
  rw [hname]
  cases a.isMain with
  | true =>
    simp only [Bool.true_and, ↓reduceIte]
    rfl
  | false => simp

theorem FunctionRun.countP_isEntry (a : FunctionRun) :
    a.passed.countP Point.isEntry = if a.isMain then 1 else 0 := by
  rw [Point.isEntry_eq, a.countP_isMarked (length_firstBlock a.ir_blocks), List.count_cons_self,
    List.count_eq_zero_of_not_mem a.not_mem_entered]

theorem FunctionRun.countP_isCleanup (a : FunctionRun) :
    a.passed.countP Point.isCleanup = a.cleanups := by
  have hcleanup : a.passed.countP Point.isCleanup =
      a.passed.countP (Point.isMarked (cleanupPosition a.function.ir.code)) := by
    apply List.countP_congr
    intro p hp
    rw [Point.isCleanup, Point.isMarked, a.function_of_mem hp]
  rw [hcleanup, a.countP_isMarked (cleanupPosition_lt a.ir_blocks), cleanups]

theorem Executes.functionRuns {f : ModuleFunction} (hf : f ∈ m.functions)
    (h : Executes (m.functions.map ModuleFunction.ir) f.ir τ) :
    ∃ as : List FunctionRun, (∀ a ∈ as, a.function ∈ m.functions) ∧
      τ.Perm (as.flatMap FunctionRun.passed) := by
  obtain ⟨_, as, h, rfl⟩ := run_iff_activates.1 h
  have hruns : ∀ a ∈ as, ∃ x : FunctionRun, x.function ∈ m.functions ∧ x.passed = a.own := by
    intro a ha
    apply FunctionRun.of_activation _ (h.valid.2 a ha)
    apply h.mem _ a ha
    rintro _ ⟨⟩ f' hf'
    rw [List.mem_singleton.1 hf', List.map_map]
    exact List.mem_map_of_mem hf
  choose x hx using hruns
  refine ⟨as.attach.map fun a => x a.1 a.2, ?_, ?_⟩
  · intro y hy
    obtain ⟨a, -, rfl⟩ := List.mem_map.1 hy
    exact (hx a.1 a.2).1
  · have hown : as.flatMap Activation.own =
        (as.attach.map fun a => x a.1 a.2).flatMap FunctionRun.passed := by
      calc
        as.flatMap Activation.own = (as.attach.map Subtype.val).flatMap Activation.own := by
          rw [List.attach_map_subtype_val]
        _ = as.attach.flatMap fun a => a.1.own := List.flatMap_map ..
        _ = as.attach.flatMap fun a => (x a.1 a.2).passed :=
          List.flatMap_congr fun a _ => (hx a.1 a.2).2.symm
        _ = _ := (List.flatMap_map ..).symm
    rw [← hown]
    exact h.perm

theorem countP_events_init (r : FileToMapReader) (size : Nat) {as : List FunctionRun}
    (h : τ.Perm (as.flatMap FunctionRun.passed)) :
    (events (τ.flatMap (weave r size))).countP InjectedCall.isInit = as.countP FunctionRun.isMain := by
  rw [events_weave, countP_flatMap_eq countP_syscalls_init, h.countP_eq,
    countP_flatMap_eq FunctionRun.countP_isEntry]

theorem countP_events_cleanup (r : FileToMapReader) (size : Nat) {as : List FunctionRun}
    (h : τ.Perm (as.flatMap FunctionRun.passed)) :
    (events (τ.flatMap (weave r size))).countP InjectedCall.isCleanup =
      (as.map FunctionRun.cleanups).sum := by
  rw [events_weave, countP_flatMap_eq countP_syscalls_cleanup, h.countP_eq, List.countP_flatMap]
  congr 1
  exact List.map_congr_left fun a _ => a.countP_isCleanup

end LibcSandbox
