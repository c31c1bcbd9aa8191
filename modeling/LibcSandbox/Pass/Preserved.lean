import LibcSandbox.Pass.ModuleRun

namespace LibcSandbox
open Library
set_option autoImplicit true

variable {G : Graaf} {r : FileToMapReader} {m : IRModule} {hash : String → UInt64} {size : Nat}

/-- The functions of a module as they are. -/
def IRModule.unchanged (m : IRModule) : List (Routine Instrumented) :=
  m.code.map (Routine.flatMap fun i => [.source i])

/-- A function that both handlers go into. -/
def ModuleFunction.isMainBody (f : ModuleFunction) : Bool :=
  isMain f.getName && !f.isDeclaration

/-- The system calls that a function contains. -/
def systemCalls (f : Routine Instrumented) : List InjectedCall := f.blocks.flatMap events

theorem systemCalls_source (f : Routine Instruction) :
    systemCalls (f.flatMap fun i => [.source i]) = [] := by
  rw [systemCalls, List.flatMap_eq_nil_iff]
  intro bb hbb
  obtain ⟨bb₀, -, rfl⟩ := List.mem_map.1 hbb
  rw [events, List.filterMap_flatMap]
  exact List.flatMap_eq_nil_iff.2 fun i _ => rfl

theorem systemCalls_weave (f : Routine Point) :
    systemCalls (f.flatMap (weave r size)) = f.blocks.flatMap fun bb =>
      bb.flatMap (Point.syscalls r size) := by
  rw [systemCalls, Routine.flatMap, List.flatMap_map]
  exact List.flatMap_congr fun bb _ => events_weave bb

theorem locate_flatMap_source (f : Routine Instruction) :
    ((locate f).flatMap fun p => [Instrumented.source p.instruction]) =
      f.flatMap fun i => [.source i] := by
  rw [Routine.flatMap, Routine.flatMap, locate, Routine.mk.injEq]
  refine ⟨rfl, map_mapIdx (fun k bb => ?_) f.blocks⟩
  exact flatMap_locateBlock f k bb fun _ _ => rfl

theorem weave_unchanged_iff (f : Routine Instruction) :
    (locate f).flatMap (weave r size) = f.flatMap (fun i => [.source i]) ↔
      ∀ bb ∈ (locate f).blocks, ∀ p ∈ bb, p.syscalls r size = [] := by
  apply Iff.intro
  · intro h bb hbb p hp
    have hcalls := congrArg systemCalls h
    rw [systemCalls_source, systemCalls_weave, List.flatMap_eq_nil_iff] at hcalls
    exact List.flatMap_eq_nil_iff.1 (hcalls bb hbb) p hp
  · intro h
    rw [← locate_flatMap_source, Routine.flatMap, Routine.flatMap, Routine.mk.injEq]
    refine ⟨rfl, List.map_congr_left fun bb hbb => List.flatMap_congr fun p hp => ?_⟩
    rw [weave, withSyscalls, h bb hbb p hp]
    rfl

theorem mem_locate {f : Routine Instruction} {p : Point} :
    (∃ bb ∈ (locate f).blocks, p ∈ bb) ↔ p.function = f ∧
      ∃ bb, f.blocks[p.block]? = some bb ∧ bb[p.index]? = some p.instruction := by
  rw [locate]
  apply Iff.intro
  · intro hx
    obtain ⟨bb', hbb', hp⟩ := hx
    obtain ⟨k, hk, rfl⟩ := List.mem_mapIdx.1 hbb'
    obtain ⟨hf, hblock, hi⟩ := mem_locateBlock.1 hp
    exact ⟨hf, f.blocks[k], by rw [hblock, List.getElem?_eq_getElem hk], hi⟩
  · intro hx
    obtain ⟨hf, bb, hbb, hi⟩ := hx
    obtain ⟨hk, hget⟩ := List.getElem?_eq_some_iff.1 hbb
    refine ⟨locateBlock f p.block bb, List.mem_mapIdx.2 ⟨p.block, hk, by rw [hget]⟩, ?_⟩
    exact mem_locateBlock.2 ⟨hf, rfl, hi⟩

/-- The places of a function. -/
def ModuleFunction.Place (f : ModuleFunction) (p : Point) : Prop :=
  ∃ bb ∈ (locate f.ir.code).blocks, p ∈ bb

theorem ModuleFunction.place_iff {f : ModuleFunction} {p : Point} :
    f.Place p ↔ p.function = f.ir.code ∧
      ∃ bb, f.blocks[p.block]? = some bb ∧
        bb.block.instructions[p.index]? = some p.instruction := by
  have hblock : f.ir.code.blocks[p.block]? =
      f.blocks[p.block]?.map fun bb => bb.block.instructions := by
    rw [IRFunction.code, ModuleFunction.ir, List.map_map, List.getElem?_map]
    rfl
  rw [Place, mem_locate, hblock]
  apply and_congr_right
  intro _
  cases f.blocks[p.block]? <;> simp

theorem ModuleFunction.Place.name {f : ModuleFunction} {p : Point} (h : f.Place p) :
    p.function.name = f.getName := by
  rw [(place_iff.1 h).1]
  rfl

theorem Point.syscalls_eq_nil_iff (p : Point) :
    p.syscalls r size = [] ↔
      p.dummycalls r = [] ∧ p.isEntry = false ∧ p.isCleanup = false := by
  rw [Point.syscalls]
  cases hret : p.instruction.isReturnInst with
  | true =>
    rw [Point.dummycalls_return hret]
    cases p.isEntry <;> cases p.isCleanup <;> simp
  | false => cases p.isEntry <;> cases p.isCleanup <;> simp

theorem FileToMapReader.isLibcCall_eq_false_iff :
    r.isLibcCall i = false ↔ r.dummycallBefore i = [] := by
  rw [FileToMapReader.isLibcCall, Bool.not_eq_false', List.isEmpty_iff]

theorem dummycalls_nil_iff (f : ModuleFunction) :
    (∀ p, f.Place p → p.dummycalls r = []) ↔ r.injects f = false := by
  rw [FileToMapReader.injects]
  cases hskip : isSkipped f.getName with
  | true =>
    refine iff_of_true (fun p hp => ?_) rfl
    rw [Point.dummycalls, hp.name, hskip]
    rfl
  | false =>
    rw [Bool.not_false, Bool.true_and, List.any_eq_false]
    apply Iff.intro
    · intro h bb hbb hany
      obtain ⟨i, hi, hcall⟩ := List.any_eq_true.1 hany
      obtain ⟨k, hk⟩ := List.mem_iff_getElem?.1 hbb
      obtain ⟨j, hj⟩ := List.mem_iff_getElem?.1 hi
      have hnil := h ⟨f.ir.code, k, j, i⟩ (ModuleFunction.place_iff.2 ⟨rfl, bb, hk, hj⟩)
      have hname : f.ir.code.name = f.getName := rfl
      rw [Point.dummycalls, hname, hskip, if_neg Bool.false_ne_true] at hnil
      rw [FileToMapReader.isLibcCall_eq_false_iff.2 hnil] at hcall
      cases hcall
    · intro h p hp
      obtain ⟨-, bb, hbb, hi⟩ := ModuleFunction.place_iff.1 hp
      have hany := Bool.eq_false_iff.2 (h bb (List.mem_of_getElem? hbb))
      have hnot := List.any_eq_false.1 hany p.instruction (List.mem_of_getElem? hi)
      rw [Point.dummycalls, hp.name, hskip, if_neg Bool.false_ne_true]
      exact FileToMapReader.isLibcCall_eq_false_iff.1 (Bool.eq_false_iff.2 hnot)

theorem ModuleFunction.exists_place (f : ModuleFunction) (h : f.blocks ≠ []) :
    ∃ i, f.Place ⟨f.ir.code, 0, 0, i⟩ := by
  obtain ⟨bb, bbs, hbbs⟩ := List.exists_cons_of_ne_nil h
  have hblock : f.blocks[0]? = some bb := by rw [hbbs]; rfl
  obtain ⟨is, i, hinstructions, -⟩ := bb.block.terminated
  cases is with
  | nil => exact ⟨i, place_iff.2 ⟨rfl, bb, hblock, by rw [hinstructions]; rfl⟩⟩
  | cons first is => exact ⟨first, place_iff.2 ⟨rfl, bb, hblock, by rw [hinstructions]; rfl⟩⟩

theorem handlers_nil_iff (f : ModuleFunction) :
    (∀ p, f.Place p → p.isEntry = false ∧ p.isCleanup = false) ↔ f.isMainBody = false := by
  rw [ModuleFunction.isMainBody, ModuleFunction.isDeclaration]
  cases hmain : isMain f.getName with
  | false =>
    refine iff_of_true (fun p hp => ?_) rfl
    rw [Point.isEntry, Point.isCleanup, hp.name, hmain]
    exact ⟨rfl, rfl⟩
  | true =>
    rw [Bool.true_and, Bool.not_eq_false', List.isEmpty_iff]
    apply Iff.intro
    · intro h
      by_contra hne
      obtain ⟨i, hp⟩ := f.exists_place hne
      have hentry := (h _ hp).1
      rw [Point.isEntry, hp.name, hmain] at hentry
      cases hentry
    · intro hnil p hp
      obtain ⟨-, bb, hbb, -⟩ := ModuleFunction.place_iff.1 hp
      rw [hnil] at hbb
      cases hbb

theorem syscalls_nil_iff (f : ModuleFunction) :
    (∀ bb ∈ (locate f.ir.code).blocks, ∀ p ∈ bb, p.syscalls r size = []) ↔
      r.injects f = false ∧ f.isMainBody = false := by
  rw [← dummycalls_nil_iff, ← handlers_nil_iff, ← forall₂_and]
  apply Iff.intro
  · intro h p hp
    obtain ⟨bb, hbb, hmem⟩ := hp
    exact (Point.syscalls_eq_nil_iff p).1 (h bb hbb p hmem)
  · intro h bb hbb p hmem
    exact (Point.syscalls_eq_nil_iff p).2 (h p ⟨bb, hbb, hmem⟩)

theorem Compiled.unchanged_iff {out : PassOutput G} (h : Compiled r hash stack m out) :
    out.functions = m.unchanged ↔
      ∀ f ∈ m.functions, r.injects f = false ∧ f.isMainBody = false := by
  rw [h.functions, IRModule.unchanged, IRModule.code, List.map_map, List.map_map, List.map_map,
    List.map_map, List.map_inj_left]
  apply forall₂_congr
  intro f _
  rw [← syscalls_nil_iff, ← weave_unchanged_iff]
  rfl

/-- The pass says that everything is preserved although it changes functions, exactly where it
injects nothing and there is a main function with a body. -/
theorem runPass_unreported_iff {listing : Option (List Char)} {preserved : PreservedAnalyses}
    {out : PassOutput G}
    (h : runPass listing hash edgeList neighborList m = .ok (preserved, out)) :
    (preserved = .all ∧ out.functions ≠ m.unchanged) ↔
      (∀ f ∈ m.functions, (FileToMapReader.empty.readFileToMap listing).2.injects f = false) ∧
        ∃ f ∈ m.functions, f.isMainBody = true := by
  rw [runPass] at h
  generalize FileToMapReader.empty.readFileToMap listing = x at h ⊢
  obtain ⟨result, r⟩ := x
  cases result with
  | error e => cases h
  | ok opened =>
    cases hout : (r.runOnModule hash edgeList neighborList m : Except Halt (PassOutput G)) with
    | error e =>
      simp only [hout] at h
      cases h
    | ok out' =>
      simp only [hout] at h
      cases h
      obtain ⟨-, -, -, hc⟩ := compiled_of_runOnModule hout
      have hall : (if out.insertedAtLeastOnePrintf then PreservedAnalyses.none else .all) = .all ↔
          ∀ f ∈ m.functions, r.injects f = false := by
        rw [hc.inserted]
        cases hany : m.functions.any r.injects with
        | true =>
          obtain ⟨f, hf, hinjects⟩ := List.any_eq_true.1 hany
          simp only [↓reduceIte, reduceCtorEq, false_iff, not_forall]
          exact ⟨f, hf, by rw [hinjects]; exact Bool.true_eq_false.mp⟩
        | false =>
          simp only [Bool.false_eq_true, ↓reduceIte, true_iff]
          exact fun f hf => Bool.eq_false_iff.2 (List.any_eq_false.1 hany f hf)
      rw [hall, ne_eq, hc.unchanged_iff]
      apply and_congr_right
      intro hinjects
      apply Iff.intro
      · intro hne
        obtain ⟨f, hx⟩ := not_forall.1 hne
        obtain ⟨hf, hx⟩ := Classical.not_imp.1 hx
        exact ⟨f, hf, Bool.eq_true_of_not_eq_false fun hmain => hx ⟨hinjects f hf, hmain⟩⟩
      · intro hx hno
        obtain ⟨f, hf, hmain⟩ := hx
        rw [(hno f hf).2] at hmain
        cases hmain

/-- A main function without calls. -/
def callFreeMain : ModuleFunction where
  getName := "main"
  blocks := [⟨.number 0, ⟨[.other, .other, .ret], [.other, .other], .ret, rfl, rfl, by decide⟩⟩]
  distinct := List.nodup_singleton _
  inside := by decide
  entry := by decide

def callFreeModule : IRModule := ⟨[callFreeMain], by decide⟩

/-- Without a listing the pass puts two system calls into the function, and says nothing of it. -/
theorem callFreeModule_unreported : ∃ out : PassOutput listGraaf,
    runPass none (fun _ => 0) (fun _ => 0) (fun _ => 0) callFreeModule = .ok (.all, out) ∧
      out.functions ≠ callFreeModule.unchanged := by
  have hcalls : FileToMapReader.empty.bbToLibcMap (callFreeMain.body (by decide)) = [] := by
    have hperm := FileToMapReader.empty.bbToLibcMap_perm (callFreeMain.body (by decide))
    exact List.perm_nil.1 hperm
  have hrecord : (FileToMapReader.empty.funcBBToMetaMap callFreeModule :
      List (String × FuncBBGraphMeta listGraaf)) =
        [("main", FileToMapReader.empty.generateCallGraph (callFreeMain.body (by decide)))] := rfl
  have hfinal : (FileToMapReader.empty.finalGraph callFreeModule : Option (Merging listGraaf)).map
      (fun final => final.graph.getVertices) = some ["[main]%0"] := by
    rw [FileToMapReader.finalGraph, FileToMapReader.libcCallGraphs, hrecord,
      FileToMapReader.generateCallGraph, hcalls]
    decide +kernel
  obtain ⟨final, hfinal, hvertices⟩ := Option.map_eq_some_iff.1 hfinal
  obtain ⟨out, hout, -⟩ := runOnModule_ok hfinal (by rw [hvertices]; decide) (fun _ => 0)
    (fun _ => 0) (fun _ => 0)
  obtain ⟨-, -, -, hc⟩ := compiled_of_runOnModule hout
  have hrun : runPass none (fun _ => 0) (fun _ => 0) (fun _ => 0) callFreeModule = .ok (.all, out) := by
    have hinserted : out.insertedAtLeastOnePrintf = false := hc.inserted
    have hread : FileToMapReader.empty.readFileToMap none = (.ok false, .empty) := rfl
    simp only [runPass, hread, hout]
    change Except.ok (if out.insertedAtLeastOnePrintf then PreservedAnalyses.none else .all, out) = _
    rw [hinserted]
    rfl
  have hiff := runPass_unreported_iff hrun
  refine ⟨out, hrun, (hiff.2 ⟨?_, callFreeMain, List.mem_cons_self, rfl⟩).2⟩
  intro f hf
  rw [List.mem_singleton.1 hf]
  rfl

end LibcSandbox
