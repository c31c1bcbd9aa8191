import LibcSandbox.Pass.Instrument

namespace LibcSandbox
open Library
set_option autoImplicit true

/-- An instruction, and where it stands in its function. -/
structure Point where
  function : Routine Instruction
  block : Nat
  index : Nat
  instruction : Instruction

def locateBlock (f : Routine Instruction) (block : Nat) (bb : List Instruction) : List Point :=
  bb.mapIdx fun index i => ⟨f, block, index, i⟩

def locate (f : Routine Instruction) : Routine Point where
  name := f.name
  blocks := f.blocks.mapIdx (locateBlock f)

/-- The start of a function whose name starts like the one of the main function. -/
def Point.isEntry (p : Point) : Bool :=
  isMain p.function.name && decide (p.block = 0) && decide (p.index = 0)

/-- The last instruction in the order of the blocks that is no return, or else the start. -/
def cleanupPosition (f : Routine Instruction) : Nat × Nat :=
  (lastInst Instruction.isReturnInst f.blocks).getD (0, 0)

def Point.isCleanup (p : Point) : Bool :=
  isMain p.function.name && decide ((p.block, p.index) = cleanupPosition p.function)

def FileToMapReader.dummycallBefore (r : FileToMapReader) : Instruction → List InjectedCall
  | .call (some callee) =>
    if r.isStringInMap callee.name then
      [.sandboxDummycall (toUnsignedLong (getValueFromMap r.stringMap callee.name))]
    else []
  | _ => []

def Point.dummycalls (r : FileToMapReader) (p : Point) : List InjectedCall :=
  if isSkipped p.function.name then [] else r.dummycallBefore p.instruction

/-- The system calls that are made right before an instruction. -/
def Point.syscalls (r : FileToMapReader) (size : Nat) (p : Point) : List InjectedCall :=
  let sandboxInit := if p.isEntry then [.sandboxInit size] else []
  let sandboxCleanup := if p.isCleanup then [.sandboxCleanup] else []
  if p.instruction.isReturnInst then sandboxCleanup ++ sandboxInit
  else sandboxInit ++ p.dummycalls r ++ sandboxCleanup

def withSyscalls (p : Point) (calls : List InjectedCall) : List Instrumented :=
  calls.map .syscall ++ [.source p.instruction]

/-- What stands in the place of an instruction after the first of the two handlers. -/
def opened (r : FileToMapReader) (size : Nat) (p : Point) : List Instrumented :=
  withSyscalls p ((if p.isEntry then [.sandboxInit size] else []) ++ p.dummycalls r)

def weave (r : FileToMapReader) (size : Nat) (p : Point) : List Instrumented :=
  withSyscalls p (p.syscalls r size)

theorem map_mapIdx {f : Nat → α → β} {g : β → γ} {h : α → γ} (heq : ∀ k x, g (f k x) = h x)
    (xs : List α) : (xs.mapIdx f).map g = xs.map h := by
  apply List.ext_getElem?
  intro k
  rw [List.getElem?_map, List.getElem?_mapIdx, List.getElem?_map, Option.map_map]
  congr 1
  funext x
  exact heq k x

theorem map_instruction (place : Nat → Nat) (bb : List Instruction) :
    (bb.mapIdx fun k i => Point.mk f block (place k) i).map Point.instruction = bb :=
  (map_mapIdx (g := Point.instruction) (h := id) (fun _ _ => rfl) bb).trans (List.map_id bb)

theorem mem_locateBlock : p ∈ locateBlock f block bb ↔
    p.function = f ∧ p.block = block ∧ bb[p.index]? = some p.instruction := by
  rw [locateBlock, List.mem_mapIdx]
  apply Iff.intro
  · intro hx
    obtain ⟨index, hlt, rfl⟩ := hx
    exact ⟨rfl, rfl, List.getElem?_eq_getElem hlt⟩
  · intro hx
    obtain ⟨f, block, index, i⟩ := p
    obtain ⟨rfl, rfl, hi⟩ := hx
    obtain ⟨hlt, hi⟩ := List.getElem?_eq_some_iff.1 hi
    exact ⟨index, hlt, by rw [hi]⟩

theorem locateBlock_append (f : Routine Instruction) (block : Nat) (is : List Instruction)
    (i : Instruction) (rest : List Instruction) :
    ∃ located, locateBlock f block (is ++ i :: rest) =
        locateBlock f block is ++ ⟨f, block, is.length, i⟩ :: located ∧
      located.map Point.instruction = rest ∧
      ∀ p ∈ located, p.function = f ∧ p.block = block ∧ is.length < p.index := by
  rw [locateBlock, List.mapIdx_append, List.mapIdx_cons]
  refine ⟨_, by rw [Nat.zero_add]; rfl, ?_, ?_⟩
  · exact map_instruction (fun k => k + 1 + is.length) rest
  · intro p hp
    obtain ⟨index, hlt, rfl⟩ := List.mem_mapIdx.1 hp
    exact ⟨rfl, rfl, Nat.lt_add_of_pos_left (Nat.succ_pos index)⟩

theorem flatMap_locateBlock (f : Routine Instruction) (block : Nat) (bb : List Instruction)
    {g : Point → List κ} {h : Instruction → List κ}
    (heq : ∀ p, p.function = f → g p = h p.instruction) :
    (locateBlock f block bb).flatMap g = bb.flatMap h := by
  rw [List.flatMap_def, List.flatMap_def, locateBlock]
  rw [map_mapIdx (h := h) fun k i => heq ⟨f, block, k, i⟩ rfl]

theorem FileToMapReader.inject_eq (r : FileToMapReader) (i : Instruction) :
    r.inject i = (r.dummycallBefore i).map .syscall ++ [.source i] := by
  by_cases hi : ∃ callee, i = .call (some callee)
  · obtain ⟨callee, rfl⟩ := hi
    rw [inject, dummycallBefore]
    split <;> rfl
  · rw [inject_other r (not_exists.1 hi), dummycallBefore]
    · rfl
    · exact fun callee hc => hi ⟨callee, hc⟩

theorem FileToMapReader.injectFunction_eq (r : FileToMapReader) (f : Routine Instruction) :
    r.injectFunction f = (locate f).flatMap fun p => withSyscalls p (p.dummycalls r) := by
  rw [injectFunction, Routine.flatMap, locate, Routine.mk.injEq]
  refine ⟨rfl, (map_mapIdx (fun block bb => ?_) f.blocks).symm⟩
  cases hskip : isSkipped f.name with
  | true =>
    have hone : ∀ p : Point, p.function = f →
        withSyscalls p (p.dummycalls r) = [.source p.instruction] := by
      intro p hp
      rw [withSyscalls, Point.dummycalls, hp, hskip]
      rfl
    rw [flatMap_locateBlock f block bb (h := fun i => [.source i]) hone]
    exact List.map_eq_flatMap.symm
  | false =>
    have hinject : ∀ p : Point, p.function = f →
        withSyscalls p (p.dummycalls r) = r.inject p.instruction := by
      intro p hp
      rw [withSyscalls, Point.dummycalls, hp, hskip, inject_eq]
      rfl
    exact flatMap_locateBlock f block bb hinject

theorem locate_split {f : Routine Instruction}
    (h : f.blocks = bbs₁ ++ (is ++ i :: rest) :: bbs₂) :
    ∃ before after located, (locate f).blocks =
        before ++ (locateBlock f bbs₁.length is ++ ⟨f, bbs₁.length, is.length, i⟩ :: located) ::
          after ∧
      before.length = bbs₁.length ∧ located.map Point.instruction = rest ∧
      (∀ p ∈ located, is.length < p.index) ∧
      (∀ bb' ∈ after, ∃ bb ∈ bbs₂, ∃ block, bbs₁.length < block ∧
        bb' = locateBlock f block bb) ∧
      ∀ p ∈ before.flatten ++ locateBlock f bbs₁.length is ++ located ++ after.flatten,
        p.function = f ∧ (p.block ≠ bbs₁.length ∨ p.index ≠ is.length) := by
  obtain ⟨located, hlocated, hrest, hmem⟩ := locateBlock_append f bbs₁.length is i rest
  have hafter : ∀ bb' ∈ bbs₂.mapIdx (fun k => locateBlock f (k + 1 + bbs₁.length)),
      ∃ bb ∈ bbs₂, ∃ block, bbs₁.length < block ∧ bb' = locateBlock f block bb := by
    intro bb' hbb'
    obtain ⟨k, hk, rfl⟩ := List.mem_mapIdx.1 hbb'
    exact ⟨_, List.getElem_mem hk, k + 1 + bbs₁.length, by omega, rfl⟩
  refine ⟨bbs₁.mapIdx (locateBlock f),
    bbs₂.mapIdx (fun k => locateBlock f (k + 1 + bbs₁.length)), located, ?_, ?_, hrest,
    fun p hp => (hmem p hp).2.2, hafter, ?_⟩
  · rw [locate, h, List.mapIdx_append, List.mapIdx_cons, Nat.zero_add, hlocated]
  · rw [List.length_mapIdx]
  · intro p hp
    simp only [List.mem_append, List.mem_flatten] at hp
    rcases hp with ((hp | hp) | hp) | hp
    · obtain ⟨bb', hbb', hp⟩ := hp
      obtain ⟨k, hk, rfl⟩ := List.mem_mapIdx.1 hbb'
      obtain ⟨hf, hblock, -⟩ := mem_locateBlock.1 hp
      exact ⟨hf, .inl (hblock ▸ Nat.ne_of_lt hk)⟩
    · obtain ⟨hf, -, hi⟩ := mem_locateBlock.1 hp
      exact ⟨hf, .inr (Nat.ne_of_lt (List.getElem?_eq_some_iff.1 hi).1)⟩
    · obtain ⟨hf, -, hlt⟩ := hmem p hp
      exact ⟨hf, .inr (Nat.ne_of_gt hlt)⟩
    · obtain ⟨bb', hbb', hp⟩ := hp
      obtain ⟨bb, -, block, hlt, rfl⟩ := hafter bb' hbb'
      obtain ⟨hf, hblock, -⟩ := mem_locateBlock.1 hp
      exact ⟨hf, .inl (hblock ▸ Nat.ne_of_gt hlt)⟩

theorem insertBefore_woven {g g' : Point → List κ} {bbs₁ bbs₂ : List (List Point)}
    {is rest : List Point} {p : Point} {calls others : List κ} {x : κ}
    (hp : g p = calls ++ others) (hp' : g' p = calls ++ x :: others)
    (hsame : ∀ q ∈ bbs₁.flatten ++ is ++ rest ++ bbs₂.flatten, g' q = g q) :
    insertBefore ((bbs₁ ++ (is ++ p :: rest) :: bbs₂).map fun bb => bb.flatMap g)
        (bbs₁.length, (is.flatMap g ++ calls).length) x =
      (bbs₁ ++ (is ++ p :: rest) :: bbs₂).map fun bb => bb.flatMap g' := by
  simp only [List.mem_append, List.mem_flatten, or_imp, forall_and, forall_exists_index,
    and_imp] at hsame
  obtain ⟨⟨⟨h₁, his⟩, hrest⟩, h₂⟩ := hsame
  have hblocks₁ : (bbs₁.map fun bb => bb.flatMap g') = bbs₁.map fun bb => bb.flatMap g :=
    List.map_congr_left fun bb hbb => List.flatMap_congr fun q hq => h₁ q bb hbb hq
  have hblocks₂ : (bbs₂.map fun bb => bb.flatMap g') = bbs₂.map fun bb => bb.flatMap g :=
    List.map_congr_left fun bb hbb => List.flatMap_congr fun q hq => h₂ q bb hbb hq
  have hblock : (is ++ p :: rest).flatMap g =
      (is.flatMap g ++ calls) ++ (others ++ rest.flatMap g) := by
    rw [List.flatMap_append, List.flatMap_cons, hp]
    simp only [List.append_assoc]
  have hblock' : (is ++ p :: rest).flatMap g' =
      (is.flatMap g ++ calls) ++ x :: (others ++ rest.flatMap g) := by
    rw [List.flatMap_append, List.flatMap_cons, hp', List.flatMap_congr his,
      List.flatMap_congr hrest]
    simp only [List.append_assoc, List.cons_append]
  have hlength : bbs₁.length = (bbs₁.map fun bb => bb.flatMap g).length :=
    (List.length_map _).symm
  rw [List.map_append, List.map_cons, List.map_append, List.map_cons, hblocks₁, hblocks₂, hblock,
    hblock', hlength, insertBefore_append]

theorem Point.dummycalls_return {p : Point} (h : p.instruction.isReturnInst = true) :
    p.dummycalls r = [] := by
  have hret : p.instruction = .ret := by
    cases hi : p.instruction with
    | ret => rfl
    | _ =>
      rw [hi] at h
      cases h
  rw [dummycalls, hret]
  exact ite_self _

theorem Point.isEntry_other {p : Point} (h : p.block ≠ 0 ∨ p.index ≠ 0) : p.isEntry = false := by
  rw [isEntry]
  rcases h with h | h
  · simp only [h, decide_false, Bool.and_false, Bool.false_and]
  · simp only [h, decide_false, Bool.and_false]

theorem flatMap_locate_congr {f : Routine Instruction} {g g' : Point → List κ}
    (h : ∀ p, p.function = f → g p = g' p) : (locate f).flatMap g = (locate f).flatMap g' := by
  rw [Routine.flatMap, Routine.flatMap, Routine.mk.injEq]
  refine ⟨rfl, List.map_congr_left fun bb hbb => List.flatMap_congr fun p hp => h p ?_⟩
  obtain ⟨k, hk, rfl⟩ := List.mem_mapIdx.1 hbb
  exact (mem_locateBlock.1 hp).1

theorem isEmpty_locate (f : Routine Instruction) (g : Point → List κ) :
    ((locate f).flatMap g).blocks.isEmpty = f.blocks.isEmpty := by
  cases hf : f.blocks <;> simp [Routine.flatMap, locate, hf]

theorem sectionAddressFunction_eq (r : FileToMapReader) (size : Nat) {f : Routine Instruction}
    (h : ∀ bb ∈ f.blocks, bb ≠ []) :
    sectionAddressFunction size ((locate f).flatMap fun p => withSyscalls p (p.dummycalls r)) =
      (locate f).flatMap (opened r size) := by
  have hother : ∀ p : Point, p.isEntry = false →
      withSyscalls p (p.dummycalls r) = opened r size p := by
    intro p hp
    rw [opened, hp]
    rfl
  have hname (g : Point → List Instrumented) : ((locate f).flatMap g).name = f.name := rfl
  rw [sectionAddressFunction, isEmpty_locate, hname]
  cases hf : f.blocks with
  | nil =>
    have hblocks : (locate f).blocks = [] := by rw [locate, hf]; rfl
    simp only [List.isEmpty_nil, ↓reduceIte, Routine.flatMap, hblocks, List.map_nil]
  | cons bb bbs =>
    simp only [List.isEmpty_cons, Bool.false_eq_true, ↓reduceIte]
    cases hmain : isMain f.name with
    | false =>
      simp only [Bool.false_eq_true, ↓reduceIte]
      apply flatMap_locate_congr
      intro p hp
      apply hother p
      rw [Point.isEntry, hp, hmain]
      rfl
    | true =>
      cases hbb : bb with
      | nil => exact absurd hbb (h bb (by rw [hf]; exact List.mem_cons_self))
      | cons i is =>
        have hsplit : f.blocks = [] ++ ([] ++ i :: is) :: bbs := by
          rw [hf, hbb]
          rfl
        obtain ⟨before, after, located, hlocate, hlen, -, -, -, hmem⟩ := locate_split hsplit
        cases List.eq_nil_of_length_eq_zero hlen
        have hopened : opened r size ⟨f, 0, 0, i⟩ = [] ++ .syscall (.sandboxInit size) ::
            withSyscalls ⟨f, 0, 0, i⟩ (Point.dummycalls r ⟨f, 0, 0, i⟩) := by
          rw [opened, Point.isEntry, hmain]
          rfl
        simp only [↓reduceIte, Routine.flatMap, Routine.mk.injEq, hlocate]
        refine ⟨rfl, insertBefore_woven rfl hopened ?_⟩
        intro q hq
        exact (hother q (Point.isEntry_other (hmem q hq).2)).symm

theorem beforeReturn_opened {ps : List Point} (hentry : ∀ p ∈ ps, p.isEntry = false)
    (h : beforeReturn Instruction.isReturnInst (ps.map Point.instruction) = []) :
    beforeReturn Instrumented.isReturnInst (ps.flatMap (opened r size)) = [] := by
  cases ps with
  | nil => rfl
  | cons p ps =>
    have hret : p.instruction.isReturnInst = true := by
      by_contra hno
      rw [beforeReturn, List.map_cons, List.takeWhile_cons_of_pos (by simpa using hno)] at h
      cases h
    rw [List.flatMap_cons, opened, hentry p List.mem_cons_self, Point.dummycalls_return hret]
    simp [withSyscalls, beforeReturn, Instrumented.isReturnInst, hret]

theorem isCleanup_other {p : Point} (hp : p.function = f)
    (hc : cleanupPosition f = (block, index)) (h : p.block ≠ block ∨ p.index ≠ index) :
    p.isCleanup = false := by
  have hne : (p.block, p.index) ≠ (block, index) := by
    intro he
    rw [Prod.mk.injEq] at he
    rcases h with h | h
    · exact h he.1
    · exact h he.2
  rw [Point.isCleanup, hp, hc, decide_eq_false hne, Bool.and_false]

theorem weave_other {p : Point} (h : p.isCleanup = false) :
    weave r size p = opened r size p := by
  rw [weave, opened, Point.syscalls, h]
  cases hret : p.instruction.isReturnInst with
  | true => simp only [Bool.false_eq_true, ↓reduceIte, List.nil_append, List.append_nil,
      Point.dummycalls_return hret]
  | false => simp only [Bool.false_eq_true, ↓reduceIte, List.append_nil]

theorem Point.isEntry_block {p : Point} (hp : p ∈ locateBlock f k bb) (h : k ≠ 0) :
    p.isEntry = false :=
  isEntry_other (.inl ((mem_locateBlock.1 hp).2.1 ▸ h))

theorem opened_no_return {p : Point} (h : p.instruction.isReturnInst = false) :
    ∀ x ∈ opened r size p, x.isReturnInst = false := by
  intro x hx
  rcases List.mem_append.1 hx with hx | hx
  · obtain ⟨c, -, rfl⟩ := List.mem_map.1 hx
    rfl
  · rw [List.mem_singleton.1 hx]
    exact h

theorem beforeReturn_after {bbs : List (List Instruction)} {after : List (List Point)}
    (h : ∀ bb ∈ bbs, beforeReturn Instruction.isReturnInst bb = [])
    (hafter : ∀ bb' ∈ after, ∃ bb ∈ bbs, ∃ block, n < block ∧ bb' = locateBlock f block bb) :
    ∀ bb ∈ after.map fun bb => bb.flatMap (opened r size),
      beforeReturn Instrumented.isReturnInst bb = [] := by
  rw [List.forall_mem_map]
  intro bb' hbb'
  obtain ⟨bb, hbb, block, hlt, rfl⟩ := hafter bb' hbb'
  apply beforeReturn_opened
  · intro p hp
    exact Point.isEntry_block hp (Nat.ne_of_gt (Nat.zero_lt_of_lt hlt))
  · rw [locateBlock, map_instruction fun k => k]
    exact h bb hbb

/-- What the first handler puts before an instruction. -/
def Point.callsBefore (r : FileToMapReader) (size : Nat) (p : Point) : List Instrumented :=
  ((if p.isEntry then [InjectedCall.sandboxInit size] else []) ++ p.dummycalls r).map .syscall

theorem weave_cleanup {p : Point} (hcleanup : p.isCleanup = true)
    (hret : p.instruction.isReturnInst = false) :
    weave r size p =
      p.callsBefore r size ++ .syscall .sandboxCleanup :: [.source p.instruction] := by
  rw [weave, Point.syscalls, hret, hcleanup]
  simp only [Bool.false_eq_true, ↓reduceIte, withSyscalls, Point.callsBefore, List.map_append,
    List.map_cons, List.map_nil, List.append_assoc, List.cons_append, List.nil_append]

theorem opened_block_no_return (hpos : ∀ x ∈ is ++ [i], x.isReturnInst = false) (p : Point) :
    ∀ x ∈ (locateBlock f block is).flatMap (opened r size) ++ p.callsBefore r size ++ [.source i],
      x.isReturnInst = false := by
  intro x hx
  simp only [List.mem_append, List.mem_singleton] at hx
  rcases hx with (hx | hx) | rfl
  · obtain ⟨q, hq, hx⟩ := List.mem_flatMap.1 hx
    obtain ⟨-, -, hi⟩ := mem_locateBlock.1 hq
    exact opened_no_return (hpos _ (List.mem_append_left _ (List.mem_of_getElem? hi))) x hx
  · obtain ⟨c, -, rfl⟩ := List.mem_map.1 hx
    rfl
  · exact hpos i (List.mem_append_right _ List.mem_cons_self)

/-- The cleanup goes before the last instruction that is no return. -/
theorem insert_cleanup (r : FileToMapReader) (size : Nat) {f : Routine Instruction}
    (hmain : isMain f.name = true) (hsplit : f.blocks = bbs₁ ++ (is ++ i :: rest) :: bbs₂)
    (hpos : ∀ x ∈ is ++ [i], x.isReturnInst = false)
    (hrest : beforeReturn Instruction.isReturnInst rest = [])
    (hafter : ∀ bb ∈ bbs₂, beforeReturn Instruction.isReturnInst bb = []) :
    ∃ position, lastInst Instrumented.isReturnInst ((locate f).flatMap (opened r size)).blocks =
        some position ∧
      insertBefore ((locate f).flatMap (opened r size)).blocks position (.syscall .sandboxCleanup) =
        ((locate f).flatMap (weave r size)).blocks := by
  obtain ⟨before, after, located, hlocate, hlen, hmap, hindex, hblocks, hmem⟩ := locate_split hsplit
  have hposition : cleanupPosition f = (bbs₁.length, is.length) := by
    rw [cleanupPosition, hsplit, lastInst_some bbs₁ hpos hrest hafter, Option.getD_some]
  have hret : i.isReturnInst = false := hpos i (List.mem_append_right _ List.mem_cons_self)
  have hcleanup : Point.isCleanup ⟨f, bbs₁.length, is.length, i⟩ = true := by
    rw [Point.isCleanup, hmain, hposition, decide_eq_true rfl]
    rfl
  generalize hp : Point.mk f bbs₁.length is.length i = p at hlocate hcleanup
  have hinstruction : p.instruction = i := by rw [← hp]
  have hopened : opened r size p = p.callsBefore r size ++ [.source i] := by
    rw [← hinstruction]
    rfl
  have hweave : weave r size p =
      p.callsBefore r size ++ .syscall .sandboxCleanup :: [.source i] := by
    rw [weave_cleanup hcleanup (by rw [hinstruction]; exact hret), hinstruction]
  refine ⟨(before.length, ((locateBlock f bbs₁.length is).flatMap (opened r size) ++
    p.callsBefore r size).length), ?_, ?_⟩
  · have hblock : (locateBlock f bbs₁.length is ++ p :: located).flatMap (opened r size) =
        ((locateBlock f bbs₁.length is).flatMap (opened r size) ++ p.callsBefore r size) ++
          .source i :: located.flatMap (opened r size) := by
      rw [List.flatMap_append, List.flatMap_cons, hopened]
      simp only [List.append_assoc, List.singleton_append]
    have hlocated :
        beforeReturn Instrumented.isReturnInst (located.flatMap (opened r size)) = [] := by
      apply beforeReturn_opened
      · intro q hq
        exact Point.isEntry_other (.inr (Nat.ne_of_gt (Nat.zero_lt_of_lt (hindex q hq))))
      · rw [hmap]
        exact hrest
    rw [Routine.flatMap, hlocate, List.map_append, List.map_cons, hblock,
      lastInst_some _ (opened_block_no_return hpos p) hlocated (beforeReturn_after hafter hblocks),
      List.length_map]
  · rw [Routine.flatMap, Routine.flatMap, hlocate]
    apply insertBefore_woven hopened hweave
    intro q hq
    exact weave_other (isCleanup_other (hmem q hq).1 hposition (hmem q hq).2)

/-- If all blocks start with a return, the cleanup goes to the start. -/
theorem insert_cleanup_start (r : FileToMapReader) (size : Nat) {f : Routine Instruction}
    (hmain : isMain f.name = true) (hsplit : f.blocks = (i :: rest) :: bbs)
    (h : ∀ bb ∈ f.blocks, beforeReturn Instruction.isReturnInst bb = []) :
    ∃ position, lastInst Instrumented.isReturnInst ((locate f).flatMap (opened r size)).blocks =
        some position ∧
      insertBefore ((locate f).flatMap (opened r size)).blocks position (.syscall .sandboxCleanup) =
        ((locate f).flatMap (weave r size)).blocks := by
  have hposition : cleanupPosition f = (0, 0) := by
    rw [cleanupPosition, lastInst_none h]
    rfl
  have hsplit' : f.blocks = [] ++ ([] ++ i :: rest) :: bbs := hsplit
  obtain ⟨before, after, located, hlocate, hlen, -, -, hblocks, hmem⟩ := locate_split hsplit'
  cases List.eq_nil_of_length_eq_zero hlen
  rw [hsplit, List.forall_mem_cons] at h
  have hret : i.isReturnInst = true := by
    by_contra hno
    rw [beforeReturn, List.takeWhile_cons_of_pos (by simpa using hno)] at h
    cases h.1
  have hopened : opened r size ⟨f, 0, 0, i⟩ =
      [] ++ [.syscall (.sandboxInit size), .source i] := by
    rw [opened, Point.dummycalls_return hret, Point.isEntry, hmain]
    rfl
  have hweave : weave r size ⟨f, 0, 0, i⟩ =
      [] ++ .syscall .sandboxCleanup :: [.syscall (.sandboxInit size), .source i] := by
    rw [weave, Point.syscalls, Point.isEntry, Point.isCleanup, hmain, hposition, hret]
    rfl
  refine ⟨(0, 0), ?_, ?_⟩
  · have hblock : (⟨f, 0, 0, i⟩ :: located).flatMap (opened r size) =
        [] ++ .syscall (.sandboxInit size) :: .source i :: located.flatMap (opened r size) := by
      rw [List.flatMap_cons, hopened]
      rfl
    have hrest : beforeReturn Instrumented.isReturnInst
        (.source i :: located.flatMap (opened r size)) = [] := by
      simp [beforeReturn, Instrumented.isReturnInst, hret]
    rw [Routine.flatMap, hlocate]
    change lastInst Instrumented.isReturnInst
      ((Point.mk f 0 0 i :: located).flatMap (opened r size) :: _) = _
    rw [hblock]
    have hcall : ∀ x ∈ [] ++ [Instrumented.syscall (.sandboxInit size)],
        x.isReturnInst = false := by
      simp [Instrumented.isReturnInst]
    exact lastInst_some [] hcall hrest (beforeReturn_after h.2 hblocks)
  · rw [Routine.flatMap, Routine.flatMap, hlocate]
    apply insertBefore_woven hopened hweave
    intro q hq
    exact weave_other (isCleanup_other (hmem q hq).1 hposition (hmem q hq).2)

theorem memoryCleanupFunction_eq (r : FileToMapReader) (size : Nat) {f : Routine Instruction}
    (h : ∀ bb ∈ f.blocks, bb ≠ []) :
    memoryCleanupFunction ((locate f).flatMap (opened r size)) =
      some ((locate f).flatMap (weave r size)) := by
  have hname (g : Point → List Instrumented) : ((locate f).flatMap g).name = f.name := rfl
  rw [memoryCleanupFunction, isEmpty_locate, hname]
  cases hf : f.blocks with
  | nil =>
    have hblocks : (locate f).blocks = [] := by rw [locate, hf]; rfl
    simp only [List.isEmpty_nil, ↓reduceIte, Routine.flatMap, hblocks, List.map_nil]
  | cons bb bbs =>
    simp only [List.isEmpty_cons, Bool.false_eq_true, ↓reduceIte]
    cases hmain : isMain f.name with
    | false =>
      simp only [Bool.false_eq_true, ↓reduceIte, Option.some.injEq]
      apply flatMap_locate_congr
      intro p hp
      apply (weave_other _).symm
      rw [Point.isCleanup, hp, hmain, Bool.false_and]
    | true =>
      have hinsert : ∃ position,
          lastInst Instrumented.isReturnInst ((locate f).flatMap (opened r size)).blocks =
            some position ∧
          insertBefore ((locate f).flatMap (opened r size)).blocks position
              (.syscall .sandboxCleanup) = ((locate f).flatMap (weave r size)).blocks := by
        rcases lastBlock_cases Instruction.isReturnInst f.blocks with
          hnone | ⟨bbs₁, is, i, rest, bbs₂, hsplit, hpos, hrest, hafter⟩
        · cases hbb : bb with
          | nil => exact absurd hbb (h bb (by rw [hf]; exact List.mem_cons_self))
          | cons i rest => exact insert_cleanup_start r size hmain (by rw [hf, hbb]) hnone
        · exact insert_cleanup r size hmain hsplit hpos hrest hafter
      obtain ⟨position, hlast, hblocks⟩ := hinsert
      simp only [↓reduceIte, hlast, Option.bind_eq_bind, Option.bind_some, hblocks]
      rfl

/-- The program that comes out is the program that goes in, with the system calls of each
instruction before it. -/
theorem FileToMapReader.instrument_eq (r : FileToMapReader) (size : Nat) (m : List IRFunction) :
    r.instrument size (m.map IRFunction.code) =
      some ((m.map fun f => locate f.code).map (Routine.flatMap (weave r size))) := by
  have hne (f : IRFunction) : ∀ bb ∈ f.code.blocks, bb ≠ [] := by
    intro bb hbb
    obtain ⟨b, -, rfl⟩ := List.mem_map.1 hbb
    obtain ⟨is, i, hi, -⟩ := b.terminated
    rw [hi]
    exact List.append_ne_nil_of_right_ne_nil _ (List.cons_ne_nil _ _)
  rw [instrument, memoryCleanupHandler, sectionAddressHandler]
  induction m with
  | nil => rfl
  | cons f m ih =>
    rw [List.map_cons, List.map_cons, List.map_cons, List.mapM_cons, ih, injectFunction_eq,
      sectionAddressFunction_eq r size (hne f), memoryCleanupFunction_eq r size (hne f)]
    rfl

end LibcSandbox
