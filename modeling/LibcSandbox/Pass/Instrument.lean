import LibcSandbox.Pass.LibraryCalls
import Mathlib.Data.List.TakeWhile

namespace LibcSandbox
open Library
set_option autoImplicit true

def Instruction.isTerminator : Instruction → Bool
  | .branch _ => true
  | .ret => true
  | _ => false

/-- A block ends with its only terminator. -/
structure BasicBlock where
  instructions : List Instruction
  terminated : ∃ is i, instructions = is ++ [i] ∧ i.isTerminator = true ∧
    ∀ x ∈ is, x.isTerminator = false

/-- A declaration has no blocks. -/
structure IRFunction where
  name : String
  blocks : List BasicBlock

def IRFunction.code (f : IRFunction) : Routine Instruction where
  name := f.name
  blocks := f.blocks.map BasicBlock.instructions

def Instruction.isReturnInst : Instruction → Bool
  | .ret => true
  | _ => false

def Instrumented.isReturnInst : Instrumented → Bool
  | .source i => i.isReturnInst
  | .syscall _ => false

/-- The functions that are passed over. -/
def isSkipped (funcName : String) : Bool :=
  foundAtStart funcName "llvm." || foundAtStart funcName "syscall"

def isMain (funcName : String) : Bool := foundAtStart funcName "main"

/-- The last loop over the blocks of a function in `runOnModule`. -/
def FileToMapReader.injectFunction (r : FileToMapReader) (f : Routine Instruction) :
    Routine Instrumented where
  name := f.name
  blocks := f.blocks.map fun bb =>
    if isSkipped f.name then bb.map .source else r.injectDummySyscalls bb

def insertBefore (blocks : List (List ι)) (position : Nat × Nat) (i : ι) : List (List ι) :=
  blocks.modify position.1 fun bb => bb.insertIdx position.2 i

/-- The first block has no predecessors, so that the first insertion point is its start. -/
def sectionAddressFunction (size : Nat) (f : Routine Instrumented) : Routine Instrumented :=
  if f.blocks.isEmpty then f
  else if isMain f.name then
    { f with blocks := insertBefore f.blocks (0, 0) (.syscall (.sandboxInit size)) }
  else f

def sectionAddressHandler (size : Nat) (m : List (Routine Instrumented)) :
    List (Routine Instrumented) :=
  m.map (sectionAddressFunction size)

/-- The loop over the instructions of a block. -/
def lastInstInBlock (isReturnInst : ι → Bool) (block : Nat) :
    List ι → Nat → Option (Nat × Nat) → Option (Nat × Nat)
  | [], _, lastInst => lastInst
  | i :: is, index, lastInst =>
    if isReturnInst i then lastInst
    else lastInstInBlock isReturnInst block is (index + 1) (some (block, index))

/-- The loop over the blocks. -/
def lastInstFrom (isReturnInst : ι → Bool) :
    List (List ι) → Nat → Option (Nat × Nat) → Option (Nat × Nat)
  | [], _, lastInst => lastInst
  | bb :: bbs, block, lastInst =>
    lastInstFrom isReturnInst bbs (block + 1) (lastInstInBlock isReturnInst block bb 0 lastInst)

def lastInst (isReturnInst : ι → Bool) (blocks : List (List ι)) : Option (Nat × Nat) :=
  lastInstFrom isReturnInst blocks 0 none

/-- Nothing comes out where there is no place to insert the call. -/
def memoryCleanupFunction (f : Routine Instrumented) : Option (Routine Instrumented) :=
  if f.blocks.isEmpty then some f
  else if isMain f.name then do
    let position ← lastInst Instrumented.isReturnInst f.blocks
    return { f with blocks := insertBefore f.blocks position (.syscall .sandboxCleanup) }
  else some f

def memoryCleanupHandler (m : List (Routine Instrumented)) : Option (List (Routine Instrumented)) :=
  m.mapM memoryCleanupFunction

/-- The program that comes out, with a data section of some size. -/
def FileToMapReader.instrument (r : FileToMapReader) (size : Nat) (m : List (Routine Instruction)) :
    Option (List (Routine Instrumented)) :=
  memoryCleanupHandler (sectionAddressHandler size (m.map r.injectFunction))

theorem insertIdx_append (xs ys : List ι) (x : ι) :
    (xs ++ ys).insertIdx xs.length x = xs ++ x :: ys := by
  induction xs with
  | nil => rfl
  | cons y xs ih => rw [List.cons_append, List.length_cons, List.insertIdx_succ_cons, ih]; rfl

theorem insertBefore_append (bbs₁ bbs₂ : List (List ι)) (is rest : List ι) (i : ι) :
    insertBefore (bbs₁ ++ (is ++ rest) :: bbs₂) (bbs₁.length, is.length) i =
      bbs₁ ++ (is ++ i :: rest) :: bbs₂ := by
  rw [insertBefore]
  induction bbs₁ with
  | nil => rw [List.nil_append, List.length_nil, List.modify_zero_cons, insertIdx_append]; rfl
  | cons bb bbs₁ ih => rw [List.cons_append, List.length_cons, List.modify_succ_cons, ih]; rfl

/-- The instructions that a block starts with, up to a return. -/
def beforeReturn (isReturnInst : ι → Bool) (bb : List ι) : List ι :=
  bb.takeWhile fun i => !isReturnInst i

theorem lastInstInBlock_eq (isReturnInst : ι → Bool) (block : Nat) (bb : List ι) (index : Nat)
    (last : Option (Nat × Nat)) :
    (beforeReturn isReturnInst bb = [] → lastInstInBlock isReturnInst block bb index last = last) ∧
      ∀ is i, beforeReturn isReturnInst bb = is ++ [i] →
        lastInstInBlock isReturnInst block bb index last = some (block, index + is.length) := by
  induction bb generalizing index last with
  | nil =>
    refine ⟨fun _ => rfl, ?_⟩
    intro is i h
    simp [beforeReturn] at h
  | cons x bb ih =>
    rw [beforeReturn, lastInstInBlock]
    cases hx : isReturnInst x with
    | true => simp [hx]
    | false =>
      obtain ⟨hnil, hsome⟩ := ih (index + 1) (some (block, index))
      simp only [Bool.false_eq_true, ↓reduceIte, List.takeWhile_cons, hx, Bool.not_false,
        reduceCtorEq, false_implies, true_and]
      intro is i h
      rcases List.cons_eq_append_iff.1 h with ⟨rfl, heq⟩ | ⟨is', rfl, heq⟩
      · rw [List.cons.injEq] at heq
        exact hnil heq.2.symm
      · rw [hsome is' i heq, List.length_cons, Nat.add_assoc, Nat.add_comm 1]

theorem lastInstFrom_none {isReturnInst : ι → Bool} {bbs : List (List ι)}
    (h : ∀ bb ∈ bbs, beforeReturn isReturnInst bb = []) (block : Nat) (last : Option (Nat × Nat)) :
    lastInstFrom isReturnInst bbs block last = last := by
  induction bbs generalizing block with
  | nil => rfl
  | cons bb bbs ih =>
    rw [List.forall_mem_cons] at h
    rw [lastInstFrom, (lastInstInBlock_eq isReturnInst block bb 0 last).1 h.1, ih h.2]

theorem lastInst_none {isReturnInst : ι → Bool} {bbs : List (List ι)}
    (h : ∀ bb ∈ bbs, beforeReturn isReturnInst bb = []) : lastInst isReturnInst bbs = none :=
  lastInstFrom_none h 0 none

theorem beforeReturn_append {isReturnInst : ι → Bool} {is rest : List ι}
    (h : ∀ i ∈ is, isReturnInst i = false) :
    beforeReturn isReturnInst (is ++ rest) = is ++ beforeReturn isReturnInst rest := by
  apply List.takeWhile_append_of_pos
  intro i hi
  rw [h i hi]
  rfl

theorem lastInst_some {isReturnInst : ι → Bool} (bbs₁ : List (List ι)) {bbs₂ : List (List ι)}
    (h : ∀ x ∈ is ++ [i], isReturnInst x = false) (hrest : beforeReturn isReturnInst rest = [])
    (hafter : ∀ bb ∈ bbs₂, beforeReturn isReturnInst bb = []) :
    lastInst isReturnInst (bbs₁ ++ (is ++ i :: rest) :: bbs₂) =
      some (bbs₁.length, is.length) := by
  have hbb : beforeReturn isReturnInst (is ++ i :: rest) = is ++ [i] := by
    rw [List.append_cons, beforeReturn_append h, hrest, List.append_nil]
  have hfrom (block : Nat) (last : Option (Nat × Nat)) :
      lastInstFrom isReturnInst (bbs₁ ++ (is ++ i :: rest) :: bbs₂) block last =
        some (block + bbs₁.length, is.length) := by
    induction bbs₁ generalizing block last with
    | nil =>
      rw [List.nil_append, lastInstFrom, lastInstFrom_none hafter,
        (lastInstInBlock_eq isReturnInst block _ 0 last).2 is i hbb, Nat.zero_add]
      rfl
    | cons bb' bbs₁ ih =>
      rw [List.cons_append, lastInstFrom, ih, List.length_cons, Nat.add_assoc, Nat.add_comm 1]
  rw [lastInst, hfrom, Nat.zero_add]

theorem lastBlock_cases (isReturnInst : ι → Bool) (bbs : List (List ι)) :
    (∀ bb ∈ bbs, beforeReturn isReturnInst bb = []) ∨
      ∃ bbs₁ is i rest bbs₂, bbs = bbs₁ ++ (is ++ i :: rest) :: bbs₂ ∧
        (∀ x ∈ is ++ [i], isReturnInst x = false) ∧ beforeReturn isReturnInst rest = [] ∧
        ∀ bb ∈ bbs₂, beforeReturn isReturnInst bb = [] := by
  induction bbs with
  | nil => exact .inl (by simp)
  | cons bb bbs ih =>
    rcases ih with hnone | ⟨bbs₁, is, i, rest, bbs₂, rfl, hsome⟩
    · rcases List.eq_nil_or_concat (beforeReturn isReturnInst bb) with hbb | ⟨is, i, hbb⟩
      · exact .inl (List.forall_mem_cons.2 ⟨hbb, hnone⟩)
      · rw [List.concat_eq_append] at hbb
        have hsplit : is ++ i :: bb.dropWhile (fun i => !isReturnInst i) = bb := by
          rw [List.append_cons, ← hbb]
          exact List.takeWhile_append_dropWhile
        have hpos : ∀ x ∈ is ++ [i], isReturnInst x = false := by
          intro x hx
          rw [← hbb] at hx
          simpa using List.mem_takeWhile_imp hx
        refine .inr ⟨[], is, i, _, bbs, by rw [hsplit]; rfl, hpos, ?_, hnone⟩
        rw [← List.append_cancel_left_eq (is ++ [i]), ← beforeReturn_append hpos,
          ← List.append_cons, hsplit, hbb, List.append_nil]
    · exact .inr ⟨bb :: bbs₁, is, i, rest, bbs₂, rfl, hsome⟩

end LibcSandbox
