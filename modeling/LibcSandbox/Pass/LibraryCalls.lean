import LibcSandbox.Library.Program
import LibcSandbox.Pass.InMemory

namespace LibcSandbox
open Library
set_option autoImplicit true

structure FileToMapReader where
  stringMap : String → Option Int
  loaded : Bool

def FileToMapReader.isStringInMap (r : FileToMapReader) (str : String) : Bool :=
  if r.loaded then (r.stringMap str).isSome else false

/-- What is asked of a function that is called. -/
structure Callee where
  name : String
  isIntrinsic : Bool
  isDeclaration : Bool

/-- An indirect call has no callee. -/
inductive Instruction where
  | call (callee : Option Callee)
  | branch (successors : List Nat)
  | ret
  | other

def Instruction.control : Instruction → Control
  | .call (some callee) => .call callee.name
  | .call none => .callPointer
  | .branch successors => .branch successors
  | .ret => .ret
  | .other => .next

/-- The system calls that are put into a program. -/
inductive InjectedCall where
  | sandboxInit (size : Nat)
  | sandboxDummycall (id : UInt64)
  | sandboxCleanup
  deriving DecidableEq

/-- An instruction of a program with system calls put in. -/
inductive Instrumented where
  | source (i : Instruction)
  | syscall (c : InjectedCall)

def Instrumented.control : Instrumented → Control
  | .source i => i.control
  | .syscall _ => .next

def Instrumented.event : Instrumented → Option InjectedCall
  | .source _ => none
  | .syscall c => some c

def FileToMapReader.libraryCall (r : FileToMapReader) : Instruction → Option String
  | .call (some callee) =>
    if r.isStringInMap callee.name then some ("libc:" ++ callee.name)
    else if callee.isIntrinsic then some ("llvm:" ++ callee.name)
    else if callee.isDeclaration then some ("decl:" ++ callee.name)
    else some ("user:" ++ callee.name)
  | _ => none

def FileToMapReader.getLibraryCalls (r : FileToMapReader) (bb : List Instruction) : List String :=
  bb.filterMap r.libraryCall

def injectDummySyscall (syscallNum : Int) : Instrumented :=
  .syscall (.sandboxDummycall (toUnsignedLong syscallNum))

/-- What stands in the place of an instruction after the injection. -/
def FileToMapReader.inject (r : FileToMapReader) (i : Instruction) : List Instrumented :=
  match i with
  | .call (some callee) =>
    if r.isStringInMap callee.name then
      [injectDummySyscall (getValueFromMap r.stringMap callee.name), .source i]
    else [.source i]
  | _ => [.source i]

def FileToMapReader.injectDummySyscalls (r : FileToMapReader) (bb : List Instruction) :
    List Instrumented :=
  bb.flatMap r.inject

/-- The numbers that go to `sandbox_dummycall` when the instructions are executed. -/
def dummycalls (bb : List Instrumented) : List UInt64 :=
  bb.filterMap fun i => match i with
    | .syscall (.sandboxDummycall id) => some id
    | _ => none

/-- The labels that are left when all vertices are merged. -/
def isTransition (label : String) : Bool := !isControl label && !isUser label

/-- The ids of the transitions that the graph has for a block. -/
def FileToMapReader.transitions (r : FileToMapReader) (bb : List Instruction) : List UInt64 :=
  ((r.getLibraryCalls bb).filter isTransition).map (libcId r.stringMap)

theorem isTransition_append (hs : s ∈ ["libc:", "llvm:", "decl:"]) (t : String) :
    isTransition (s ++ t) = true := by
  have hcontrol : isControl (s ++ t) = false := by
    rw [isControl, decide_eq_false_iff_not, ← String.toList_inj, String.toList_append]
    simp only [List.mem_cons, List.not_mem_nil, or_false] at hs
    rcases hs with rfl | rfl | rfl <;> simp
  have huser : isUser (s ++ t) = false := by
    rw [isUser, foundAtStart, String.toList_append]
    simp only [List.mem_cons, List.not_mem_nil, or_false] at hs
    rcases hs with rfl | rfl | rfl <;> rfl
  rw [isTransition, hcontrol, huser]
  rfl

theorem isTransition_user (t : String) : isTransition ("user:" ++ t) = false := by
  rw [isTransition, isUser, foundAtStart_append, Bool.not_true, Bool.and_false]

/-- A transition of the graph that no system call goes with. -/
def FileToMapReader.Unmatched (r : FileToMapReader) (callee : Callee) : Prop :=
  r.isStringInMap callee.name = false ∧ (callee.isIntrinsic = true ∨ callee.isDeclaration = true)

theorem FileToMapReader.transitions_cons (r : FileToMapReader) (i : Instruction)
    (bb : List Instruction) :
    r.transitions (i :: bb) = r.transitions [i] ++ r.transitions bb := by
  rw [transitions, transitions, transitions, getLibraryCalls, getLibraryCalls, getLibraryCalls,
    ← List.map_append, ← List.filter_append, ← List.filterMap_append]
  rfl

theorem FileToMapReader.dummycalls_cons (r : FileToMapReader) (i : Instruction)
    (bb : List Instruction) :
    dummycalls (r.injectDummySyscalls (i :: bb)) =
      dummycalls (r.injectDummySyscalls [i]) ++ dummycalls (r.injectDummySyscalls bb) := by
  rw [dummycalls, dummycalls, dummycalls, ← List.filterMap_append, injectDummySyscalls,
    injectDummySyscalls, injectDummySyscalls, ← List.flatMap_append]
  rfl

theorem FileToMapReader.transitions_listed {r : FileToMapReader}
    (h : r.isStringInMap callee.name = true) :
    r.transitions [.call (some callee)] =
      [toUnsignedLong (getValueFromMap r.stringMap callee.name)] := by
  have hlabel : r.getLibraryCalls [.call (some callee)] = ["libc:" ++ callee.name] := by
    simp only [getLibraryCalls, List.filterMap_cons, libraryCall, h, ↓reduceIte, List.filterMap_nil]
  have hkeep : isTransition ("libc:" ++ callee.name) = true :=
    isTransition_append (by simp) callee.name
  rw [transitions, hlabel, List.filter_cons_of_pos hkeep, List.filter_nil, List.map_cons,
    libcId_libc, List.map_nil]

theorem FileToMapReader.transitions_unmatched {r : FileToMapReader} (h : r.Unmatched callee) :
    ∃ id, r.transitions [.call (some callee)] = [id] := by
  have hlabel : ∃ s ∈ ["libc:", "llvm:", "decl:"],
      r.getLibraryCalls [.call (some callee)] = [s ++ callee.name] := by
    obtain ⟨hr, hd⟩ := h
    simp only [getLibraryCalls, List.filterMap_cons, libraryCall, hr, Bool.false_eq_true,
      ↓reduceIte, List.filterMap_nil]
    cases hi : callee.isIntrinsic with
    | true => exact ⟨"llvm:", by simp, rfl⟩
    | false =>
      have hd := hd.resolve_left (by rw [hi]; exact Bool.false_ne_true)
      simp only [hd, Bool.false_eq_true, ↓reduceIte]
      exact ⟨"decl:", by simp, rfl⟩
  obtain ⟨s, hs, hlabel⟩ := hlabel
  have hkeep : isTransition (s ++ callee.name) = true := isTransition_append hs callee.name
  rw [transitions, hlabel, List.filter_cons_of_pos hkeep]
  exact ⟨_, rfl⟩

theorem FileToMapReader.transitions_defined {r : FileToMapReader}
    (h : r.isStringInMap callee.name = false) (hi : callee.isIntrinsic = false)
    (hd : callee.isDeclaration = false) : r.transitions [.call (some callee)] = [] := by
  have hlabel : r.getLibraryCalls [.call (some callee)] = ["user:" ++ callee.name] := by
    simp only [getLibraryCalls, List.filterMap_cons, libraryCall, h, hi, hd, Bool.false_eq_true,
      ↓reduceIte, List.filterMap_nil]
  have hdrop : ¬isTransition ("user:" ++ callee.name) = true := by
    rw [isTransition_user]
    exact Bool.false_ne_true
  rw [transitions, hlabel, List.filter_cons_of_neg hdrop]
  rfl

theorem FileToMapReader.dummycalls_listed {r : FileToMapReader}
    (h : r.isStringInMap callee.name = true) :
    dummycalls (r.injectDummySyscalls [.call (some callee)]) =
      [toUnsignedLong (getValueFromMap r.stringMap callee.name)] := by
  simp [injectDummySyscalls, inject, h, dummycalls, injectDummySyscall]

theorem FileToMapReader.dummycalls_unlisted {r : FileToMapReader}
    (h : r.isStringInMap callee.name = false) :
    dummycalls (r.injectDummySyscalls [.call (some callee)]) = [] := by
  simp [injectDummySyscalls, inject, h, dummycalls]

theorem FileToMapReader.dummycalls_matched {r : FileToMapReader} (h : ¬r.Unmatched callee) :
    dummycalls (r.injectDummySyscalls [.call (some callee)]) =
      r.transitions [.call (some callee)] := by
  cases hr : r.isStringInMap callee.name with
  | true => rw [dummycalls_listed hr, transitions_listed hr]
  | false =>
    have hd := not_or.1 fun hd => h ⟨hr, hd⟩
    rw [Bool.not_eq_true, Bool.not_eq_true] at hd
    rw [dummycalls_unlisted hr, transitions_defined hr hd.1 hd.2]

theorem FileToMapReader.transitions_other (r : FileToMapReader)
    (h : ∀ callee, i ≠ .call (some callee)) : r.transitions [i] = [] := by
  have hlabel : r.getLibraryCalls [i] = [] := by
    rw [getLibraryCalls, List.filterMap_eq_nil_iff, List.forall_mem_singleton]
    cases i with
    | call callee =>
      cases callee with
      | none => rfl
      | some callee => exact absurd rfl (h callee)
    | _ => rfl
  rw [transitions, hlabel]
  rfl

theorem FileToMapReader.inject_other (r : FileToMapReader)
    (h : ∀ callee, i ≠ .call (some callee)) : r.inject i = [.source i] := by
  cases i with
  | call callee =>
    cases callee with
    | none => rfl
    | some callee => exact absurd rfl (h callee)
  | _ => rfl

theorem FileToMapReader.dummycalls_other (r : FileToMapReader)
    (h : ∀ callee, i ≠ .call (some callee)) : dummycalls (r.injectDummySyscalls [i]) = [] := by
  rw [injectDummySyscalls, List.flatMap_singleton, inject_other r h]
  rfl

theorem FileToMapReader.length_dummycalls_le (r : FileToMapReader) (bb : List Instruction) :
    (dummycalls (r.injectDummySyscalls bb)).length ≤ (r.transitions bb).length := by
  induction bb with
  | nil => exact Nat.le_refl _
  | cons i bb ih =>
    rw [dummycalls_cons, transitions_cons, List.length_append, List.length_append]
    apply Nat.add_le_add _ ih
    by_cases hi : ∃ callee, i = .call (some callee)
    · obtain ⟨callee, rfl⟩ := hi
      by_cases h : r.Unmatched callee
      · rw [dummycalls_unlisted h.1]
        exact Nat.zero_le _
      · rw [dummycalls_matched h]
    · rw [dummycalls_other r (not_exists.1 hi)]
      exact Nat.zero_le _

/-- Exactly where every call of a block is listed or goes to a function of the program, the system
calls of the block are the transitions that the graph has for it. -/
theorem FileToMapReader.dummycalls_eq_transitions_iff (r : FileToMapReader)
    (bb : List Instruction) :
    dummycalls (r.injectDummySyscalls bb) = r.transitions bb ↔
      ∀ callee, Instruction.call (some callee) ∈ bb → ¬r.Unmatched callee := by
  induction bb with
  | nil =>
    apply Iff.intro
    · intro _ callee hc
      cases hc
    · intro _
      rfl
  | cons i bb ih =>
    have hrest := r.length_dummycalls_le bb
    rw [dummycalls_cons, transitions_cons]
    by_cases hi : ∃ callee, i = .call (some callee)
    · obtain ⟨callee, rfl⟩ := hi
      simp only [List.mem_cons, Instruction.call.injEq, Option.some.injEq, forall_eq_or_imp]
      by_cases h : r.Unmatched callee
      · obtain ⟨id, hid⟩ := transitions_unmatched h
        rw [dummycalls_unlisted h.1, hid, List.nil_append]
        apply Iff.intro
        · intro heq
          rw [heq, List.length_append] at hrest
          exact absurd hrest (Nat.not_le_of_lt (Nat.lt_add_of_pos_left Nat.one_pos))
        · intro hx
          exact absurd h hx.1
      · rw [dummycalls_matched h, List.append_cancel_left_eq, ih, iff_true_intro h, true_and]
    · have hi := not_exists.1 hi
      have hmem (callee : Callee) :
          Instruction.call (some callee) ∈ i :: bb ↔ Instruction.call (some callee) ∈ bb := by
        rw [List.mem_cons, or_iff_right fun he => hi callee he.symm]
      simp only [dummycalls_other r hi, transitions_other r hi, List.nil_append, ih, hmem]

/-- A block that clears some memory and prints a line, with a listing of library functions. -/
def clearAndPrint : List Instruction :=
  [.call (some ⟨"llvm.memset.p0.i64", true, true⟩), .call (some ⟨"puts", false, true⟩)]

def putsReader : FileToMapReader where
  stringMap name := if name = "puts" then some 7 else none
  loaded := true

/-- The graph demands a step for the intrinsic function, and no system call makes it. -/
theorem clearAndPrint_unmatched :
    putsReader.transitions clearAndPrint = [0xffffffffffffffff, 7] ∧
      dummycalls (putsReader.injectDummySyscalls clearAndPrint) = [7] ∧
      dummycalls (putsReader.injectDummySyscalls clearAndPrint) ≠
        putsReader.transitions clearAndPrint := by
  decide +kernel

end LibcSandbox
