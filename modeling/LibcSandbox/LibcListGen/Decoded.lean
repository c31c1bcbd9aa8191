import LibcSandbox.Kernel.Announced
import LibcSandbox.LibcListGen.FuncDump

namespace LibcSandbox
open Library
set_option autoImplicit true

variable {G : Graaf} {symbols : List Symbol} {r : FileToMapReader} {m : IRModule}
  {hash : String → UInt64} {out : PassOutput G} {preserved : PreservedAnalyses}

/-- The name of the symbol with this index. -/
def symbolName (symbols : List Symbol) (c : UInt64) : Option String :=
  symbols[c.toNat]?.bind Symbol.name

/-- The function of the symbol table that is called at a place by its name, in a function that the
pass does not skip. -/
def Point.libraryFunction (symbols : List Symbol) (p : Point) : Option String :=
  match p.instruction with
  | .call (some callee) =>
    if !isSkipped p.function.name && symbols.any fun s => s.isFunction && s.name == some callee.name
    then some callee.name else none
  | _ => none

/-- An instruction of the program itself. -/
def Instrumented.instruction : Instrumented → Option Instruction
  | .source i => some i
  | .syscall _ => none

theorem readFileToMap_listing (h : symbols.length < 2147483648) :
    ∃ r, FileToMapReader.empty.readFileToMap (some (extractFunctionNames symbols)) = (.ok true, r) ∧
      r.loaded = true ∧ Lists symbols r.stringMap := by
  have hint : ∀ k, k < 0 + symbols.length → IsInt (k : Nat) := by
    intro k hk
    rw [IsInt]
    omega
  obtain ⟨stringMap, hread, hlast⟩ := readLines_writeSymbols symbols 0 (fun _ => none) hint
  refine ⟨⟨stringMap, true⟩, ?_, rfl, hlast.lists⟩
  rw [extractFunctionNames_of_lt h]
  simp only [FileToMapReader.readFileToMap, FileToMapReader.empty, hread]

theorem exists_functionAt_iff (symbols : List Symbol) (name : String) :
    (∃ i, FunctionAt symbols name i) ↔
      (symbols.any fun s => s.isFunction && s.name == some name) = true := by
  simp only [List.any_eq_true, Bool.and_eq_true, beq_iff_eq]
  apply Iff.intro
  · intro hx
    obtain ⟨i, s, hs, hf, hname⟩ := hx
    exact ⟨s, List.mem_of_getElem? hs, hf, hname⟩
  · intro hx
    obtain ⟨s, hs, hf, hname⟩ := hx
    obtain ⟨i, hi⟩ := List.mem_iff_getElem?.1 hs
    exact ⟨i, s, hi, hf, hname⟩

theorem Lists.isStringInMap (h : Lists symbols r.stringMap) (hl : r.loaded = true) (name : String) :
    r.isStringInMap name = symbols.any fun s => s.isFunction && s.name == some name := by
  rw [FileToMapReader.isStringInMap, hl, if_pos rfl, Bool.eq_iff_iff, h.keys,
    exists_functionAt_iff]

/-- The number that is put in for a function of the symbol table is its last index there. -/
theorem Lists.number (h : Lists symbols r.stringMap) (hlen : symbols.length < 2147483648)
    (hsome : (r.stringMap name).isSome) :
    ∃ i, IsGreatest {i | FunctionAt symbols name i} i ∧
      (toUnsignedLong (getValueFromMap r.stringMap name)).toNat = i := by
  obtain ⟨v, hv⟩ := Option.isSome_iff_exists.1 hsome
  obtain ⟨i, rfl, hi⟩ := h.last name v hv
  refine ⟨i, hi, ?_⟩
  obtain ⟨s, hs, -⟩ := hi.1
  have hlt := (List.getElem?_eq_some_iff.1 hs).1
  rw [getValueFromMap, hv, Option.getD_some, toNat_toUnsignedLong]
  omega

theorem Lists.symbolName (h : Lists symbols r.stringMap) (hlen : symbols.length < 2147483648)
    (hsome : (r.stringMap name).isSome) :
    symbolName symbols (toUnsignedLong (getValueFromMap r.stringMap name)) = some name := by
  obtain ⟨i, ⟨⟨s, hs, -, hname⟩, -⟩, hi⟩ := h.number hlen hsome
  rw [LibcSandbox.symbolName, hi, hs]
  exact hname

theorem Point.libraryFunction_isSome (h : Lists symbols r.stringMap) {p : Point}
    (hp : p.libraryFunction symbols = some name) : (r.stringMap name).isSome := by
  rw [h.keys, exists_functionAt_iff]
  rw [Point.libraryFunction] at hp
  split at hp
  next callee _ =>
    rw [Option.ite_none_right_eq_some, Bool.and_eq_true] at hp
    obtain ⟨⟨-, hlisted⟩, he⟩ := hp
    rw [← Option.some.inj he]
    exact hlisted
  next => cases hp

theorem Point.dummycalls_listed (h : Lists symbols r.stringMap) (hl : r.loaded = true) (p : Point) :
    libcallIds (p.dummycalls r) = (p.libraryFunction symbols).toList.map fun name =>
      toUnsignedLong (getValueFromMap r.stringMap name) := by
  obtain ⟨f, block, index, i⟩ := p
  rw [Point.dummycalls, Point.libraryFunction]
  cases hskip : isSkipped f.name with
  | true =>
    simp only [↓reduceIte, Bool.not_true, Bool.false_and, Bool.false_eq_true]
    split <;> rfl
  | false =>
    simp only [Bool.false_eq_true, ↓reduceIte, Bool.not_false, Bool.true_and]
    cases i with
    | call callee =>
      cases callee with
      | none => rfl
      | some callee =>
        simp only [FileToMapReader.dummycallBefore, h.isStringInMap hl]
        split <;> rfl
    | branch successors => rfl
    | ret => rfl
    | other => rfl

theorem libcalls_listed (h : Lists symbols r.stringMap) (hl : r.loaded = true) (τ : List Point) :
    r.libcalls τ = (τ.filterMap (Point.libraryFunction symbols)).map fun name =>
      toUnsignedLong (getValueFromMap r.stringMap name) := by
  induction τ with
  | nil => rfl
  | cons p τ ih =>
    rw [FileToMapReader.libcalls] at ih ⊢
    rw [List.flatMap_cons, libcallIds_append, ih, p.dummycalls_listed h hl, List.filterMap_cons]
    cases p.libraryFunction symbols <;> rfl

theorem libcalls_decoded (h : Lists symbols r.stringMap) (hl : r.loaded = true)
    (hlen : symbols.length < 2147483648) (τ : List Point) :
    (r.libcalls τ).map (symbolName symbols) =
      (τ.filterMap (Point.libraryFunction symbols)).map some := by
  rw [libcalls_listed h hl, List.map_map]
  apply List.map_congr_left
  intro name hname
  obtain ⟨p, -, hp⟩ := List.mem_filterMap.1 hname
  exact h.symbolName hlen (Point.libraryFunction_isSome h hp)

theorem instructions_weave (r : FileToMapReader) (size : Nat) (τ : List Point) :
    (τ.flatMap (weave r size)).filterMap Instrumented.instruction = τ.map Point.instruction := by
  rw [List.filterMap_flatMap, List.map_eq_flatMap]
  apply List.flatMap_congr
  intro p _
  have hcalls (calls : List InjectedCall) :
      (calls.map Instrumented.syscall).filterMap Instrumented.instruction = [] := by
    rw [List.filterMap_map]
    exact List.filterMap_eq_nil_iff.2 fun _ _ => rfl
  rw [weave, withSyscalls, List.filterMap_append, hcalls]
  rfl

theorem runPass_of_read {listing : Option (List Char)} {opened : Bool}
    (hread : FileToMapReader.empty.readFileToMap listing = (.ok opened, r)) :
    (runPass listing hash edgeList neighborList m : Except Halt (PreservedAnalyses × PassOutput G)) =
      (r.runOnModule hash edgeList neighborList m).map fun out =>
        (if out.insertedAtLeastOnePrintf then .none else .all, out) := by
  simp only [runPass, hread]
  cases (r.runOnModule hash edgeList neighborList m : Except Halt (PassOutput G)) with
  | error e => rfl
  | ok out => rfl

theorem runOnModule_of_runPass {listing : Option (List Char)} {opened : Bool}
    (hread : FileToMapReader.empty.readFileToMap listing = (.ok opened, r))
    (h : runPass listing hash edgeList neighborList m = .ok (preserved, out)) :
    r.runOnModule hash edgeList neighborList m = .ok out := by
  rw [runPass_of_read hread] at h
  cases hout : (r.runOnModule hash edgeList neighborList m : Except Halt (PassOutput G)) with
  | error e =>
    rw [hout] at h
    cases h
  | ok output =>
    rw [hout] at h
    cases h
    rfl

/-- The executions of a program that is compiled with the listing of a symbol table are executions
of the program itself. The numbers that they announce, looked up in the symbol table, are the
library functions that they call. -/
theorem announced_decoded (h : symbols.length < 2147483648)
    (hpass : runPass (some (extractFunctionNames symbols)) hash edgeList neighborList m =
      .ok (preserved, out))
    {f' : Routine Instrumented} (hf : f' ∈ out.functions) {w : List Instrumented}
    (hrun : Run Instrumented.control out.functions (.routines [f']) w) :
    ∃ f ∈ m.functions, f.getName = f'.name ∧ ∃ τ,
      Executes (m.functions.map ModuleFunction.ir) f.ir τ ∧
      w.filterMap Instrumented.instruction = τ.map Point.instruction ∧
      (libcallIds (events w)).map (symbolName symbols) =
        (τ.filterMap (Point.libraryFunction symbols)).map some := by
  obtain ⟨r, hread, hl, hlists⟩ := readFileToMap_listing h
  obtain ⟨-, -, -, hc⟩ := compiled_of_runOnModule (runOnModule_of_runPass hread hpass)
  rw [hc.functions] at hf hrun
  obtain ⟨_, hlocated, rfl⟩ := List.mem_map.1 hf
  obtain ⟨_, hir, rfl⟩ := List.mem_map.1 hlocated
  obtain ⟨f, hfm, rfl⟩ := List.mem_map.1 hir
  obtain ⟨τ, hτ, rfl⟩ := (run_flatMap_iff (weaves r memoryPoolSize)
    (.routines [locate f.ir.code]) w).1 hrun
  refine ⟨f, hfm, rfl, τ, hτ, instructions_weave r memoryPoolSize τ, ?_⟩
  rw [libcallIds_weave]
  exact libcalls_decoded hlists hl h τ

theorem oneLine_puts : ∀ s ∈ some "puts", '\n' ∉ s.toList := by decide

/-- The second symbol is the only function. -/
def putsSymbols : List Symbol := [⟨false, none, by simp⟩, ⟨true, some "puts", oneLine_puts⟩]

theorem putsSymbols_read :
    FileToMapReader.empty.readFileToMap (some (extractFunctionNames putsSymbols)) =
      (.ok true, firstReader) := by
  have hlines : lines '\n' (extractFunctionNames putsSymbols) = ["1:puts".toList] := by
    decide +kernel
  have hentry : listingEntry "1:puts".toList = some ("puts", 1) := by decide +kernel
  have hread (stringMap : String → Option Int) : readLines stringMap ["1:puts".toList] =
      (.ok (), Function.update stringMap "puts" (some 1)) :=
    readLines_cons (readLine_listed hentry)
  have hmap : Function.update (fun _ => none) "puts" (some 1) = firstReader.stringMap := by
    funext name
    rw [Function.update_apply]
    rfl
  simp only [FileToMapReader.readFileToMap, hlines, FileToMapReader.empty, hread, hmap]
  rfl

/-- The loop announces what it prints with, by its index. -/
theorem loopModule_decoded : ∃ (out : PassOutput listGraaf) (w : List Instrumented),
    runPass (some (extractFunctionNames putsSymbols)) (fun _ => 1) (fun _ => 0) (fun _ => 0)
      loopModule = .ok (.none, out) ∧
    ∃ f ∈ loopModule.functions, f.getName = "main" ∧ ∃ τ,
      Executes (loopModule.functions.map ModuleFunction.ir) f.ir τ ∧
      w.filterMap Instrumented.instruction = τ.map Point.instruction ∧
      (libcallIds (events w)).map (symbolName putsSymbols) =
        (τ.filterMap (Point.libraryFunction putsSymbols)).map some := by
  obtain ⟨out, hout, -⟩ := loopModule_runs
  obtain ⟨-, -, -, hc⟩ := compiled_of_runOnModule hout
  have hpass : runPass (some (extractFunctionNames putsSymbols)) (fun _ => 1) (fun _ => 0)
      (fun _ => 0) loopModule = .ok (.none, out) := by
    have hinserted : out.insertedAtLeastOnePrintf = true := by
      rw [hc.inserted]
      decide +kernel
    rw [runPass_of_read putsSymbols_read, hout, Except.map, hinserted, if_pos rfl]
  have hmain : (locate loopMain.ir.code).flatMap (weave firstReader memoryPoolSize) ∈
      out.functions := by
    rw [hc.functions]
    exact List.mem_singleton_self _
  have hrun : Run Instrumented.control out.functions
      (.routines [(locate loopMain.ir.code).flatMap (weave firstReader memoryPoolSize)])
      ((loopRun 1).flatMap (weave firstReader memoryPoolSize)) := by
    rw [hc.functions]
    exact (loopRun_executes 1).flatMap (weaves firstReader memoryPoolSize)
  exact ⟨out, _, hpass, announced_decoded (by decide) hpass hmain hrun⟩

end LibcSandbox
