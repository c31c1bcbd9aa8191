import LibcSandbox.Library.Quoting
import LibcSandbox.Pass.Buffers
import LibcSandbox.Pass.ReadFile
import LibcSandbox.Pass.Shape
import LibcSandbox.Pass.Within

namespace LibcSandbox
open Library
set_option autoImplicit true

variable {G : Graaf}

/-- What `printAsOperand` prints for a block behind the "%", and the number that `setName` puts
behind it where the name is taken. A name with a quote or a bracket in it is printed quoted, with
its quotes escaped. -/
structure PrintedOperand where
  text : List Char
  quoting : Quoting '"' ']' text

/-- What is printed for a block without a name of its own. -/
def PrintedOperand.number (n : Nat) : PrintedOperand where
  text := Nat.toDigits 10 n
  quoting := .plain (not_mem_toDigits (by decide) n) (not_mem_toDigits (by decide) n)

/-- A block before it gets its name. -/
structure SourceBlock where
  operand : PrintedOperand
  block : BasicBlock

def blockName (funcName : String) (operand : PrintedOperand) : String :=
  "[" ++ funcName ++ "]%" ++ String.ofList operand.text

def nameBasicBlocks (funcName : String) (blocks : List SourceBlock) : List NamedBlock :=
  blocks.map fun bb => ⟨blockName funcName bb.operand, bb.block⟩

/-- A function of a module; a declaration has no blocks. No two blocks get the same name, and no
branch leads out of the function or to its first block. -/
structure ModuleFunction where
  getName : String
  blocks : List SourceBlock
  distinct : ((nameBasicBlocks getName blocks).map NamedBlock.getName).Nodup
  inside : ∀ bb ∈ nameBasicBlocks getName blocks, ∀ i ∈ bb.successors, i < blocks.length
  entry : ∀ bb ∈ nameBasicBlocks getName blocks, 0 ∉ bb.successors

def ModuleFunction.isDeclaration (f : ModuleFunction) : Bool := f.blocks.isEmpty

def ModuleFunction.body (f : ModuleFunction) (h : f.blocks ≠ []) : DefinedFunction where
  blocks := nameBasicBlocks f.getName f.blocks
  nonempty := by
    rw [nameBasicBlocks, ne_eq, List.map_eq_nil_iff]
    exact h
  distinct := f.distinct
  inside := by
    rw [nameBasicBlocks, List.length_map]
    exact f.inside
  entry := f.entry

def ModuleFunction.ir (f : ModuleFunction) : IRFunction where
  name := f.getName
  blocks := f.blocks.map SourceBlock.block

/-- No two functions of a module have the same name. -/
structure IRModule where
  functions : List ModuleFunction
  distinct : (functions.map ModuleFunction.getName).Nodup

def IRModule.code (m : IRModule) : List (Routine Instruction) :=
  (m.functions.map ModuleFunction.ir).map IRFunction.code

/-- The entry that the loop over the functions makes in `funcBBToMetaMap`. -/
def FileToMapReader.funcMeta (r : FileToMapReader) (f : ModuleFunction) :
    Option (String × FuncBBGraphMeta G) :=
  if h : f.blocks = [] then none
  else if isSkipped f.getName then none
  else some (f.getName, r.generateCallGraph (f.body h))

def FileToMapReader.funcBBToMetaMap (r : FileToMapReader) (m : IRModule) :
    List (String × FuncBBGraphMeta G) :=
  m.functions.filterMap r.funcMeta

/-- A loop over the map, in which each record is replaced. -/
def replaceRecords (replace : FuncBBGraphMeta G → Option (FuncBBGraphMeta G)) :
    List (String × FuncBBGraphMeta G) → Option (List (String × FuncBBGraphMeta G))
  | [] => some []
  | entry :: records => do
    let funcMeta ← replace entry.2
    let records ← replaceRecords replace records
    return (entry.1, funcMeta) :: records

def expandBBGraphs (records : List (String × FuncBBGraphMeta G)) :
    Option (List (String × FuncBBGraphMeta G)) :=
  replaceRecords expandBBGraph records

def convertBBGraphs (records : List (String × FuncBBGraphMeta G)) :
    Option (List (String × FuncBBGraphMeta G)) :=
  replaceRecords (fun m => (convertBBGraphToLibcCallGraph m).map Prod.fst) records

/-- The map when both passes over it are done. -/
def FileToMapReader.libcCallGraphs (r : FileToMapReader) (m : IRModule) :
    Option (List (String × FuncBBGraphMeta G)) := do
  convertBBGraphs (← expandBBGraphs (r.funcBBToMetaMap m))

def FileToMapReader.finalGraph (r : FileToMapReader) (m : IRModule) : Option (Merging G) := do
  combineLibcgGraph (.ofList (← r.libcCallGraphs m))

/-- A call that a system call is put before. -/
def FileToMapReader.isLibcCall (r : FileToMapReader) (i : Instruction) : Bool :=
  !(r.dummycallBefore i).isEmpty

def FileToMapReader.injects (r : FileToMapReader) (f : ModuleFunction) : Bool :=
  !isSkipped f.getName && f.blocks.any fun bb => bb.block.instructions.any r.isLibcCall

/-- What the pass leaves: the final graph, the contents of the new section, and the functions. -/
structure PassOutput (G : Graaf) where
  finalGraph : LibcCallgraph G
  finalGraphEntryNode : String
  finalGraphExitNode : String
  data : Pool
  functions : List (Routine Instrumented)
  insertedAtLeastOnePrintf : Bool

/-- A lookup that throws ends the program like a failed assertion. -/
def FileToMapReader.runOnModule (r : FileToMapReader) (hash : String → UInt64)
    (edgeList neighborList : Nat → UInt64) (m : IRModule) : Except Halt (PassOutput G) :=
  match r.libcCallGraphs m with
  | none => .error .abort
  | some records =>
    let funcs : FuncMap G := .ofList records
    match combineLibcgGraph funcs with
    | none => .error .abort
    | some final =>
      match (generateInMemoryGraph r.stringMap hash final.graph edgeList neighborList .initial).1 with
      | .error h => .error h
      | .ok none => .error .nullPointer
      | .ok (some data) =>
        match r.instrument memoryPoolSize m.code with
        | none => .error .nullPointer
        | some functions =>
          .ok ⟨final.graph, (funcs.get "main").entryNode, final.exitNode, data, functions,
            m.functions.any r.injects⟩

/-- Which analyses the pass reports as preserved. -/
inductive PreservedAnalyses where
  | none
  | all
  deriving DecidableEq

/-- `listing` is what the reader finds to open. An exception of the reader ends the program. -/
def runPass (listing : Option (List Char)) (hash : String → UInt64)
    (edgeList neighborList : Nat → UInt64) (m : IRModule) :
    Except Halt (PreservedAnalyses × PassOutput G) :=
  match FileToMapReader.empty.readFileToMap listing with
  | (.error _, _) => .error .abort
  | (.ok _, r) => do
    let output ← r.runOnModule hash edgeList neighborList m
    return (if output.insertedAtLeastOnePrintf then .none else .all, output)

end LibcSandbox
