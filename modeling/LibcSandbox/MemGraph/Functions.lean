import LibcSandbox.MemGraph.Pool

namespace LibcSandbox
open Library
set_option autoImplicit true

/-- Why a call does not return to its caller. All but the first three are undefined behaviour of
the code; the model stops at the first such access. -/
inductive Halt where
  | exitFailure
  | sigkill
  | abort
  | nullPointer
  | outOfPool (offset : Nat)
  | outOfListing (index : Nat)
  | doubleFree (allocation : Nat)
  deriving DecidableEq

/-- A call ends with a returned value or a halt, and in either case with a state. -/
abbrev Outcome (σ α : Type) := Except Halt α × σ

/-- The build of the library: inside the kernel, or in user space. -/
inductive Build where
  | kernel
  | user

/-- `PRINT_ERROR_AND_EXIT` only returns from the current function in the kernel build. -/
def Build.printErrorAndExit : Build → Except Halt Unit
  | .kernel => .ok ()
  | .user => .error .exitFailure

/-- The `int` a C conversion makes of an `unsigned long`. -/
def toInt (w : UInt64) : Int := (w.toNat : Int).bmod (2 ^ 32)

/-- The `unsigned long` a C conversion makes of an `int`. -/
def toUnsignedLong (z : Int) : UInt64 := UInt64.ofInt z

/-- The allocation behind `nodes`. A slot holds the offset of a node from the start of the pool,
or nothing where it is null or was never written. -/
structure Listing where
  slots : Nat
  entry : Nat → Option Nat

/-- What an allocation of `sizeof(struct abstract_progstate *) * n` bytes gives where there is memory
for it. The size is a product of 64 bits. -/
def Listing.malloc (n : UInt64) : Listing := ⟨(8 * n).toNat / 8, fun _ => none⟩

def Listing.realloc (L : Listing) (n : UInt64) : Listing :=
  ⟨(8 * n).toNat / 8, fun i => if i < L.slots ∧ i < (8 * n).toNat / 8 then L.entry i else none⟩

def Listing.write (L : Listing) (i node : Nat) : Except Halt Listing :=
  if i < L.slots then .ok { L with entry := Function.update L.entry i (some node) }
  else .error (.outOfListing i)

def Listing.read (L : Listing) (i : Nat) : Except Halt (Option Nat) :=
  if i < L.slots then .ok (L.entry i) else .error (.outOfListing i)

/-- The static variables of the library. Pointers into the pool are offsets from its start. -/
structure MemGraph where
  pool : Option Pool
  poolEdge : Nat
  nodes : Option Listing
  numNodesListings : UInt64
  currentProgstate : UInt64
  startNode : Option Nat

def MemGraph.initial : MemGraph := ⟨none, 0, none, 0, 0, none⟩

def createPool (m : MemGraph) : MemGraph :=
  { m with pool := some emptyPool, poolEdge := nodeTableOffset }

/-- Freeing the pool leaves nothing that `start_node` could be dereferenced to. -/
def destroyGraph (m : MemGraph) : MemGraph :=
  { m with pool := none, nodes := none, startNode := if m.pool.isSome then none else m.startNode }

/-- How a walk over records ends: at an address past them, or early with a code or a halt. -/
inductive Walk where
  | done (startNode : Nat)
  | stop (code : Int)
  | halt (h : Halt)
  deriving DecidableEq

/-- The inner loop of `verify_graph`, from edge `j` on with `remaining` edges to come. -/
def verifyEdges (p : Pool) (libcalls j startNode : Nat) : (remaining : Nat) → Walk
  | 0 => .done startNode
  | remaining + 1 =>
    if ¬Inside (libcalls + j * sizeofRecord) then
      .halt (.outOfPool (libcalls + j * sizeofRecord))
    else if (p.libcalls (libcalls + j * sizeofRecord)).magic ≠ edgeMagicNumber then
      .stop errorInvalidEdge
    else verifyEdges p libcalls (j + 1) (startNode + sizeofRecord) remaining

/-- The outer loop of `verify_graph`, from node `i` on with `remaining` nodes to come. -/
def verifyNodes (p : Pool) (nodes : Listing) (i startNode : Nat) :
    (remaining : Nat) → Outcome Listing Int
  | 0 => (.ok 1, nodes)
  | remaining + 1 =>
    match nodes.write i startNode with
    | .error h => (.error h, nodes)
    | .ok nodes =>
      if ¬Inside startNode then (.error (.outOfPool startNode), nodes)
      else
        let node := p.progstate startNode
        if node.magic ≠ nodeMagicNumber then (.ok errorInvalidNode, nodes)
        else
          let libcalls := startNode + sizeofRecord
          match verifyEdges p libcalls 0 libcalls node.numLibcalls.toNat with
          | .done startNode => verifyNodes p nodes (i + 1) startNode remaining
          | .stop code => (.ok code, nodes)
          | .halt h => (.error h, nodes)

def verifyGraph (m : MemGraph) : Outcome MemGraph Int :=
  match m.pool with
  | none => (.ok errorInvalidGraph, m)
  | some p =>
    if p.graphFinalized = 0 then (.ok errorInvalidState, m)
    else if p.magic ≠ graphMetaMagicNumber then (.ok errorInvalidGraph, m)
    else
      let nodes := m.nodes.getD (.malloc p.numNodes)
      let (result, nodes) := verifyNodes p nodes 0 p.nodesTableOffset.toNat p.numNodes.toNat
      (result, { m with nodes := some nodes })

/-- The end of `initialize_graph` and `load_graph`: verify what was copied into the pool. -/
def verifyLoaded (build : Build) (m : MemGraph) : Outcome MemGraph Unit :=
  match verifyGraph m with
  | (.error h, m) => (.error h, m)
  | (.ok code, m) => (if code ≠ 1 then build.printErrorAndExit else .ok (), m)

/-- The body of `initialize_graph` once there is a pool. The `memset` comes before the size is
looked at, so an oversized one already writes past the pool. -/
def initializePool (build : Build) (data : Option Bytes) (size : Nat) (p : Pool) (m : MemGraph) :
    Outcome MemGraph Unit :=
  let p := fill p size 0
  if memoryPoolSize < size then (.error (.outOfPool memoryPoolSize), { m with pool := some p })
  else
    match data with
    | some data =>
      if 0 < size then verifyLoaded build { m with pool := some (copy p data size) }
      else (.ok (), { m with pool := some p, nodes := none })
    | none => (.ok (), { m with pool := some p, nodes := none })

def initializeGraph (build : Build) (data : Option Bytes) (size : Nat) (m : MemGraph) :
    Outcome MemGraph Unit :=
  match m.pool with
  | none => initializePool build data size emptyPool (createPool m)
  | some p => initializePool build data size p m

/-- A file by its contents and length. -/
structure File where
  contents : Bytes
  length : Nat

def getGraph (m : MemGraph) : Option Pool := m.pool

/-- `opened` and `written` are what `fopen` and `fwrite` report. -/
def storeGraph (opened : Bool) (written : Nat) (m : MemGraph) : Except Halt File :=
  if ¬opened then .error .exitFailure
  else
    match m.pool with
    | none => .error .nullPointer
    | some p =>
      if written ≠ memoryPoolSize then .error .exitFailure else .ok ⟨p, memoryPoolSize⟩

/-- `file` is what `fopen` finds, and `fread` takes at most the size of the pool from it. -/
def loadGraph (file : Option File) (m : MemGraph) : Outcome MemGraph Unit :=
  match file with
  | none => (.error .exitFailure, m)
  | some file =>
    let m := if m.pool.isNone then createPool m else m
    let read := min file.length memoryPoolSize
    let m := { m with pool := m.pool.map fun p => copy p file.contents read }
    if read ≠ memoryPoolSize then (.error .exitFailure, m) else verifyLoaded .user m

/-- The part of `alloc_node` that makes room in the listing. -/
def growListings (m : MemGraph) : Outcome MemGraph Listing :=
  match m.nodes with
  | none =>
    let nodes := Listing.malloc defaultNumberOfNodesListings
    (.ok nodes, { m with nodes := some nodes })
  | some nodes =>
    match m.pool with
    | none => (.error .nullPointer, m)
    | some p =>
      if m.numNodesListings ≤ p.numNodes then
        let numNodesListings := m.numNodesListings + defaultNumberOfNodesListings
        let nodes := nodes.realloc numNodesListings
        (.ok nodes, { m with numNodesListings := numNodesListings, nodes := some nodes })
      else (.ok nodes, m)

/-- The loop of `alloc_node` over the edges, from edge `i` on with `remaining` to come. -/
def putEdges (libcalls : Nat) (libcallList successorNodeList : Nat → UInt64) (p : Pool) (i : Nat) :
    (remaining : Nat) → Outcome Pool Unit
  | 0 => (.ok (), p)
  | remaining + 1 =>
    if ¬Inside (libcalls + i * sizeofRecord) then
      (.error (.outOfPool (libcalls + i * sizeofRecord)), p)
    else
      let p := p.putLibcalls (libcalls + i * sizeofRecord)
        ⟨edgeMagicNumber, libcallList i, successorNodeList i⟩
      putEdges libcalls libcallList successorNodeList p (i + 1) remaining

def allocNode (id : UInt64) (numSuccessors : Int) (successorNodeList libcallList : Nat → UInt64)
    (m : MemGraph) : Outcome MemGraph Nat :=
  let node := m.poolEdge
  let m := { m with poolEdge := m.poolEdge + sizeofRecord }
  match growListings m with
  | (.error h, m) => (.error h, m)
  | (.ok nodes, m) =>
    match m.pool with
    | none => (.error .nullPointer, m)
    | some p =>
      if ¬Inside node then (.error (.outOfPool node), m)
      else
        let p := p.putProgstate node ⟨nodeMagicNumber, id, toUnsignedLong numSuccessors⟩
        let m := { m with pool := some p }
        match nodes.write id.toNat node with
        | .error h => (.error h, m)
        | .ok nodes =>
          -- for a `num_successors` that is not positive there are no edges and the cursor stays
          let libcalls := m.poolEdge
          let m := { m with
            nodes := some nodes, poolEdge := libcalls + numSuccessors.toNat * sizeofRecord }
          match putEdges libcalls libcallList successorNodeList p 0 numSuccessors.toNat with
          | (.error h, p) => (.error h, { m with pool := some p })
          | (.ok (), p) => (.ok node, { m with pool := some (p.setNumNodes (p.numNodes + 1)) })

def finalizeGraph (m : MemGraph) : Outcome MemGraph Unit :=
  match m.pool with
  | none => (.error .nullPointer, m)
  | some p => (.ok (), { m with pool := some (p.setGraphFinalized 1) })

def resetProgstate (m : MemGraph) : Outcome MemGraph Unit :=
  let m := { m with currentProgstate := 0 }
  match m.nodes with
  | none => (.error .nullPointer, m)
  | some nodes =>
    match nodes.read 0 with
    | .error h => (.error h, m)
    | .ok node => (.ok (), { m with startNode := node })

/-- The loop of `is_state_transition_valid`, from edge `i` on with `remaining` edges to come. -/
def findTransition (p : Pool) (libcalls : Nat) (libccall : UInt64) (i : Nat) :
    (remaining : Nat) → Except Halt Int
  | 0 => .ok 0
  | remaining + 1 =>
    if ¬Inside (libcalls + i * sizeofRecord) then
      .error (.outOfPool (libcalls + i * sizeofRecord))
    else
      let edge := p.libcalls (libcalls + i * sizeofRecord)
      if edge.libcallid = libccall then .ok (toInt edge.nextProgstate)
      else findTransition p libcalls libccall (i + 1) remaining

/-- The first edge record is looked at even where the node has no edges. -/
def isStateTransitionValid (m : MemGraph) (libccall : UInt64) : Except Halt Int :=
  match m.pool, m.startNode with
  | some p, some startNode =>
    if ¬Inside startNode then .error (.outOfPool startNode)
    else
      let node := p.progstate startNode
      let libcalls := startNode + sizeofRecord
      if node.magic ≠ nodeMagicNumber then .ok 0
      else if ¬Inside libcalls then .error (.outOfPool libcalls)
      else if (p.libcalls libcalls).magic ≠ edgeMagicNumber then .ok 0
      else findTransition p libcalls libccall 0 node.numLibcalls.toNat
  | _, _ => .error .nullPointer

def transitionToState (m : MemGraph) (libccall : UInt64) : Outcome MemGraph Int :=
  match m.pool with
  | none => (.error .nullPointer, m)
  | some p =>
    if p.numNodes ≤ m.currentProgstate then (.ok errorInvalidState, m)
    else
      match isStateTransitionValid m libccall with
      | .error h => (.error h, m)
      | .ok next =>
        let temp := toUnsignedLong next
        if temp ≠ 0 then
          let m := { m with currentProgstate := temp }
          match m.nodes with
          | none => (.error .nullPointer, m)
          | some nodes =>
            match nodes.read temp.toNat with
            | .error h => (.error h, m)
            | .ok node => (.ok (toInt temp), { m with startNode := node })
        else (.ok errorInvalidState, m)

end LibcSandbox
