import LibcSandbox.Library.Layout
import LibcSandbox.MemGraph.Functions

namespace LibcSandbox
open Library
set_option autoImplicit true

/-- What an edge record says, its magic number aside. -/
structure Edge where
  libcallid : UInt64
  nextProgstate : UInt64
  deriving DecidableEq

/-- What a node record and the edge records behind it say. -/
structure Node where
  id : UInt64
  edges : List Edge
  deriving DecidableEq

def Node.size (n : Node) : Nat := sizeofRecord + n.edges.length * sizeofRecord

def EdgeAt (p : Pool) (off : Nat) (e : Edge) : Prop :=
  Inside off ∧ p.libcalls off = ⟨edgeMagicNumber, e.libcallid, e.nextProgstate⟩

/-- Consecutive edge records, all inside the pool. -/
def EdgesAt (p : Pool) (off : Nat) (es : List Edge) : Prop :=
  LaidOut (EdgeAt p) (fun _ => sizeofRecord) off es

structure NodeAt (p : Pool) (off : Nat) (n : Node) : Prop where
  inside : Inside off
  magic : (p.progstate off).magic = nodeMagicNumber
  id : (p.progstate off).id = n.id
  numLibcalls : (p.progstate off).numLibcalls.toNat = n.edges.length
  edges : EdgesAt p (off + sizeofRecord) n.edges

/-- The serialized form of a list of nodes lies in the pool from `off` on. -/
def TableAt (p : Pool) (off : Nat) (ns : List Node) : Prop := LaidOut (NodeAt p) Node.size off ns

/-- The offset of node `k` of a table that starts at `off`. -/
def nodeOffset (off : Nat) (ns : List Node) (k : Nat) : Nat := off + extent Node.size (ns.take k)

@[simp] theorem nodeOffset_zero (off : Nat) (ns : List Node) : nodeOffset off ns 0 = off := rfl

theorem nodeOffset_cons (off : Nat) (n : Node) (ns : List Node) (k : Nat) :
    nodeOffset off (n :: ns) (k + 1) = nodeOffset (off + n.size) ns k := by
  simp only [nodeOffset, List.take_succ_cons, extent_cons, Nat.add_assoc]

theorem EdgesAt.end_le (h : EdgesAt p off es) (hoff : off ≤ memoryPoolSize) :
    off + es.length * sizeofRecord ≤ memoryPoolSize := by
  induction es generalizing off with
  | nil => simpa only [List.length_nil, Nat.zero_mul, Nat.add_zero] using hoff
  | cons e es ih =>
    have ht : off + sizeofRecord + es.length * sizeofRecord ≤ memoryPoolSize := ih h.2 h.1.1
    simp only [List.length_cons, Nat.succ_mul]
    omega

theorem NodeAt.end_le (h : NodeAt p off n) : off + n.size ≤ memoryPoolSize := by
  have he := h.edges.end_le h.inside
  rw [Node.size]
  omega

theorem TableAt.end_le (h : TableAt p off ns) (hoff : off ≤ memoryPoolSize) :
    off + extent Node.size ns ≤ memoryPoolSize := by
  induction ns generalizing off with
  | nil => simpa only [extent_nil, Nat.add_zero] using hoff
  | cons n ns ih =>
    have ht := ih h.2 h.1.end_le
    rw [extent_cons]
    omega

theorem TableAt.congr {p q : Pool} (h : TableAt p off ns)
    (ha : AgreeOn p q off (off + extent Node.size ns)) : TableAt q off ns := by
  apply LaidOut.imp h
  intro o n ho hn hat
  have hr : AgreeOn p q o (o + sizeofRecord) := ha.mono ho (by rw [Node.size] at hn; omega)
  have hp := Pool.progstate_congr hr
  refine ⟨hat.inside, hp ▸ hat.magic, hp ▸ hat.id, hp ▸ hat.numLibcalls, ?_⟩
  apply LaidOut.imp hat.edges
  intro o' e ho' he hat'
  refine ⟨hat'.1, ?_⟩
  rw [extent_const] at he
  have hr' : AgreeOn p q o' (o' + sizeofRecord) :=
    ha.mono (by omega) (by rw [Node.size] at hn; omega)
  exact (Pool.libcalls_congr hr').symm.trans hat'.2

/-- Read `n` edge records, whatever their magic numbers are. -/
def Pool.readEdges (p : Pool) (off : Nat) : Nat → List Edge
  | 0 => []
  | n + 1 =>
    let e := p.libcalls off
    ⟨e.libcallid, e.nextProgstate⟩ :: p.readEdges (off + sizeofRecord) n

def Pool.readNode (p : Pool) (off : Nat) : Node :=
  let n := p.progstate off
  ⟨n.id, p.readEdges (off + sizeofRecord) n.numLibcalls.toNat⟩

def Pool.readTable (p : Pool) (off : Nat) : Nat → List Node
  | 0 => []
  | n + 1 => p.readNode off :: p.readTable (off + (p.readNode off).size) n

/-- The nodes that the metadata of a pool announces. -/
def Pool.table (p : Pool) : List Node := p.readTable p.nodesTableOffset.toNat p.numNodes.toNat

theorem EdgesAt.readEdges (h : EdgesAt p off es) : p.readEdges off es.length = es := by
  induction es generalizing off with
  | nil => rfl
  | cons e es ih =>
    simp only [List.length_cons, Pool.readEdges, h.1.2, ih h.2]

theorem NodeAt.readNode (h : NodeAt p off n) : p.readNode off = n := by
  simp only [Pool.readNode, h.id, h.numLibcalls, h.edges.readEdges]

theorem TableAt.readTable (h : TableAt p off ns) : p.readTable off ns.length = ns := by
  induction ns generalizing off with
  | nil => rfl
  | cons n ns ih =>
    simp only [List.length_cons, Pool.readTable, h.1.readNode, ih h.2]

theorem TableAt.table (h : TableAt p p.nodesTableOffset.toNat ns)
    (hl : ns.length = p.numNodes.toNat) : p.table = ns := by
  rw [Pool.table, ← hl, h.readTable]

end LibcSandbox
