import LibcSandbox.Library.Bytes

namespace LibcSandbox
open Library
set_option autoImplicit true

def memoryPoolSize : Nat := 1024 * 1024
def mempoolVersion : UInt64 := 0x00000001
def graphMetaMagicNumber : UInt64 := 0xDEADBEEF
def nodeMagicNumber : UInt64 := 0xCAFEBABE
def edgeMagicNumber : UInt64 := 0xBAADF00D
def defaultNumberOfNodesListings : UInt64 := 4 * 1024

/-- `sizeof (struct graph_metadata)`: four words, the flag with its 31 reserved bytes,
three words. -/
def nodeTableOffset : Nat := 88

def errorInvalidGraph : Int := -1
def errorInvalidNode : Int := -2
def errorInvalidEdge : Int := -3
def errorInvalidState : Int := -5

/-- The bytes of `struct memory_pool`, of which only those below `memoryPoolSize` exist. -/
abbrev Pool := Bytes

def Pool.magic (p : Pool) : UInt64 := readWord p 0
def Pool.graphFinalized (p : Pool) : UInt8 := p 32
def Pool.numNodes (p : Pool) : UInt64 := readWord p 64
def Pool.nodesTableOffset (p : Pool) : UInt64 := readWord p 72

/-- `struct libcalls`, an edge record of 24 bytes. -/
structure Libcalls where
  magic : UInt64
  libcallid : UInt64
  nextProgstate : UInt64
  deriving DecidableEq

/-- `struct abstract_progstate`, a node record of 24 bytes. -/
structure AbstractProgstate where
  magic : UInt64
  id : UInt64
  numLibcalls : UInt64
  deriving DecidableEq

def sizeofRecord : Nat := 24

/-- The record at this offset lies wholly inside the pool. -/
def Inside (off : Nat) : Prop := off + sizeofRecord ≤ memoryPoolSize

instance (off : Nat) : Decidable (Inside off) := inferInstanceAs (Decidable (_ ≤ _))

def Pool.libcalls (p : Pool) (off : Nat) : Libcalls :=
  ⟨readWord p off, readWord p (off + 8), readWord p (off + 16)⟩

def Pool.progstate (p : Pool) (off : Nat) : AbstractProgstate :=
  ⟨readWord p off, readWord p (off + 8), readWord p (off + 16)⟩

def Pool.putLibcalls (p : Pool) (off : Nat) (e : Libcalls) : Pool :=
  writeWord (writeWord (writeWord p off e.magic) (off + 8) e.libcallid) (off + 16) e.nextProgstate

def Pool.putProgstate (p : Pool) (off : Nat) (n : AbstractProgstate) : Pool :=
  writeWord (writeWord (writeWord p off n.magic) (off + 8) n.id) (off + 16) n.numLibcalls

def Pool.setNumNodes (p : Pool) (n : UInt64) : Pool := writeWord p 64 n

def Pool.setGraphFinalized (p : Pool) (b : UInt8) : Pool := Function.update p 32 b

/-- The pool as `create_pool` leaves it: zeroed, then the metadata written. -/
def emptyPool : Pool :=
  let p : Pool := fun _ => 0
  let p := writeWord p 24 (UInt64.ofNat memoryPoolSize)
  let p := writeWord p 8 mempoolVersion
  let p := writeWord p 0 graphMetaMagicNumber
  let p := writeWord p 72 (UInt64.ofNat nodeTableOffset)
  writeWord p 64 0

theorem threeWords_agree (h : hi ≤ off ∨ off + sizeofRecord ≤ lo) :
    AgreeOn p (writeWord (writeWord (writeWord p off a) (off + 8) b) (off + 16) c) lo hi := by
  unfold sizeofRecord at h
  have ha : AgreeOn p (writeWord p off a) lo hi := writeWord_agree (by omega)
  have hb : AgreeOn (writeWord p off a) (writeWord (writeWord p off a) (off + 8) b) lo hi :=
    writeWord_agree (by omega)
  exact (ha.trans hb).trans (writeWord_agree (by omega))

theorem threeWords_read (p : Pool) (off : Nat) (a b c : UInt64) :
    let q := writeWord (writeWord (writeWord p off a) (off + 8) b) (off + 16) c
    readWord q off = a ∧ readWord q (off + 8) = b ∧ readWord q (off + 16) = c := by
  intro q
  refine ⟨?_, ?_, readWord_writeWord _ _ _⟩
  · rw [readWord_writeWord_of_disjoint (by omega), readWord_writeWord_of_disjoint (by omega),
      readWord_writeWord]
  · rw [readWord_writeWord_of_disjoint (by omega), readWord_writeWord]

theorem Pool.putLibcalls_agree (p : Pool) (e : Libcalls)
    (h : hi ≤ off ∨ off + sizeofRecord ≤ lo) : AgreeOn p (p.putLibcalls off e) lo hi :=
  threeWords_agree h

theorem Pool.putProgstate_agree (p : Pool) (n : AbstractProgstate)
    (h : hi ≤ off ∨ off + sizeofRecord ≤ lo) : AgreeOn p (p.putProgstate off n) lo hi :=
  threeWords_agree h

@[simp] theorem Pool.libcalls_putLibcalls (p : Pool) (off : Nat) (e : Libcalls) :
    (p.putLibcalls off e).libcalls off = e := by
  obtain ⟨ha, hb, hc⟩ := threeWords_read p off e.magic e.libcallid e.nextProgstate
  simp only [Pool.libcalls, Pool.putLibcalls, ha, hb, hc]

@[simp] theorem Pool.progstate_putProgstate (p : Pool) (off : Nat) (n : AbstractProgstate) :
    (p.putProgstate off n).progstate off = n := by
  obtain ⟨ha, hb, hc⟩ := threeWords_read p off n.magic n.id n.numLibcalls
  simp only [Pool.progstate, Pool.putProgstate, ha, hb, hc]

theorem Pool.libcalls_congr {p q : Pool} (h : AgreeOn p q off (off + sizeofRecord)) :
    p.libcalls off = q.libcalls off := by
  unfold sizeofRecord at h
  rw [Pool.libcalls, Pool.libcalls, readWord_congr (h.mono (by omega) (by omega)),
    readWord_congr (h.mono (by omega) (by omega)), readWord_congr (h.mono (by omega) (by omega))]

theorem Pool.progstate_congr {p q : Pool} (h : AgreeOn p q off (off + sizeofRecord)) :
    p.progstate off = q.progstate off := by
  unfold sizeofRecord at h
  rw [Pool.progstate, Pool.progstate, readWord_congr (h.mono (by omega) (by omega)),
    readWord_congr (h.mono (by omega) (by omega)), readWord_congr (h.mono (by omega) (by omega))]

/-- What the metadata says of a graph: its flag, magic number, number of nodes and table offset. -/
structure Header where
  finalized : UInt8
  magic : UInt64
  numNodes : UInt64
  tableOffset : UInt64
  deriving DecidableEq

def Pool.header (p : Pool) : Header :=
  ⟨p.graphFinalized, p.magic, p.numNodes, p.nodesTableOffset⟩

theorem Pool.header_eq_iff {p q : Pool} :
    p.header = q.header ↔ p.graphFinalized = q.graphFinalized ∧ p.magic = q.magic ∧
      p.numNodes = q.numNodes ∧ p.nodesTableOffset = q.nodesTableOffset := by
  simp only [Pool.header, Header.mk.injEq]

theorem Pool.header_congr {p q : Pool} (h : AgreeOn p q 0 nodeTableOffset) :
    p.header = q.header := by
  unfold nodeTableOffset at h
  have hw (off : Nat) (ho : off + 8 ≤ 88) : readWord p off = readWord q off :=
    readWord_congr (h.mono (Nat.zero_le _) ho)
  simp only [Pool.header, Pool.graphFinalized, Pool.magic, Pool.numNodes, Pool.nodesTableOffset,
    h 32 (by omega) (by omega), hw 0 (by omega), hw 64 (by omega), hw 72 (by omega)]

theorem Pool.header_setNumNodes (p : Pool) (n : UInt64) :
    (p.setNumNodes n).header = { p.header with numNodes := n } := by
  have hagree : AgreeOn p (p.setNumNodes n) 32 33 := writeWord_agree (.inl (by decide))
  have hf : p.setNumNodes n 32 = p 32 := (hagree 32 (by decide) (by decide)).symm
  have hm : readWord (p.setNumNodes n) 0 = readWord p 0 :=
    readWord_writeWord_of_disjoint (.inl (by decide))
  have ht : readWord (p.setNumNodes n) 72 = readWord p 72 :=
    readWord_writeWord_of_disjoint (.inr (by decide))
  have hn : readWord (p.setNumNodes n) 64 = n := readWord_writeWord _ _ _
  simp only [Pool.header, Pool.graphFinalized, Pool.magic, Pool.numNodes, Pool.nodesTableOffset,
    hf, hm, ht, hn]

theorem Pool.setNumNodes_agree (p : Pool) (n : UInt64) (h : nodeTableOffset ≤ lo) :
    AgreeOn p (p.setNumNodes n) lo hi :=
  writeWord_agree (.inr (Nat.le_trans (by decide) h))

theorem Pool.setGraphFinalized_agree (p : Pool) (b : UInt8) (h : hi ≤ 32 ∨ 33 ≤ lo) :
    AgreeOn p (p.setGraphFinalized b) lo hi := by
  intro i hlo hhi
  have hi : i ≠ 32 := by omega
  simp only [Pool.setGraphFinalized, Function.update_of_ne hi]

theorem Pool.header_setGraphFinalized (p : Pool) (b : UInt8) :
    (p.setGraphFinalized b).header = { p.header with finalized := b } := by
  have hw (off : Nat) (ho : off + 8 ≤ 32 ∨ 33 ≤ off) :
      readWord (p.setGraphFinalized b) off = readWord p off :=
    (readWord_congr (p.setGraphFinalized_agree b (by omega))).symm
  simp only [Pool.header, Pool.graphFinalized, Pool.magic, Pool.numNodes, Pool.nodesTableOffset,
    hw 0 (by omega), hw 64 (by omega), hw 72 (by omega)]
  simp only [Pool.setGraphFinalized, Function.update_self]

theorem header_emptyPool :
    emptyPool.header = ⟨0, graphMetaMagicNumber, 0, UInt64.ofNat nodeTableOffset⟩ := by
  decide +kernel

end LibcSandbox
