import Mathlib.Algebra.Order.Ring.Nat
import Mathlib.Tactic.Ring

namespace Library
set_option autoImplicit true

/-- A memory region, given by the byte at every offset from its base. -/
abbrev Bytes := Nat → UInt8

/-- Two regions hold the same bytes at the offsets from `lo` up to `hi`. -/
def AgreeOn (m m' : Bytes) (lo hi : Nat) : Prop := ∀ i, lo ≤ i → i < hi → m i = m' i

theorem AgreeOn.refl (m : Bytes) (lo hi : Nat) : AgreeOn m m lo hi := fun _ _ _ => rfl

theorem AgreeOn.symm (h : AgreeOn m m' lo hi) : AgreeOn m' m lo hi :=
  fun i hlo hhi => (h i hlo hhi).symm

theorem AgreeOn.trans (h : AgreeOn m m' lo hi) (h' : AgreeOn m' m'' lo hi) :
    AgreeOn m m'' lo hi :=
  fun i hlo hhi => (h i hlo hhi).trans (h' i hlo hhi)

theorem AgreeOn.mono (h : AgreeOn m m' lo hi) (hlo : lo ≤ lo') (hhi : hi' ≤ hi) :
    AgreeOn m m' lo' hi' :=
  fun i hi₁ hi₂ => h i (Nat.le_trans hlo hi₁) (Nat.lt_of_lt_of_le hi₂ hhi)

/-- The number whose `n` little-endian bytes start at `off`. -/
def readLE (m : Bytes) (off : Nat) : Nat → Nat
  | 0 => 0
  | n + 1 => (m off).toNat + 256 * readLE m (off + 1) n

/-- Store the `n` low bytes of `v`, least significant first. -/
def writeLE (m : Bytes) (off n v : Nat) : Bytes := fun i =>
  if off ≤ i ∧ i < off + n then UInt8.ofNat (v / 256 ^ (i - off)) else m i

theorem readLE_congr (h : AgreeOn m m' off (off + n)) : readLE m off n = readLE m' off n := by
  induction n generalizing off with
  | zero => rfl
  | succ n ih =>
    have hb := h off (Nat.le_refl _) (by omega)
    have ht := ih (h.mono (Nat.le_succ off) (by omega))
    simp only [readLE, hb, ht]

theorem writeLE_agree (h : hi ≤ off ∨ off + n ≤ lo) : AgreeOn m (writeLE m off n v) lo hi := by
  intro i hlo hhi
  have hout : ¬(off ≤ i ∧ i < off + n) := by omega
  simp only [writeLE, if_neg hout]

theorem writeLE_tail (m : Bytes) (off n v : Nat) :
    AgreeOn (writeLE m off (n + 1) v) (writeLE m (off + 1) n (v / 256)) (off + 1)
      (off + 1 + n) := by
  intro i hlo hhi
  have h₁ : off ≤ i ∧ i < off + (n + 1) := by omega
  have h₂ : off + 1 ≤ i ∧ i < off + 1 + n := ⟨hlo, hhi⟩
  have he : i - off = i - (off + 1) + 1 := by omega
  simp only [writeLE, if_pos h₁, if_pos h₂, he, pow_succ', Nat.div_div_eq_div_mul]

theorem readLE_writeLE (m : Bytes) (off n v : Nat) :
    readLE (writeLE m off n v) off n = v % 256 ^ n := by
  induction n generalizing m off v with
  | zero => simp only [readLE, pow_zero, Nat.mod_one]
  | succ n ih =>
    have hhead : (writeLE m off (n + 1) v off).toNat = v % 256 := by
      simp [writeLE]
    rw [readLE, hhead, readLE_congr (writeLE_tail m off n v), ih, pow_succ', Nat.mod_mul]

/-- The 64-bit word stored at `off`. -/
def readWord (m : Bytes) (off : Nat) : UInt64 := UInt64.ofNat (readLE m off 8)

def writeWord (m : Bytes) (off : Nat) (v : UInt64) : Bytes := writeLE m off 8 v.toNat

theorem readWord_congr (h : AgreeOn m m' off (off + 8)) : readWord m off = readWord m' off := by
  rw [readWord, readWord, readLE_congr h]

theorem readWord_toNat_mod (m : Bytes) (off : Nat) :
    (readWord m off).toNat % 256 = (m off).toNat := by
  have hlt := (m off).toNat_lt
  rw [readWord, UInt64.toNat_ofNat', readLE]
  omega

@[simp] theorem readWord_writeWord (m : Bytes) (off : Nat) (v : UInt64) :
    readWord (writeWord m off v) off = v := by
  have hv : v.toNat % 256 ^ 8 = v.toNat := Nat.mod_eq_of_lt v.toNat_lt
  rw [readWord, writeWord, readLE_writeLE, hv, UInt64.ofNat_toNat]

theorem writeWord_agree (h : hi ≤ off ∨ off + 8 ≤ lo) : AgreeOn m (writeWord m off v) lo hi :=
  writeLE_agree h

theorem readWord_writeWord_of_disjoint (h : off + 8 ≤ off' ∨ off' + 8 ≤ off) :
    readWord (writeWord m off' v) off = readWord m off :=
  (readWord_congr (writeWord_agree h)).symm

/-- Set the first `n` bytes of a region, as `memset` does. -/
def fill (m : Bytes) (n : Nat) (b : UInt8) : Bytes := fun i => if i < n then b else m i

/-- Overwrite the first `n` bytes of a region by those of another, as `memcpy` does. -/
def copy (m data : Bytes) (n : Nat) : Bytes := fun i => if i < n then data i else m i

theorem copy_agree_data (h : hi ≤ n) : AgreeOn (copy m data n) data lo hi := by
  intro i _ hhi
  simp only [copy, if_pos (Nat.lt_of_lt_of_le hhi h)]

theorem copy_fill (m data : Bytes) (n : Nat) (b : UInt8) :
    copy (fill m n b) data n = copy m data n := by
  funext i
  by_cases hi : i < n <;> simp only [copy, fill, hi, ↓reduceIte]

end Library
