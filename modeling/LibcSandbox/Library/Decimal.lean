import Mathlib.Data.List.TakeWhile
import Mathlib.Data.Int.Basic

namespace Library
set_option autoImplicit true

/-- The white space of the C locale. -/
def isspace (c : Char) : Bool := c = ' ' ∨ 9 ≤ c.toNat ∧ c.toNat ≤ 13

/-- What a conversion throws. -/
inductive ConversionError where
  | invalidArgument
  | outOfRange
  deriving DecidableEq

/-- The number is an `int`. -/
def IsInt (z : Int) : Prop := -2147483648 ≤ z ∧ z ≤ 2147483647

instance (z : Int) : Decidable (IsInt z) := inferInstanceAs (Decidable (_ ∧ _))

/-- A sign in front, if there is one: whether it is a minus, and what is behind it. -/
def splitSign : List Char → Bool × List Char
  | [] => (false, [])
  | c :: cs => if c = '-' then (true, cs) else if c = '+' then (false, cs) else (false, c :: cs)

def signedValue (negative : Bool) (digits : List Char) : Int :=
  if negative then -(Nat.ofDigitChars 10 digits 0 : Nat) else (Nat.ofDigitChars 10 digits 0 : Nat)

/-- The text is a decimal `int`, with or without a sign, and nothing else. -/
def decimalInt (cs : List Char) : Option Int :=
  let (negative, digits) := splitSign cs
  let value := signedValue negative digits
  if digits ≠ [] ∧ digits.all Char.isDigit ∧ IsInt value then some value else none

/-- `std::stoi`, which skips white space in front and ignores what stands behind the digits. -/
def stoi (cs : List Char) : Except ConversionError Int :=
  let (negative, cs) := splitSign (cs.dropWhile isspace)
  let digits := cs.takeWhile Char.isDigit
  let value := signedValue negative digits
  if digits = [] then .error .invalidArgument
  else if IsInt value then .ok value
  else .error .outOfRange

theorem isspace_of_isDigit (h : Char.isDigit c) : isspace c = false := by
  rw [Char.isDigit, Bool.and_eq_true, decide_eq_true_eq, decide_eq_true_eq] at h
  have hlo : 48 ≤ c.toNat := h.1
  have hne : c ≠ ' ' := by
    rintro rfl
    exact absurd hlo (by decide)
  simp only [isspace, hne, false_or, decide_eq_false_iff_not]
  omega

theorem dropWhile_isspace_of_decimalInt (h : decimalInt cs = some z) :
    cs.dropWhile isspace = cs := by
  cases cs with
  | nil => rfl
  | cons c cs =>
    have hc : isspace c = false := by
      by_cases hminus : c = '-'
      · rw [hminus]
        rfl
      · by_cases hplus : c = '+'
        · rw [hplus]
          rfl
        · simp only [decimalInt, splitSign, if_neg hminus, if_neg hplus,
            Option.ite_none_right_eq_some, List.all_cons, Bool.and_eq_true] at h
          exact isspace_of_isDigit h.1.2.1.1
    rw [List.dropWhile_cons_of_neg (by rw [hc]; exact Bool.false_ne_true)]

theorem stoi_of_decimalInt (h : decimalInt cs = some z) : stoi cs = .ok z := by
  have hspace := dropWhile_isspace_of_decimalInt h
  simp only [stoi, hspace]
  simp only [decimalInt, Option.ite_none_right_eq_some, Option.some.injEq] at h
  obtain ⟨⟨hne, hall, hint⟩, rfl⟩ := h
  have htake : (splitSign cs).2.takeWhile Char.isDigit = (splitSign cs).2 := by
    rw [List.takeWhile_eq_self_iff]
    exact List.all_eq_true.1 hall
  rw [htake, if_neg hne, if_pos hint]

theorem splitSign_of_isDigit (h : ∀ c ∈ cs, Char.isDigit c) : splitSign cs = (false, cs) := by
  cases cs with
  | nil => rfl
  | cons c cs =>
    have hc := h c List.mem_cons_self
    have hminus : c ≠ '-' := by
      rintro rfl
      exact absurd hc (by decide)
    have hplus : c ≠ '+' := by
      rintro rfl
      exact absurd hc (by decide)
    rw [splitSign, if_neg hminus, if_neg hplus]

theorem not_mem_toDigits (hc : Char.isDigit c = false) (n : Nat) : c ∉ Nat.toDigits 10 n := by
  intro hmem
  rw [Nat.isDigit_of_mem_toDigits (by decide) (by decide) hmem] at hc
  cases hc

theorem decimalInt_toDigits (h : IsInt (n : Nat)) : decimalInt (Nat.toDigits 10 n) = some ↑n := by
  have hall : ∀ c ∈ Nat.toDigits 10 n, Char.isDigit c := by
    intro c hc
    exact Nat.isDigit_of_mem_toDigits (by decide) (by decide) hc
  have hvalue : signedValue false (Nat.toDigits 10 n) = ↑n := by
    rw [signedValue, Nat.ofDigitChars_ten_toDigits]
    rfl
  have hdigits : (Nat.toDigits 10 n).all Char.isDigit := List.all_eq_true.2 hall
  simp only [decimalInt, splitSign_of_isDigit hall, hvalue, hdigits, Nat.toDigits_ne_nil, ne_eq,
    not_false_eq_true, h, and_self, ↓reduceIte]

end Library
