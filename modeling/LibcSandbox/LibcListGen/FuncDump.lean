import LibcSandbox.Pass.ReadFile
import Mathlib.Order.Bounds.Basic

namespace LibcSandbox
open Library
set_option autoImplicit true

/-- An entry of the symbol table. The string table may have no name for it. -/
structure Symbol where
  isFunction : Bool
  name : Option String
  oneLine : ∀ s ∈ name, '\n' ∉ s.toList

variable {symbols : List Symbol} {stringMap stringMap' : String → Option Int} {text : List Char}

/-- What the loop in `extractFunctionNames` writes for a symbol, without the end of the line. -/
def Symbol.line (i : Nat) (s : Symbol) : Option (List Char) :=
  if s.isFunction then s.name.map fun name => Nat.toDigits 10 i ++ ':' :: name.toList else none

/-- The loop, from symbol `i` on. -/
def writeSymbols (i : Nat) : List Symbol → List Char
  | [] => []
  | s :: symbols =>
    match s.line i with
    | some line => line ++ '\n' :: writeSymbols (i + 1) symbols
    | none => writeSymbols (i + 1) symbols

/-- The number of symbols is taken for an `int`. -/
def extractFunctionNames (symbols : List Symbol) : List Char :=
  let count : Int := (symbols.length : Int).bmod (2 ^ 32)
  writeSymbols 0 (symbols.take count.toNat)

/-- A function of this name has this index in the symbol table. -/
def FunctionAt (symbols : List Symbol) (name : String) (i : Nat) : Prop :=
  ∃ s, symbols[i]? = some s ∧ s.isFunction ∧ s.name = some name

/-- The map has the functions of the symbol table and nothing else, each by its last index. -/
structure Lists (symbols : List Symbol) (stringMap : String → Option Int) : Prop where
  keys : ∀ name, (stringMap name).isSome ↔ ∃ i, FunctionAt symbols name i
  last : ∀ name v, stringMap name = some v →
    ∃ i : Nat, v = i ∧ IsGreatest {i | FunctionAt symbols name i} i
  distinct : ∀ name name' v, stringMap name = some v → stringMap name' = some v → name = name'
  missing : ∀ name, getValueFromMap stringMap name = -1 ↔ stringMap name = none

/-- What is written between the first colon and the end of a line is the name. -/
theorem Symbol.listingEntry_line {s : Symbol} (hi : IsInt (i : Nat)) (hl : s.line i = some text) :
    s.isFunction ∧ ∃ name, s.name = some name ∧ listingEntry text = some (name, ↑i) := by
  rw [Symbol.line, Option.ite_none_right_eq_some] at hl
  obtain ⟨hf, hl⟩ := hl
  obtain ⟨name, hname, rfl⟩ := Option.map_eq_some_iff.1 hl
  have hcolon : ':' ∉ Nat.toDigits 10 i := by
    intro hmem
    exact absurd (Nat.isDigit_of_mem_toDigits (by decide) (by decide) hmem) (by decide)
  have hpos : (Nat.toDigits 10 i ++ ':' :: name.toList).idxOf ':' = (Nat.toDigits 10 i).length := by
    rw [List.idxOf_append_of_notMem hcolon, List.idxOf_cons_self, Nat.add_zero]
  have hvalue : valuePart (Nat.toDigits 10 i ++ ':' :: name.toList) = Nat.toDigits 10 i := by
    rw [valuePart, hpos, List.take_left]
  have hkey : keyPart (Nat.toDigits 10 i ++ ':' :: name.toList) = name := by
    rw [keyPart, hpos, ← List.drop_drop, List.drop_left, List.drop_one, List.tail_cons,
      String.ofList_toList]
  have hlt : (Nat.toDigits 10 i).length < (Nat.toDigits 10 i ++ ':' :: name.toList).length := by
    rw [List.length_append, List.length_cons]
    omega
  refine ⟨hf, name, hname, ?_⟩
  rw [listingEntry, hpos, if_pos hlt, hvalue, hkey, decimalInt_toDigits hi, Option.map_some]

theorem Symbol.line_oneLine {s : Symbol} (hl : s.line i = some text) : '\n' ∉ text := by
  rw [Symbol.line, Option.ite_none_right_eq_some] at hl
  obtain ⟨name, hname, rfl⟩ := Option.map_eq_some_iff.1 hl.2
  rw [List.mem_append, List.mem_cons, not_or, not_or]
  refine ⟨?_, by decide, s.oneLine name hname⟩
  intro hmem
  exact absurd (Nat.isDigit_of_mem_toDigits (by decide) (by decide) hmem) (by decide)

theorem Symbol.line_none {s : Symbol} (hl : s.line i = none) (hf : s.isFunction) :
    s.name = none := by
  rw [Symbol.line, if_pos hf] at hl
  exact Option.map_eq_none_iff.1 hl

theorem functionAt_zero {s : Symbol} :
    FunctionAt (s :: symbols) name 0 ↔ s.isFunction ∧ s.name = some name := by
  simp only [FunctionAt, List.getElem?_cons_zero, Option.some.injEq, exists_eq_left']

theorem functionAt_succ {s : Symbol} :
    FunctionAt (s :: symbols) name (j + 1) ↔ FunctionAt symbols name j := by
  simp only [FunctionAt, List.getElem?_cons_succ]

theorem isGreatest_functionAt_succ {s : Symbol}
    (h : IsGreatest {j | FunctionAt symbols name j} j) :
    IsGreatest {j | FunctionAt (s :: symbols) name j} (j + 1) := by
  obtain ⟨hat, hmax⟩ := h
  refine ⟨functionAt_succ.2 hat, ?_⟩
  intro k hk
  cases k with
  | zero => exact Nat.zero_le _
  | succ k => exact Nat.succ_le_succ (hmax (functionAt_succ.1 hk))

/-- The value of a name is the last index, counted from `i` on, or the old value. -/
def LastIndex (symbols : List Symbol) (i : Nat) (stringMap stringMap' : String → Option Int) :
    Prop :=
  ∀ name, (∃ j, IsGreatest {j | FunctionAt symbols name j} j ∧
      stringMap' name = some ((i + j : Nat) : Int)) ∨
    (∀ j, ¬FunctionAt symbols name j) ∧ stringMap' name = stringMap name

theorem LastIndex.skip {s : Symbol} (h : LastIndex symbols (i + 1) stringMap stringMap')
    (hs : ∀ name, ¬(s.isFunction ∧ s.name = some name)) :
    LastIndex (s :: symbols) i stringMap stringMap' := by
  intro name
  rcases h name with ⟨j, hj, hv⟩ | ⟨hnone, hv⟩
  · left
    refine ⟨j + 1, isGreatest_functionAt_succ hj, ?_⟩
    rw [hv, Nat.add_assoc, Nat.add_comm 1]
  · right
    refine ⟨?_, hv⟩
    intro j hj
    cases j with
    | zero => exact hs name (functionAt_zero.1 hj)
    | succ j => exact hnone j (functionAt_succ.1 hj)

theorem LastIndex.enter {s : Symbol} (hf : s.isFunction) (hname : s.name = some key)
    (h : LastIndex symbols (i + 1) (Function.update stringMap key (some ↑i)) stringMap') :
    LastIndex (s :: symbols) i stringMap stringMap' := by
  intro name
  rcases h name with ⟨j, hj, hv⟩ | ⟨hnone, hv⟩
  · left
    refine ⟨j + 1, isGreatest_functionAt_succ hj, ?_⟩
    rw [hv, Nat.add_assoc, Nat.add_comm 1]
  · by_cases he : name = key
    · left
      refine ⟨0, ⟨functionAt_zero.2 ⟨hf, by rw [hname, he]⟩, ?_⟩, ?_⟩
      · intro k hk
        cases k with
        | zero => exact Nat.le_refl _
        | succ k => exact absurd (functionAt_succ.1 hk) (hnone k)
      · rw [hv, he, Function.update_self, Nat.add_zero]
    · right
      refine ⟨?_, by rw [hv, Function.update_of_ne he]⟩
      intro j hj
      cases j with
      | zero =>
        have hsame := (functionAt_zero.1 hj).2
        rw [hname] at hsame
        exact he (Option.some.inj hsame).symm
      | succ j => exact hnone j (functionAt_succ.1 hj)

/-- Reading what the loop writes enters the last index of every function. -/
theorem readLines_writeSymbols (symbols : List Symbol) (i : Nat) (stringMap : String → Option Int)
    (h : ∀ k, k < i + symbols.length → IsInt (k : Nat)) :
    ∃ stringMap', readLines stringMap (lines '\n' (writeSymbols i symbols)) =
      (.ok (), stringMap') ∧ LastIndex symbols i stringMap stringMap' := by
  induction symbols generalizing i stringMap with
  | nil =>
    refine ⟨stringMap, rfl, ?_⟩
    intro name
    right
    refine ⟨?_, rfl⟩
    intro j hj
    obtain ⟨s, hs, -⟩ := hj
    cases hs
  | cons s symbols ih =>
    rw [List.length_cons] at h
    have hrest : ∀ k, k < i + 1 + symbols.length → IsInt (k : Nat) := fun k hk => h k (by omega)
    cases hl : s.line i with
    | none =>
      obtain ⟨stringMap', hread, hlast⟩ := ih (i + 1) stringMap hrest
      refine ⟨stringMap', ?_, hlast.skip ?_⟩
      · rw [writeSymbols, hl]
        exact hread
      · intro name hs
        rw [Symbol.line_none hl hs.1] at hs
        cases hs.2
    | some text =>
      obtain ⟨hf, name, hname, hentry⟩ := Symbol.listingEntry_line (h i (by omega)) hl
      obtain ⟨stringMap', hread, hlast⟩ :=
        ih (i + 1) (Function.update stringMap name (some ↑i)) hrest
      refine ⟨stringMap', ?_, hlast.enter hf hname⟩
      rw [writeSymbols, hl]
      simp only
      rw [lines_append (Symbol.line_oneLine hl), readLines_cons (readLine_listed hentry)]
      exact hread

theorem LastIndex.lists (h : LastIndex symbols 0 (fun _ => none) stringMap) :
    Lists symbols stringMap := by
  have hlast : ∀ name v, stringMap name = some v →
      ∃ i : Nat, v = i ∧ IsGreatest {i | FunctionAt symbols name i} i := by
    intro name v hv
    rcases h name with ⟨j, hj, hv'⟩ | ⟨-, hv'⟩
    · rw [hv, Option.some.injEq, Nat.zero_add] at hv'
      exact ⟨j, hv', hj⟩
    · cases hv.symm.trans hv'
  constructor
  · intro name
    rcases h name with ⟨j, hj, hv⟩ | ⟨hnone, hv⟩
    · rw [hv]
      exact iff_of_true rfl ⟨j, hj.1⟩
    · rw [hv]
      exact iff_of_false Bool.false_ne_true fun hx => hnone _ hx.choose_spec
  · exact hlast
  · intro name name' v hv hv'
    obtain ⟨i, rfl, ⟨s, hs, -, hn⟩, -⟩ := hlast name v hv
    obtain ⟨i', hi', ⟨s', hs', -, hn'⟩, -⟩ := hlast name' _ hv'
    cases Int.ofNat_inj.1 hi'
    cases hs.symm.trans hs'
    exact Option.some.inj (hn.symm.trans hn')
  · intro name
    rw [getValueFromMap]
    cases hv : stringMap name with
    | none => exact iff_of_true rfl rfl
    | some v =>
      obtain ⟨i, rfl, -⟩ := hlast name v hv
      rw [Option.getD_some]
      exact iff_of_false (by omega) (Option.some_ne_none _)

theorem bmod_of_lt (h : n < 2147483648) : ((n : Nat) : Int).bmod (2 ^ 32) = n := by
  have hcut := Int.bmod_eq_iff (a := n) (b := 2 ^ 32) (c := n) (by decide)
  apply hcut.2
  push_cast
  omega

theorem extractFunctionNames_of_lt (h : symbols.length < 2147483648) :
    extractFunctionNames symbols = writeSymbols 0 symbols := by
  rw [extractFunctionNames, bmod_of_lt h, Int.toNat_natCast, List.take_length]

/-- The map that is read from the file of a symbol table of less than `2 ^ 31` entries lists its
functions. -/
theorem listing_roundTrips (symbols : List Symbol) (h : symbols.length < 2147483648) :
    ∃ r, FileToMapReader.empty.readFileToMap (some (extractFunctionNames symbols)) = (.ok true, r) ∧
      Lists symbols r.stringMap := by
  have hint : ∀ k, k < 0 + symbols.length → IsInt (k : Nat) := by
    intro k hk
    rw [IsInt]
    omega
  obtain ⟨stringMap, hread, hlast⟩ := readLines_writeSymbols symbols 0 (fun _ => none) hint
  refine ⟨⟨stringMap, true⟩, ?_, hlast.lists⟩
  rw [extractFunctionNames_of_lt h]
  simp only [FileToMapReader.readFileToMap, FileToMapReader.empty, hread]

/-- So many functions that their number is negative as an `int`. -/
def manySymbols : List Symbol :=
  List.replicate 2147483648 ⟨true, some "puts", by decide⟩

/-- None of them is written. -/
theorem manySymbols_unlisted :
    ¬∀ symbols, ∃ r, FileToMapReader.empty.readFileToMap (some (extractFunctionNames symbols)) =
      (.ok true, r) ∧ Lists symbols r.stringMap := by
  intro h
  obtain ⟨r, hr, hlists⟩ := h manySymbols
  have hwritten : extractFunctionNames manySymbols = [] := by
    have hlen : manySymbols.length = 2147483648 := List.length_replicate
    have hcount : ((2147483648 : Nat) : Int).bmod (2 ^ 32) = -2147483648 := by decide
    have hzero : (-2147483648 : Int).toNat = 0 := by decide
    simp only [extractFunctionNames, hlen, hcount, hzero, List.take_zero, writeSymbols]
  have hat : FunctionAt manySymbols "puts" 0 := by
    refine ⟨⟨true, some "puts", by decide⟩, ?_, rfl, rfl⟩
    rw [manySymbols, List.getElem?_replicate, if_pos (by decide)]
  have hkey := (hlists.keys "puts").2 ⟨0, hat⟩
  rw [hwritten] at hr
  cases hr
  cases hkey

/-- The third function has the name of the first. -/
theorem listing_roundTrips_duplicate :
    let symbols : List Symbol := [⟨true, some "puts", by decide⟩, ⟨false, some "environ", by decide⟩,
      ⟨true, some "puts", by decide⟩]
    ∃ r, FileToMapReader.empty.readFileToMap (some (extractFunctionNames symbols)) = (.ok true, r) ∧
      Lists symbols r.stringMap :=
  listing_roundTrips _ (by decide)

end LibcSandbox
