import LibcSandbox.Library.Decimal
import LibcSandbox.Library.Lines
import LibcSandbox.Pass.LibraryCalls

namespace LibcSandbox
open Library
set_option autoImplicit true

variable {line : List Char} {ls : List (List Char)} {stringMap : String → Option Int}

def keyPart (line : List Char) : String := String.ofList (line.drop (line.idxOf ':' + 1))

def valuePart (line : List Char) : List Char := line.take (line.idxOf ':')

/-- The body of the loop in `readFileToMap`. -/
def readLine (stringMap : String → Option Int) (line : List Char) :
    Except ConversionError (String → Option Int) :=
  if line.idxOf ':' < line.length then
    match stoi (valuePart line) with
    | .error e => .error e
    | .ok value => .ok (Function.update stringMap (keyPart line) (some value))
  else .ok stringMap

/-- The loop, which ends with what `std::stoi` throws. -/
def readLines (stringMap : String → Option Int) :
    List (List Char) → Except ConversionError Unit × (String → Option Int)
  | [] => (.ok (), stringMap)
  | line :: lines =>
    match readLine stringMap line with
    | .error e => (.error e, stringMap)
    | .ok stringMap => readLines stringMap lines

/-- `file` is what the stream finds to open. -/
def FileToMapReader.readFileToMap (file : Option (List Char)) (r : FileToMapReader) :
    Except ConversionError Bool × FileToMapReader :=
  match file with
  | none => (.ok false, { r with loaded := false })
  | some contents =>
    match readLines r.stringMap (lines '\n' contents) with
    | (.error e, stringMap) => (.error e, ⟨stringMap, false⟩)
    | (.ok (), stringMap) => (.ok true, ⟨stringMap, true⟩)

def FileToMapReader.empty : FileToMapReader := ⟨fun _ => none, false⟩

/-- The name and the id in a line of the form `<decimal int>:<name>`. -/
def listingEntry (line : List Char) : Option (String × Int) :=
  if line.idxOf ':' < line.length then (decimalInt (valuePart line)).map fun v => (keyPart line, v)
  else none

/-- The file without its lines of another form. -/
def wellFormedPart (contents : List Char) : List Char :=
  unlines '\n' ((lines '\n' contents).filter fun line => (listingEntry line).isSome)

/-- The whole file is read, with the result that its lines of the listing's form have by
themselves, and none of the others throws or changes the map when it is its turn. -/
structure SkipsMalformed (contents : List Char) : Prop where
  returns : ∃ r, FileToMapReader.empty.readFileToMap (some contents) = (.ok true, r) ∧
    FileToMapReader.empty.readFileToMap (some (wellFormedPart contents)) = (.ok true, r)
  skips : ∀ before line after, lines '\n' contents = before ++ line :: after →
    listingEntry line = none → ∀ stringMap,
      readLines FileToMapReader.empty.stringMap before = (.ok (), stringMap) →
        readLine stringMap line = .ok stringMap

/-- Every line of another form that has a colon repeats what the lines before it say: `std::stoi`
takes its first part for an id which the map has already for its key. -/
def Harmless (stringMap : String → Option Int) : List (List Char) → Prop
  | [] => True
  | line :: lines =>
    match listingEntry line with
    | some (key, value) => Harmless (Function.update stringMap key (some value)) lines
    | none =>
      (line.idxOf ':' < line.length →
        ∃ value, stoi (valuePart line) = .ok value ∧ stringMap (keyPart line) = some value) ∧
      Harmless stringMap lines

theorem readLine_listed (h : listingEntry line = some (key, value)) :
    readLine stringMap line = .ok (Function.update stringMap key (some value)) := by
  rw [listingEntry] at h
  split at h
  next hcolon =>
    rw [Option.map_eq_some_iff] at h
    obtain ⟨v, hv, he⟩ := h
    cases he
    rw [readLine, if_pos hcolon, stoi_of_decimalInt hv]
  next => cases h

theorem readLine_eq_self_iff :
    readLine stringMap line = .ok stringMap ↔ (line.idxOf ':' < line.length →
      ∃ value, stoi (valuePart line) = .ok value ∧ stringMap (keyPart line) = some value) := by
  by_cases hcolon : line.idxOf ':' < line.length
  · rw [readLine, if_pos hcolon]
    cases stoi (valuePart line) with
    | error e => simp [hcolon]
    | ok value =>
      simp only [Except.ok.injEq, hcolon, forall_const, exists_eq_left']
      exact Function.update_eq_self_iff.trans eq_comm
  · simp only [readLine, hcolon, ↓reduceIte, false_implies]

theorem readLines_cons (h : readLine stringMap line = .ok stringMap') :
    readLines stringMap (line :: ls) = readLines stringMap' ls := by
  rw [readLines, h]

theorem Harmless.readLines (h : Harmless stringMap ls) :
    ∃ stringMap', LibcSandbox.readLines stringMap ls = (.ok (), stringMap') ∧
      LibcSandbox.readLines stringMap (ls.filter fun line => (listingEntry line).isSome) =
        (.ok (), stringMap') := by
  induction ls generalizing stringMap with
  | nil => exact ⟨stringMap, rfl, rfl⟩
  | cons line ls ih =>
    rw [Harmless] at h
    cases he : listingEntry line with
    | some entry =>
      obtain ⟨key, value⟩ := entry
      rw [he] at h
      obtain ⟨stringMap', hall, hpart⟩ := ih h
      have hread : readLine stringMap line = _ := readLine_listed he
      refine ⟨stringMap', (readLines_cons hread).trans hall, ?_⟩
      rw [List.filter_cons_of_pos (by rw [he]; rfl)]
      exact (readLines_cons hread).trans hpart
    | none =>
      rw [he] at h
      obtain ⟨stringMap', hall, hpart⟩ := ih h.2
      have hread := readLine_eq_self_iff.2 h.1
      refine ⟨stringMap', (readLines_cons hread).trans hall, ?_⟩
      rwa [List.filter_cons_of_neg (by rw [he]; exact Bool.false_ne_true)]

/-- What every line of another form has to be in its turn. -/
theorem harmless_iff :
    Harmless stringMap ls ↔ ∀ before line after, ls = before ++ line :: after →
      listingEntry line = none → ∀ stringMap',
        readLines stringMap before = (.ok (), stringMap') →
          readLine stringMap' line = .ok stringMap' := by
  induction ls generalizing stringMap with
  | nil =>
    apply Iff.intro
    · intro _ before line after hls
      exact absurd hls.symm (List.append_ne_nil_of_right_ne_nil _ (List.cons_ne_nil _ _))
    · intro _
      trivial
  | cons line ls ih =>
    rw [Harmless]
    cases he : listingEntry line with
    | some entry =>
      obtain ⟨key, value⟩ := entry
      have hread : readLine stringMap line = _ := readLine_listed he
      simp only [ih]
      apply Iff.intro
      · intro h before line' after hls hnone stringMap' hbefore
        cases before with
        | nil =>
          cases hls
          cases hnone.symm.trans he
        | cons first before =>
          cases hls
          rw [readLines_cons hread] at hbefore
          exact h before line' after rfl hnone stringMap' hbefore
      · intro h before line' after hls hnone stringMap' hbefore
        exact h (line :: before) line' after (by rw [hls]; rfl) hnone stringMap'
          ((readLines_cons hread).trans hbefore)
    | none =>
      simp only [ih, ← readLine_eq_self_iff]
      apply Iff.intro
      · intro h before line' after hls hnone stringMap' hbefore
        cases before with
        | nil =>
          cases hls
          cases hbefore
          exact h.1
        | cons first before =>
          cases hls
          rw [readLines_cons h.1] at hbefore
          exact h.2 before line' after rfl hnone stringMap' hbefore
      · intro h
        have hfirst := h [] line ls rfl he stringMap rfl
        refine ⟨hfirst, ?_⟩
        intro before line' after hls hnone stringMap' hbefore
        exact h (line :: before) line' after (by rw [hls]; rfl) hnone stringMap'
          ((readLines_cons hfirst).trans hbefore)

theorem lines_wellFormedPart (contents : List Char) :
    lines '\n' (wellFormedPart contents) =
      (lines '\n' contents).filter fun line => (listingEntry line).isSome := by
  apply lines_unlines
  intro line hline
  exact sep_notMem_lines (List.mem_of_mem_filter hline)

/-- Malformed lines are skipped if and only if those with a colon are harmless. -/
theorem skipsMalformed_iff (contents : List Char) :
    SkipsMalformed contents ↔
      Harmless FileToMapReader.empty.stringMap (lines '\n' contents) := by
  apply Iff.intro
  · intro hx
    exact harmless_iff.2 hx.skips
  · intro h
    obtain ⟨stringMap, hall, hpart⟩ := h.readLines
    refine ⟨⟨⟨stringMap, true⟩, ?_, ?_⟩, harmless_iff.1 h⟩
    · simp only [FileToMapReader.readFileToMap, hall]
    · simp only [FileToMapReader.readFileToMap, lines_wellFormedPart, hpart]

/-- A line whose first part is no number throws. -/
theorem wordLine_throws : ¬∀ contents, SkipsMalformed contents := by
  intro h
  obtain ⟨r, hr, -⟩ := (h ['a', 'b', ':', 'p', 'u', 't', 's']).returns
  have hthrown : (FileToMapReader.empty.readFileToMap
      (some ['a', 'b', ':', 'p', 'u', 't', 's'])).1 = .error .invalidArgument := by
    decide +kernel
  rw [hr] at hthrown
  cases hthrown

end LibcSandbox
