import Mathlib.Algebra.Order.Field.Rat
import Mathlib.Data.List.TakeWhile
import Mathlib.Data.Nat.Digits.Defs

/-! Reading text with the C++ standard library: getline on a string stream, and stod, stoll
and stoi, which throw on text without a leading number. What stod reads depends on the type of
numbers. As rationals values are exact, nothing is too small, and the spellings of infinities and
NaNs are no numbers. -/
namespace HftEngine.Text

/-- `std::getline` on the unread part of a string stream: the next token and what remains.
It fails when everything has been read. -/
def getline (delim : Char) : List Char → Option (List Char × List Char)
  | [] => none
  | c :: cs => some ((c :: cs).takeWhile (· != delim),((c :: cs).dropWhile (· != delim)).drop 1)

theorem getline_shorter {delim : Char} {text line rest : List Char}
    (h : getline delim text = some (line,rest)) : rest.length < text.length := by
  cases text with
  | nil => contradiction
  | cons c cs =>
    simp only [getline, Option.some.injEq, Prod.mk.injEq] at h
    obtain ⟨-,rfl⟩ := h
    have hsuffix := ((c :: cs).dropWhile_suffix (· != delim)).length_le
    simp only [List.length_drop, List.length_cons] at hsuffix ⊢
    omega

/-- The lines that `std::getline` returns until the end of a text. -/
def lines (text : List Char) : List (List Char) :=
  match _h : getline '\n' text with
  | none => []
  | some (line,rest) => line :: lines rest
termination_by text.length
decreasing_by exact getline_shorter _h

inductive ConversionError
  | invalidArgument
  | outOfRange
  deriving DecidableEq, Repr

def isSpace (c : Char) : Bool := c.toNat = 32 || (9 ≤ c.toNat && c.toNat ≤ 13)

/-- An optional sign: whether it is a minus, and the text behind it. -/
def readSign : List Char → Bool × List Char
  | '-' :: cs => (true,cs)
  | '+' :: cs => (false,cs)
  | cs => (false,cs)

def digitValue (base : ℕ) (c : Char) : Option ℕ :=
  let value := if c.isDigit then c.toNat - 48 else
    if c.toLower.isLower then c.toLower.toNat - 87 else base
  if value < base then some value else none

/-- The longest run of digits in front of a text, and the text behind it. -/
def readDigits (base : ℕ) : List Char → List ℕ × List Char
  | [] => ([],[])
  | c :: cs =>
    match digitValue base c with
    | none => ([],c :: cs)
    | some d =>
      let rest := readDigits base cs
      (d :: rest.1,rest.2)

/-- The number that a list of digits spells, the most significant one first. -/
def digitsValue (base : ℕ) (digits : List ℕ) : ℕ := Nat.ofDigits base digits.reverse

/-- `strtoll` in base ten, before its range check. -/
def readInteger (text : List Char) : Option ℤ :=
  let signed := readSign (text.dropWhile isSpace)
  let digits := (readDigits 10 signed.2).1
  if digits = [] then none
  else
    let value : ℤ := digitsValue 10 digits
    some (if signed.1 then -value else value)

/-- The conversion to a signed integer of the given number of bits. -/
def toInteger (bits : ℕ) (text : List Char) : Except ConversionError ℤ :=
  match readInteger text with
  | none => .error .invalidArgument
  | some value =>
    if -2 ^ (bits - 1) ≤ value ∧ value < 2 ^ (bits - 1) then .ok value else .error .outOfRange

def stoll : List Char → Except ConversionError ℤ := toInteger 64

def stoi : List Char → Except ConversionError ℤ := toInteger 32

/-- The exponent behind a significand, 0 if there is none. -/
def readExponent (mark : Char) : List Char → ℤ
  | [] => 0
  | c :: cs =>
    let signed := readSign cs
    let value : ℤ := digitsValue 10 (readDigits 10 signed.2).1
    if c.toLower = mark then (if signed.1 then -value else value) else 0

/-- Digits with an optional point and an optional exponent, which counts powers of `radix`. -/
def readUnsigned (base : ℕ) (mark : Char) (radix : ℚ) (text : List Char) : Option ℚ :=
  let whole := readDigits base text
  let fraction := match whole.2 with
    | '.' :: cs => readDigits base cs
    | cs => ([],cs)
  let digits := whole.1 ++ fraction.1
  if digits = [] then none
  else
    let significand : ℚ := digitsValue base digits / base ^ fraction.1.length
    some (significand * radix ^ readExponent mark fraction.2)

/-- A decimal number, or a hexadecimal one behind 0x. -/
def readMagnitude : List Char → Option ℚ
  | '0' :: x :: cs =>
    if x.toLower = 'x' then (readUnsigned 16 'p' 2 cs).or (some 0)
    else readUnsigned 10 'e' 10 ('0' :: x :: cs)
  | cs => readUnsigned 10 'e' 10 cs

/-- `std::stod` without rounding. -/
def stodExact (text : List Char) : Except ConversionError ℚ :=
  let signed := readSign (text.dropWhile isSpace)
  match readMagnitude signed.2 with
  | none => .error .invalidArgument
  | some value =>
    -- From here on the nearest double is an infinity.
    if 2 ^ 1024 - 2 ^ 970 ≤ value then .error .outOfRange
    else .ok (if signed.1 then -value else value)

/-- What `std::stod` reads, for any type of numbers. -/
class ReadNumber (α : Type) where
  stod : List Char → Except ConversionError α

export ReadNumber (stod)

instance : ReadNumber ℚ := ⟨stodExact⟩

theorem getline_of_ne_nil (delim : Char) {text : List Char} (h : text ≠ []) :
    getline delim text =
      some (text.takeWhile (· != delim),(text.dropWhile (· != delim)).drop 1) := by
  cases text with
  | nil => exact absurd rfl h
  | cons c cs => rfl

/-- The tokens that getline returns are the fields between the delimiters. -/
theorem getline_of_splitOn {delim : Char} {text first second : List Char}
    {fields : List (List Char)} (h : text.splitOn delim = first :: second :: fields) :
    ∃ rest, getline delim text = some (first,rest) ∧ rest.splitOn delim = second :: fields := by
  have hmem : delim ∈ text := by
    by_contra hnot
    rw [List.splitOn_eq_singleton hnot] at h
    simp at h
  obtain ⟨before,after,rfl,hbefore⟩ := List.eq_append_cons_of_mem hmem
  rw [List.splitOn_append_cons_self_of_not_mem hbefore, List.cons.injEq] at h
  obtain ⟨rfl,hafter⟩ := h
  have hall : ∀ c ∈ before, (c != delim) = true := by
    intro c hc
    rw [bne_iff_ne]
    rintro rfl
    exact hbefore hc
  refine ⟨after,?_,hafter⟩
  rw [getline_of_ne_nil delim (by simp), List.takeWhile_append_of_pos hall,
    List.dropWhile_append_of_pos hall]
  simp

/-- The last field is what is left of the text. -/
theorem getline_of_splitOn_singleton {delim : Char} {text last : List Char}
    (h : text.splitOn delim = [last]) (hlast : last ≠ []) :
    getline delim text = some (last,[]) := by
  have htext : text = last := by
    have hjoin : [delim].intercalate (text.splitOn delim) = text := List.intercalate_splitOn delim
    rw [h] at hjoin
    simpa using hjoin.symm
  have hnot : delim ∉ last := by
    intro hmem
    obtain ⟨before,after,hsplit,hbefore⟩ := List.eq_append_cons_of_mem hmem
    rw [htext, hsplit, List.splitOn_append_cons_self_of_not_mem hbefore, List.cons.injEq] at h
    exact List.splitOn_ne_nil _ _ h.2
  have hall : ∀ c ∈ last, (c != delim) = true := by
    intro c hc
    rw [bne_iff_ne]
    rintro rfl
    exact hnot hc
  rw [htext, getline_of_ne_nil delim hlast, List.takeWhile_eq_self_iff.mpr hall,
    List.dropWhile_eq_nil_iff.mpr hall]
  rfl

theorem lines_nil : lines [] = [] := by
  rw [lines]
  rfl

theorem lines_append_newline {line : List Char} (hline : '\n' ∉ line) (rest : List Char) :
    lines (line ++ '\n' :: rest) = line :: lines rest := by
  have hall : ∀ c ∈ line, (c != '\n') = true := by
    intro c hc
    rw [bne_iff_ne]
    rintro rfl
    exact hline hc
  have hget : getline '\n' (line ++ '\n' :: rest) = some (line,rest) := by
    rw [getline_of_ne_nil '\n' (by simp), List.takeWhile_append_of_pos hall,
      List.dropWhile_append_of_pos hall]
    simp
  rw [lines]
  split
  · rename_i hnone
    rw [hget] at hnone
    contradiction
  · rename_i line' rest' hsome
    rw [hget, Option.some.injEq, Prod.mk.injEq] at hsome
    obtain ⟨rfl,rfl⟩ := hsome
    rfl

theorem stoi_nil : stoi [] = .error .invalidArgument := rfl

end HftEngine.Text
