import HftEngine.Foundation.Double
import HftEngine.Foundation.Text

/-! What stod reads as a double: the nearest one to a decimal or hexadecimal numeral, an infinity
or a NaN. It throws where strtod reports a range error, on overflow and on underflow. -/
namespace HftEngine.Double
open Text Binary64

/-- The text starts with a word in small or capital letters. -/
def startsWith (word text : List Char) : Bool :=
  decide ((text.take word.length).map Char.toLower = word)

/-- The names of values that are no numerals. -/
def readName (text : List Char) : Option Double :=
  if startsWith ['i','n','f'] text then some (.infinity false)
  else if startsWith ['n','a','n'] text then some .nan
  else none

/-- A positive value is rounded, and with the 53 digits of a normal number it is still less than
any of them. -/
def Underflows (q : ℚ) : Prop := 0 < q ∧ q < 2 ^ (-1022 : ℤ) - 2 ^ (-1076 : ℤ) ∧ nearest q ≠ q

instance (q : ℚ) : Decidable (Underflows q) :=
  inferInstanceAs (Decidable
    (0 < q ∧ q < 2 ^ (-1022 : ℤ) - 2 ^ (-1076 : ℤ) ∧ nearest q ≠ q))

def stod (text : List Char) : Except ConversionError Double :=
  let signed := readSign (text.dropWhile isSpace)
  let sign (x : Double) : Double := if signed.1 then -x else x
  match readName signed.2, readMagnitude signed.2 with
  | some x, _ => .ok (sign x)
  | none, none => .error .invalidArgument
  | none, some value =>
    if (round value).isFinite = false ∨ Underflows value then .error .outOfRange
    else .ok (sign (round value))

instance : ReadNumber Double := ⟨stod⟩

example : (Text.stod "-1e-400".toList : Except ConversionError Double) = .error .outOfRange ∧
    (Text.stod "NaN".toList : Except ConversionError Double) = .ok .nan ∧
    (Text.stod "0.75x".toList : Except ConversionError Double) = .ok (3 / 4) := by
  decide +kernel

end HftEngine.Double
