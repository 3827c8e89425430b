import MatrixCalc.Decimal.Shortest

/-!
# The written form of a double

A double is written with its shortest digits, either in full with a decimal point or in exponent
form. `Layout.entry` is the form of the entries of a result, `Layout.journal` that of the numbers in
the journal; they differ in where the exponent form begins and in the point of a whole number.
-/

namespace MatrixCalc

structure Layout where
  /-- Whether a number is written in full, by the power of ten of its first digit. -/
  writtenOut : Int → Bool
  /-- What follows the digits of a whole number that is written in full. -/
  wholeEnd : List Char

namespace Layout

/-- Entries are written in full from `0.0001` up to below `1e16`, always with a digit after the
point. -/
def entry : Layout where
  writtenOut lead := -4 ≤ lead && lead < 16
  wholeEnd := ['.', '0']

/-- The journal writes every number in full and whole numbers without a point. -/
def journal : Layout where
  writtenOut _ := true
  wholeEnd := []

def signText : Float.Model.UnpackedFloat.Sign → List Char
  | .negative => ['-']
  | .positive => []

/-- Digits `ds` times `10 ^ exponent`, written in full. -/
def fullForm (wholeEnd : List Char) (ds : List Char) (exponent : Int) : List Char :=
  let places := (-exponent).toNat
  if 0 ≤ exponent then ds ++ List.replicate exponent.toNat '0' ++ wholeEnd
  else if places < ds.length then
    ds.take (ds.length - places) ++ '.' :: ds.drop (ds.length - places)
  else '0' :: '.' :: List.replicate (places - ds.length) '0' ++ ds

/-- Digits `ds` as a number with one digit before the point, times `10 ^ lead`. -/
def exponentForm (ds : List Char) (lead : Int) : List Char :=
  let fraction := if ds.tail.isEmpty then [] else '.' :: ds.tail
  ds.take 1 ++ fraction ++ 'e' :: (toString lead).toList

def digits (l : Layout) (d : Decimal) : List Char :=
  let ds := Nat.toDigits 10 d.coefficient
  let lead := d.exponent + ds.length - 1
  if l.writtenOut lead then fullForm l.wholeEnd ds d.exponent else exponentForm ds lead

def write (l : Layout) (x : Float) : String :=
  String.ofList <|
    match x.toModel.unpack with
    | .notANumber => ['N', 'a', 'N']
    | .infinity s => signText s ++ ['i', 'n', 'f']
    | .zero s => signText s ++ l.digits ⟨0, 0⟩
    | .finite s mantissa exponent _ =>
      signText s ++ l.digits (Magnitude.shortest ⟨mantissa, exponent⟩)

end Layout

/-- The text of an entry in a result: zero is written without a sign. -/
def entryText (x : Float) : String :=
  Layout.entry.write (if x == 0.0 then 0.0 else x)

/-! ## Examples -/

/-- The ends of the range of entries that are written in full. -/
example : [0.0001, 9999999999999998.0, 0.00001, 1e16].map entryText =
    ["0.0001", "9999999999999998.0", "1e-5", "1e16"] := by decide +kernel

/-- Zero has no sign, and of two equally near decimals the upper is written. -/
example : [-0.0, 5e-324, 1.2345e-5, 1125899906842624.25].map entryText =
    ["0.0", "5e-324", "1.2345e-5", "1125899906842624.3"] := by decide +kernel

/-- The journal writes whole numbers without a point and keeps the sign of zero. -/
example : [1.0, -0.0, 0.00001, 1e22].map Layout.journal.write =
    ["1", "-0", "0.00001", "10000000000000000000000"] := by decide +kernel

end MatrixCalc
