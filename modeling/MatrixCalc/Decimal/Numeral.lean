import MatrixCalc.Decimal.Shortest

/-!
# Numerals

A numeral is an optional sign followed by a decimal or by one of the words `inf`, `infinity` and
`nan` in letters of either case. A decimal has at least one digit, at most one point before, between
or after its digits, and possibly an exponent. Its value is the double nearest to it.
-/

namespace MatrixCalc

namespace Decimal

/-- The double nearest to a decimal. A number below `10 ^ (-330)` rounds to zero and one from
`10 ^ 310` on to infinity, whatever its digits. -/
def toFloat (d : Decimal) : Float :=
  let place := d.exponent + digitCount d.coefficient
  if d.coefficient = 0 ∨ place < -330 then 0.0
  else if 310 < place then 1.0 / 0.0
  else Float.ofScientific d.coefficient (d.exponent < 0) d.exponent.natAbs

end Decimal

namespace Numeral

def value (ds : List Char) : Nat :=
  ds.foldl (fun n c => 10 * n + (c.toNat - '0'.toNat)) 0

/-- The number that a text of digits alone stands for. -/
def digits? (ds : List Char) : Option Nat :=
  if !ds.isEmpty && ds.all Char.isDigit then some (value ds) else none

/-- The exponent after a decimal: nothing, or an `e`, an optional sign and digits. -/
def exponent? : List Char → Option Int
  | [] => some 0
  | e :: cs =>
    if e = 'e' ∨ e = 'E' then
      match cs with
      | '-' :: ds => (digits? ds).map fun n => -(n : Int)
      | '+' :: ds => (digits? ds).map Int.ofNat
      | ds => (digits? ds).map Int.ofNat
    else none

/-- The digits after the point, and what follows them. -/
def fraction : List Char → List Char × List Char
  | '.' :: cs => (cs.takeWhile Char.isDigit, cs.dropWhile Char.isDigit)
  | cs => ([], cs)

def decimal? (cs : List Char) : Option Decimal :=
  let whole := cs.takeWhile Char.isDigit
  let (part, rest) := fraction (cs.dropWhile Char.isDigit)
  if whole.isEmpty && part.isEmpty then none
  else (exponent? rest).map fun e => ⟨value (whole ++ part), e - part.length⟩

def magnitude? (cs : List Char) : Option Float :=
  let lower := cs.map Char.toLower
  if lower = "inf".toList ∨ lower = "infinity".toList then some (1.0 / 0.0)
  else if lower = "nan".toList then some (0.0 / 0.0)
  else (decimal? cs).map Decimal.toFloat

/-- The value of a numeral; `none` if the text is none. -/
def read? (s : String) : Option Float :=
  match s.toList with
  | '-' :: cs => (magnitude? cs).map fun x => -x
  | '+' :: cs => magnitude? cs
  | cs => magnitude? cs

/-! ## Examples -/

/-- A point may stand at either end of the digits, and an exponent may be far out of range. -/
example : [".5", "5.", "-1.5e3", "0e99999999999", "1e-400"].map read? =
    [some 0.5, some 5.0, some (-1500.0), some 0.0, some 0.0] := by decide +kernel

/-- A sign, a point or an exponent needs digits, and nothing may follow them. -/
example : ["", "-", ".", "1e", "1e+", "1-2", "--1", "1..2", " 1"].all (read? · == none) := by
  decide +kernel

end Numeral

end MatrixCalc
