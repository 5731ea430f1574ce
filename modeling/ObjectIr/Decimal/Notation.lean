import ObjectIr.Decimal.Shortest

/-!
# Written doubles

`Double.text` writes a double with its shortest digits. A number is positional while its leading
digit stands between two bounds of `Notation`, with at least one digit after the point, and
scientific outside them.
-/

namespace ObjectIr

/-- The decisions of a number format. -/
structure Notation where
  /-- The least power of ten whose digit may lead a positional number. -/
  least : Int
  /-- The greatest power of ten whose digit may lead a positional number. -/
  greatest : Int
  exponentMark : String
  infinity : String
  notANumber : String

/-- Positional from `0.0001` to just below `1e16`. -/
def numberNotation : Notation := ⟨-4, 15, "e", "inf", "NaN"⟩

namespace Decimal

/-- The power of ten at the leading one of `n` digits. -/
def lead (d : Decimal) (n : Nat) : Int := d.exponent + n - 1

def zeros (n : Nat) : String := String.ofList (List.replicate n '0')

/-- All digits around a point; a whole number keeps one zero after it. -/
def positional (d : Decimal) : String :=
  let digits := toString d.digits
  let before := d.exponent + digits.length
  if d.exponent ≥ 0 then digits ++ zeros d.exponent.toNat ++ ".0"
  else if before ≤ 0 then "0." ++ zeros (-before).toNat ++ digits
  else
    let cs := digits.toList
    String.ofList (cs.take before.toNat) ++ "." ++ String.ofList (cs.drop before.toNat)

/-- One digit before the point, the others after it, and the power of ten. -/
def scientific (d : Decimal) (mark : String) : String :=
  let digits := toString d.digits
  let power := toString (d.lead digits.length)
  match digits.toList with
  | [] => ""
  | [c] => String.ofList [c] ++ mark ++ power
  | c :: cs => String.ofList [c] ++ "." ++ String.ofList cs ++ mark ++ power

def text (d : Decimal) (f : Notation) : String :=
  let lead := d.lead (toString d.digits).length
  if f.least ≤ lead ∧ lead ≤ f.greatest then d.positional else d.scientific f.exponentMark

end Decimal

/-- A NaN has no sign; a zero has its own. -/
def Double.text (x : Double) : String :=
  if x.isNaN then numberNotation.notANumber
  else
    let size :=
      if x.isInfinite then numberNotation.infinity
      else if x.isZero then "0.0"
      else x.shortest.text numberNotation
    if x.isNegative then "-" ++ size else size

end ObjectIr
