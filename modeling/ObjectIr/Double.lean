/-!
# Double-precision numbers

A number is its 64 bits, so two of them are the same number exactly when `=` says so, zeros of
either sign and every NaN apart. The numeric comparisons (`numEq`, `lt`) are read off the bits.
Sums, differences and products round to nearest (`add`, `sub`, `mul`); a NaN operand is passed on,
the left one first, and an operation that has no result yields `invalid`.
-/

namespace ObjectIr

/-- A binary64 number, given by its bits. -/
structure Double where
  bits : UInt64
  deriving DecidableEq, Inhabited

namespace Double

def isNegative (x : Double) : Bool := 0x8000000000000000 ≤ x.bits.toNat

/-- The bits below the sign: exponent, then fraction. The larger, the larger the magnitude. -/
def magnitude (x : Double) : Nat := x.bits.toNat % 0x8000000000000000

def isNaN (x : Double) : Bool := 0x7ff0000000000000 < x.magnitude

def isInfinite (x : Double) : Bool := x.magnitude == 0x7ff0000000000000

def isZero (x : Double) : Bool := x.magnitude == 0

/-- Orders the numbers that are not NaN; both zeros have rank zero. -/
def rank (x : Double) : Int := if x.isNegative then -(x.magnitude : Int) else x.magnitude

/-- Numeric equality: zeros are equal, and a NaN equals nothing. -/
def numEq (x y : Double) : Bool := !x.isNaN && !y.isNaN && x.rank == y.rank

def lt (x y : Double) : Bool := !x.isNaN && !y.isNaN && decide (x.rank < y.rank)

/-- The NaN that stands for an operation without a result, such as the sum of the infinities. -/
def invalid : Double := ⟨0xfff8000000000000⟩

def zero : Double := ⟨0⟩

/-- An operation on numbers, made one on bits. -/
def lift (op : Float → Float → Float) (x y : Double) : Double :=
  if x.isNaN then x
  else if y.isNaN then y
  else
    let r := op (Float.ofBits x.bits) (Float.ofBits y.bits)
    if r.isNaN then invalid else ⟨r.toBits⟩

def add : Double → Double → Double := lift (· + ·)

def sub : Double → Double → Double := lift (· - ·)

def mul : Double → Double → Double := lift (· * ·)

/-- The nearest double, ties to the even neighbour. -/
def ofInt64 (n : Int64) : Double := ⟨n.toFloat.toBits⟩

end Double

end ObjectIr
