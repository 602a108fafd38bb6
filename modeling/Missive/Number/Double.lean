import Missive.Number.Format

/-!
# Missive.Number.Double

The two floating-point types, as bit patterns with exact arithmetic.

`Double` and `Single` are compared bit by bit (`=`); `Double.same` and `Single.same` are the
numeric comparison, under which no NaN equals anything and the two zeros are equal.
-/

namespace Missive

/-- A 64-bit floating-point number, by its pattern. -/
structure Double where
  bits : UInt64
  deriving Repr, DecidableEq, Inhabited

/-- A 32-bit floating-point number, by its pattern. -/
structure Single where
  bits : UInt32
  deriving Repr, DecidableEq, Inhabited

namespace Datum

/-- Numeric equality: a NaN equals nothing, and the two zeros are equal. -/
def same : Datum → Datum → Bool
  | .infinite s, .infinite t => s == t
  | .finite s m e, .finite t n d =>
    (m == 0 && n == 0) || (s == t &&
      (if e < d then m == n <<< (d - e).toNat else m <<< (e - d).toNat == n))
  | _, _ => false

/-- The whole number that a datum is, if it is one. -/
def toInt? : Datum → Option Int
  | .finite negative m e =>
    let magnitude : Option Nat :=
      if e < 0 then
        let unit := 1 <<< (-e).toNat
        if m % unit == 0 then some (m / unit) else none
      else some (m <<< e.toNat)
    magnitude.map fun n => if negative then -(n : Int) else n
  | _ => none

/-- A finite datum in units of `2 ^ low`; its exponent is not below `low`. -/
def units (low : Int) (negative : Bool) (m : Nat) (e : Int) : Int :=
  let magnitude : Int := (m <<< (e - low).toNat : Nat)
  if negative then -magnitude else magnitude

/-- The order of two data.  A NaN has none, and the two zeros are equal. -/
def compare? : Datum → Datum → Option Ordering
  | .finite s m e, .finite t n d =>
    let low := min e d
    some (compare (units low s m e) (units low t n d))
  | .infinite s, .infinite t => some (compare t s)
  | .infinite s, .finite .. => some (if s then .lt else .gt)
  | .finite .., .infinite t => some (if t then .gt else .lt)
  | _, _ => none

end Datum

namespace Single

def zero : Single := ⟨0⟩

def datum (x : Single) : Datum := Format.single.decode x.bits.toNat

/-- Numeric equality. -/
def same (x y : Single) : Bool := x.datum.same y.datum

/-- The number nearest to a quotient. -/
def ofQuotient (negative : Bool) (num den : Nat) : Single :=
  ⟨(Format.single.nearest negative num den).toUInt32⟩

def infinity (negative : Bool) : Single := ⟨(Format.single.infinity negative).toUInt32⟩

def nan (negative : Bool) : Single := ⟨(Format.single.quietNan negative).toUInt32⟩

/-- The same number in the wider format. -/
def widen (x : Single) : Double :=
  match x.datum with
  | .nan => ⟨(Format.double.quietNan false).toUInt64⟩
  | .infinite s => ⟨(Format.double.infinity s).toUInt64⟩
  | .finite s m e => ⟨(Format.double.nearestScaled s m e).toUInt64⟩

end Single

namespace Double

def zero : Double := ⟨0⟩

def datum (x : Double) : Datum := Format.double.decode x.bits.toNat

/-- Numeric equality. -/
def same (x y : Double) : Bool := x.datum.same y.datum

/-- Numeric order. -/
def lt (x y : Double) : Bool := (x.datum.compare? y.datum).any (·.isLT)

/-- Numeric order or equality. -/
def le (x y : Double) : Bool := (x.datum.compare? y.datum).any (·.isLE)

/-- The number nearest to a quotient. -/
def ofQuotient (negative : Bool) (num den : Nat) : Double :=
  ⟨(Format.double.nearest negative num den).toUInt64⟩

/-- The number nearest to `significand * 2 ^ exponent`. -/
def ofScaled (negative : Bool) (significand : Nat) (exponent : Int) : Double :=
  ⟨(Format.double.nearestScaled negative significand exponent).toUInt64⟩

/-- The number nearest to a whole number. -/
def ofInt (n : Int) : Double := ofQuotient (n < 0) n.natAbs 1

def infinity (negative : Bool) : Double := ⟨(Format.double.infinity negative).toUInt64⟩

def nan (negative : Bool) : Double := ⟨(Format.double.quietNan negative).toUInt64⟩

def isNan (x : Double) : Bool := x.datum == .nan

def isFinite (x : Double) : Bool :=
  match x.datum with
  | .finite .. => true
  | _ => false

/-- The number with the other sign. -/
def negate (x : Double) : Double := ⟨x.bits ^^^ 0x8000000000000000⟩

/-- The nearest number in the narrower format. -/
def narrow (x : Double) : Single :=
  match x.datum with
  | .nan => .nan false
  | .infinite s => .infinity s
  | .finite s m e => ⟨(Format.single.nearestScaled s m e).toUInt32⟩

/-- The product, rounded once. -/
def mul (x y : Double) : Double :=
  match x.datum, y.datum with
  | .finite s m e, .finite t n d => ofScaled (s != t) (m * n) (e + d)
  | .infinite s, .infinite t => infinity (s != t)
  | .infinite s, .finite t n _ => if n == 0 then nan false else infinity (s != t)
  | .finite s m _, .infinite t => if m == 0 then nan false else infinity (s != t)
  | _, _ => nan false

/-- The quotient, rounded once. -/
def div (x y : Double) : Double :=
  match x.datum, y.datum with
  | .finite s m e, .finite t n d =>
    if n == 0 then
      if m == 0 then nan false else infinity (s != t)
    else
      let (num, den) := Format.scaleDown m n (d - e)
      ofQuotient (s != t) num den
  | .infinite s, .finite t _ _ => infinity (s != t)
  | .finite s _ _, .infinite t => ofQuotient (s != t) 0 1
  | _, _ => nan false

/-- The sum, rounded once; an exact zero is positive unless both terms are negative. -/
def add (x y : Double) : Double :=
  match x.datum, y.datum with
  | .finite s m e, .finite t n d =>
    let low := min e d
    let sum := Datum.units low s m e + Datum.units low t n d
    if sum == 0 then ofQuotient (s && t) 0 1 else ofScaled (sum < 0) sum.natAbs low
  | .infinite s, .infinite t => if s == t then infinity s else nan false
  | .infinite s, .finite .. => infinity s
  | .finite .., .infinite t => infinity t
  | _, _ => nan false

/-- The whole number that `x` is, if it is one. -/
def toInt? (x : Double) : Option Int := x.datum.toInt?

end Double

end Missive
