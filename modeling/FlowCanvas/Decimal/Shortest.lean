/-!
# Shortest decimals of a double

A finite double other than zero is `m · 2 ^ q`. Among the decimals that lie closer to it than to
any other double, `shortest` takes one with the fewest digits, and of those the nearest.
-/

namespace FlowCanvas

/-- A double-precision number, given by its bits. -/
structure Double where
  bits : UInt64
deriving DecidableEq, Repr, Inhabited

namespace Double

def ofFloat (x : Float) : Double := ⟨x.toBits⟩

def isNegative (d : Double) : Bool := d.bits >>> 63 == 1

/-- The stored fraction, without the leading bit. -/
def fraction (d : Double) : Nat := d.bits.toNat % 0x10000000000000

/-- The stored exponent. -/
def exponent (d : Double) : Nat := d.bits.toNat / 0x10000000000000 % 0x800

def isZero (d : Double) : Bool := d.fraction == 0 && d.exponent == 0

/-- The whole number `m` of `m · 2 ^ q`. -/
def mantissa (d : Double) : Nat :=
  if d.exponent = 0 then d.fraction else d.fraction + 0x10000000000000

/-- The scale `q` of `m · 2 ^ q`. -/
def scale (d : Double) : Int := if d.exponent = 0 then -1074 else d.exponent - 1075

end Double

namespace Decimal

/-- The interval of reals around `value` that stand for one double. All three are whole multiples
of one unit, `num / den`. -/
structure Interval where
  low : Nat
  value : Nat
  high : Nat
  /-- Whether the ends belong to the interval. -/
  closed : Bool
  num : Nat
  den : Nat
deriving Repr

/-- The reals that round to `d`: half way to each neighbour, ends included when the mantissa is
even. Below a power of two the neighbour is half as far. -/
def Interval.ofDouble (d : Double) : Interval where
  low := 4 * d.mantissa - (if d.fraction = 0 ∧ 1 < d.exponent then 1 else 2)
  value := 4 * d.mantissa
  high := 4 * d.mantissa + 2
  closed := d.mantissa % 2 == 0
  num := Nat.pow 2 (d.scale - 2).toNat
  den := Nat.pow 2 (2 - d.scale).toNat

/-- Whether `digits · 10 ^ power` lies in the interval. -/
def Interval.holds (i : Interval) (digits : Nat) (power : Int) : Bool :=
  let x := digits * Nat.pow 10 power.toNat * i.den
  let unit := i.num * Nat.pow 10 (-power).toNat
  if i.closed then i.low * unit ≤ x && x ≤ i.high * unit
  else i.low * unit < x && x < i.high * unit

/-- The greatest whole number of `10 ^ power` steps below the value. -/
def Interval.floor (i : Interval) (power : Int) : Nat :=
  i.value * i.num * Nat.pow 10 (-power).toNat / (i.den * Nat.pow 10 power.toNat)

/-- Which of `n` and `n + 1` steps of `10 ^ power` is nearer to the value; the even one when both
are as near. -/
def Interval.nearer (i : Interval) (n : Nat) (power : Int) : Nat :=
  let twice := 2 * (i.value * i.num * Nat.pow 10 (-power).toNat)
  let middle := (2 * n + 1) * (i.den * Nat.pow 10 power.toNat)
  if twice < middle then n
  else if middle < twice then n + 1
  else if n % 2 = 0 then n else n + 1

/-- The nearest multiple of `10 ^ power` in the interval, if one of the two around the value is. -/
def Interval.onGrid (i : Interval) (power : Int) : Option Nat :=
  let n := i.floor power
  match i.holds n power, i.holds (n + 1) power with
  | true, true => some (i.nearer n power)
  | true, false => if n = 0 then none else some n
  | false, true => some (n + 1)
  | false, false => none

/-- The power of ten of the value's first digit, looked for downwards from `10 ^ top`. -/
def Interval.magnitude (i : Interval) : Nat → Int → Int
  | 0, top => top
  | n + 1, top => if 0 < i.floor top then top else i.magnitude n (top - 1)

/-- Tries one digit, two digits, and so on, `n` times. -/
def Interval.search (i : Interval) : Nat → Int → Option (Nat × Int)
  | 0, _ => none
  | n + 1, power =>
    match i.onGrid power with
    | some digits => some (digits, power)
    | none => i.search n (power - 1)

/-- Takes zeros off the end of a number and counts them into the power. -/
def stripZeros : Nat → Nat → Int → Nat × Int
  | 0, digits, power => (digits, power)
  | n + 1, digits, power =>
    if digits % 10 = 0 then stripZeros n (digits / 10) (power + 1) else (digits, power)

/-- Digits and power of ten of a shortest decimal of a double that is not zero. Seventeen digits
always suffice, and no double reaches `10 ^ 309` or lies below `10 ^ -325`. -/
def shortest (d : Double) : Nat × Int :=
  let i := Interval.ofDouble d
  let (digits, power) := (i.search 17 (i.magnitude 634 308)).getD (0, 0)
  stripZeros 20 digits power

/-- Where and how decimals are laid out. -/
structure Layout where
  /-- The smallest power of ten written in positions. -/
  fromPower : Int
  /-- The first power of ten written with an exponent. -/
  toPower : Int
  /-- What stands in front of an exponent that is not negative. -/
  plus : String
deriving Repr

/-- `digits · 10 ^ power` in positions, always with a fraction. -/
def positional (digits : String) (power : Int) : String :=
  let point := (digits.length : Int) + power
  if 0 ≤ power then digits ++ String.ofList (List.replicate power.toNat '0') ++ ".0"
  else if 0 < point then
    String.ofList (digits.toList.take point.toNat) ++ "." ++
      String.ofList (digits.toList.drop point.toNat)
  else "0." ++ String.ofList (List.replicate (-point).toNat '0') ++ digits

/-- `digits · 10 ^ power` with one digit before the point and an exponent. -/
def scientific (layout : Layout) (digits : String) (power : Int) : String :=
  let exponent := (digits.length : Int) + power - 1
  let mantissa :=
    match digits.toList with
    | [] => ""
    | [c] => c.toString
    | c :: cs => c.toString ++ "." ++ String.ofList cs
  mantissa ++ "e" ++ (if exponent < 0 then toString exponent else layout.plus ++ toString exponent)

/-- The text of a finite double. -/
def render (layout : Layout) (d : Double) : String :=
  let sign := if d.isNegative then "-" else ""
  if d.isZero then sign ++ "0.0"
  else
    let (n, power) := shortest d
    let digits := toString n
    let first := (digits.length : Int) + power - 1
    if layout.fromPower ≤ first && first < layout.toPower then sign ++ positional digits power
    else sign ++ scientific layout digits power

end Decimal

end FlowCanvas
