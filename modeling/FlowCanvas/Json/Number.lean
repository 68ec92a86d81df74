import FlowCanvas.Json.Value
import FlowCanvas.Text.Digits

/-!
# JSON numbers

A number without fraction and exponent that fits 64 bits is a whole number; any other is a
double. A double is scaled from the digits that fit 64 bits: later digits of the fraction are
dropped, and later digits before the point only count as a power of ten.
-/

namespace FlowCanvas.Json

/-- A number as it is written. -/
structure Literal where
  negative : Bool
  whole : List Nat
  fraction : List Nat
  /-- Whether the exponent is negative, and its digits. -/
  exponent : Option (Bool × List Nat)
  /-- Whether the number has neither fraction nor exponent. -/
  plain : Bool
deriving DecidableEq, Repr

namespace Literal

/-- Appends digits to a number as long as it fits 64 bits, and gives the ones left over. -/
def absorb (n : Nat) : List Nat → Nat × List Nat
  | [] => (n, [])
  | d :: ds => if n * 10 + d < UInt64.size then absorb (n * 10 + d) ds else (n, d :: ds)

/-- A power of ten, for powers up to 308. -/
def tenTo (n : Nat) : Float := Float.ofScientific 1 false n

/-- `x · 10 ^ power`, or nothing when that is out of range. Powers past 308 are taken in two
steps. -/
def scaled (x : Float) (power : Int) : Option Float :=
  if 0 ≤ power then
    if power ≤ 308 then
      let y := x * tenTo power.toNat
      if y.isInf then none else some y
    else if x == 0.0 then some x else none
  else if -308 ≤ power then some (x / tenTo (-power).toNat)
  else if -616 ≤ power then some (x / tenTo 308 / tenTo (-power - 308).toNat)
  else some 0.0

/-- Limits an exponent to 32 bits. -/
def clamp (n : Int) : Int := max (-0x80000000) (min 0x7FFFFFFF n)

/-- The double a literal stands for, if it is in range. -/
def toDouble? (l : Literal) : Option Double :=
  let (digits, dropped) := absorb 0 l.whole
  let (digits, unread) := absorb digits l.fraction
  let power : Int := dropped.length - (l.fraction.length - unread.length)
  let x := (UInt64.ofNat digits).toFloat
  let magnitude :=
    match l.exponent with
    | none => scaled x power
    | some (negative, ds) =>
      let e := Text.ofDigits 10 ds
      if 0x80000000 ≤ e then (if digits = 0 || negative then some 0.0 else none)
      else scaled x (clamp (if negative then power - e else power + e))
  magnitude.map fun y => .ofFloat (if l.negative then -y else y)

/-- The value of a number. A negative zero is a double. -/
def toJson (l : Literal) : Json :=
  let n := Text.ofDigits 10 l.whole
  if l.plain && !l.negative && n < UInt64.size then .integer n
  else if l.plain && l.negative && 0 < n && n ≤ UInt64.size / 2 then .integer (-n)
  else
    match l.toDouble? with
    | some d => .double d
    | none => .unreadable

end Literal

end FlowCanvas.Json
