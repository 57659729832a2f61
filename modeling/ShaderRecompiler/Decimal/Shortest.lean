import ShaderRecompiler.Binary32

/-! The decimal with the fewest digits that reads back as a given float. Grids
of powers of ten are tried from coarse to fine; on each only the two neighbours
of the value can lie in its rounding interval, so the first grid with a hit is
the shortest. -/
namespace ShaderRecompiler.Decimal

/-- The reals that round to one float, as naturals over the common divisor
`unit`. The ends belong to it when `closed`. -/
structure Interval where
  low : Nat
  value : Nat
  high : Nat
  unit : Nat
  closed : Bool

/-- Quarter steps keep both half-way points integral. -/
def Interval.ofBinary32 (bits : UInt32) : Interval :=
  let m := Binary32.significand bits
  let s := 1 <<< Binary32.scale bits
  { low := (4 * m - if Binary32.isStepDown bits then 1 else 2) * s
    value := 4 * m * s
    high := (4 * m + 2) * s
    unit := 1 <<< 151
    closed := m % 2 == 0 }

def Interval.contains (i : Interval) (numerator divisor : Nat) : Bool :=
  if i.closed then decide (i.low * divisor ≤ numerator * i.unit ∧ numerator * i.unit ≤ i.high * divisor)
  else decide (i.low * divisor < numerator * i.unit ∧ numerator * i.unit < i.high * divisor)

/-- The multiple of `10 ^ exponent` next to the value that lies in the interval:
the nearer of two, the upper one of two equally near. Grids coarser than the
value have none. -/
def Interval.onGrid (i : Interval) (exponent : Int) : Option Nat :=
  let up := Nat.pow 10 exponent.toNat
  let down := Nat.pow 10 (-exponent).toNat
  let below := i.value * down / (i.unit * up)
  if below = 0 then none
  else
    match i.contains (below * up) down, i.contains ((below + 1) * up) down with
    | true, true =>
      if 2 * (i.value * down - below * (i.unit * up)) < i.unit * up then some below else some (below + 1)
    | true, false => some below
    | false, true => some (below + 1)
    | false, false => none

structure Scientific where
  digits : Nat
  exponent : Int
deriving DecidableEq, Repr

/-- Nine digits always suffice for a 32-bit float, so exponents from 38 down to
-60 reach every finite non-zero magnitude. -/
def shortest (bits : UInt32) : Scientific :=
  let i := Interval.ofBinary32 bits
  ((List.range 99).findSome? fun k : Nat =>
    let exponent : Int := 38 - (k : Int)
    (i.onGrid exponent).map fun d => ⟨d, exponent⟩).getD ⟨0, 0⟩

example : shortest 0x3dcccccd = ⟨1, -1⟩ := by decide +kernel
example : shortest 0x4a7fffff = ⟨41943038, -1⟩ := by decide +kernel
example : shortest 0x00000001 = ⟨1, -45⟩ := by decide +kernel

end ShaderRecompiler.Decimal
