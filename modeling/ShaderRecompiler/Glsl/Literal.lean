import ShaderRecompiler.Decimal.Shortest
import ShaderRecompiler.Hexadecimal

/-! GLSL literals. Every literal denotes exactly the bits it was made from; the
spelling never depends on the host's locale. -/
namespace ShaderRecompiler.Glsl.Literal

/-- Numbers from 0.0001 up to 10 ^ 16 are written positionally. -/
def isPositional (exponent : Int) : Bool := decide (-4 ≤ exponent ∧ exponent < 16)

def significantDigits (digits : Nat) : List Char :=
  ((Nat.toDigits 10 digits).reverse.dropWhile (· == '0')).reverse

/-- `point` digits stand before the decimal point; at least one digit stands on
either side of it. -/
def positional (digits : List Char) (point : Int) : List Char :=
  if point ≤ 0 then ['0', '.'] ++ List.replicate (-point).toNat '0' ++ digits
  else if (digits.length : Int) ≤ point then
    digits ++ List.replicate (point.toNat - digits.length) '0' ++ ['.', '0']
  else digits.take point.toNat ++ ['.'] ++ digits.drop point.toNat

def scientific (digits : List Char) (exponent : Int) : List Char :=
  let tail := digits.drop 1
  digits.take 1 ++ (if tail.isEmpty then [] else '.' :: tail) ++ ['e'] ++ (toString exponent).toList

def magnitude (bits : UInt32) : List Char :=
  if Binary32.significand bits = 0 then ['0', '.', '0']
  else
    let d := Decimal.shortest bits
    let point := ((Nat.toDigits 10 d.digits).length : Int) + d.exponent
    let digits := significantDigits d.digits
    if isPositional (point - 1) then positional digits point else scientific digits (point - 1)

/-- Infinities and NaNs have no literal and keep their bit pattern. -/
def float (bits : UInt32) : String :=
  if Binary32.isFinite bits then
    String.ofList ((if Binary32.isNegative bits then ['-'] else []) ++ magnitude bits)
  else s!"uintBitsToFloat(0x{Hexadecimal.word bits}u)"

def signed (bits : UInt32) : Int := bits.toInt32.toInt

/-- The least integer has no literal of its own, since its magnitude overflows. -/
def int (bits : UInt32) : String :=
  if bits = 0x80000000 then "int(0x80000000u)" else toString (signed bits)

def uint (bits : UInt32) : String := s!"{bits.toNat}u"

end ShaderRecompiler.Glsl.Literal
