/-! 32-bit floats as exact numbers. A finite magnitude is
`significand * 2 ^ scale` units of `2 ^ (-149)`, so all later arithmetic on it
is arithmetic of naturals. -/
namespace ShaderRecompiler.Binary32

def isNegative (bits : UInt32) : Bool := bits.toNat.testBit 31
def exponentField (bits : UInt32) : Nat := (bits.toNat >>> 23) % 0x100
def fraction (bits : UInt32) : Nat := bits.toNat % 0x800000

def isFinite (bits : UInt32) : Bool := exponentField bits != 255

def significand (bits : UInt32) : Nat :=
  if exponentField bits = 0 then fraction bits else 0x800000 + fraction bits

/-- Subnormal numbers share the scale of the smallest normal ones. -/
def scale (bits : UInt32) : Nat := exponentField bits - 1

/-- The neighbour below is half a step away exactly at a power of two that is
not the smallest normal number. -/
def isStepDown (bits : UInt32) : Bool := fraction bits == 0 && decide (1 < exponentField bits)

/-- The float equal to `n`, for `n` below `2 ^ 24`. -/
def ofNat (n : Nat) : UInt32 :=
  if n = 0 then 0
  else UInt32.ofNat ((127 + n.log2) <<< 23 + (n - 1 <<< n.log2) <<< (23 - n.log2))

/-- The float `2 ^ (-k)`, for `k` below 127. -/
def halving (k : Nat) : UInt32 := UInt32.ofNat ((127 - k) <<< 23)

end ShaderRecompiler.Binary32
