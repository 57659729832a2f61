/-! Lower-case base 16 without a fixed width, and padded to eight digits for
whole words. -/
namespace ShaderRecompiler.Hexadecimal

def digits (n : Nat) : String := String.ofList (Nat.toDigits 16 n)

def word (bits : UInt32) : String :=
  let text := Nat.toDigits 16 bits.toNat
  String.ofList (List.replicate (8 - text.length) '0' ++ text)

end ShaderRecompiler.Hexadecimal
