/-! Sets of small numbers as 32-bit masks. The bit test goes through the natural
number, so a position past the word is simply absent. -/
namespace ShaderRecompiler.Mask

def test (mask : UInt32) (n : Nat) : Bool := mask.toNat.testBit n

/-- Empty for positions past the word. -/
def single (n : Nat) : UInt32 := UInt32.ofNat (1 <<< n)

def insert (mask : UInt32) (n : Nat) : UInt32 := mask ||| single n

def below (mask : UInt32) (bound : Nat) : List Nat := (List.range bound).filter (test mask)

theorem mem_below {mask : UInt32} {bound n : Nat} :
    n ∈ below mask bound ↔ n < bound ∧ test mask n := by
  simp [below]

def size (mask : UInt32) : Nat := (below mask 32).length

/-- One past the highest position set. -/
def width (mask : UInt32) : Nat := if mask = 0 then 0 else mask.toNat.log2 + 1

end ShaderRecompiler.Mask
