import Mathlib.Algebra.Order.Field.Rat
import Mathlib.Tactic.FieldSimp
import Mathlib.Tactic.Linarith
import Mathlib.Tactic.Positivity
import Mathlib.Tactic.Ring
import ShaderRecompiler.Binary32

/-! The numbers that 32-bit floats stand for, and rounding to the nearest of them.
Magnitudes are in the order of their bit patterns, and a step up is `2 ^ scale` units. -/
namespace ShaderRecompiler.Binary32

open Nat

variable {j n : Nat} {bits : UInt32}

/-- The number that finite bits stand for. -/
def value (bits : UInt32) : ℚ :=
  (if isNegative bits then -1 else 1) * (significand bits * 2 ^ scale bits) / 2 ^ 149

def Denotes (bits : UInt32) (q : ℚ) : Prop := isFinite bits ∧ value bits = q

def ofFields (negative : Bool) (exponent fraction : Nat) : UInt32 :=
  UInt32.ofNat (negative.toNat * 2 ^ 31 + exponent * 2 ^ 23 + fraction)

theorem denotes_ofFields (negative : Bool) (exponent fraction : Nat) (hpos : 0 < exponent) (hexpo : exponent < 255)
    (hfraction : fraction < 2 ^ 23) : Denotes (ofFields negative exponent fraction)
      ((if negative then -1 else 1) * ((2 ^ 23 + fraction) * 2 ^ (exponent - 1)) / 2 ^ 149) := by
  have hnat : (ofFields negative exponent fraction).toNat = negative.toNat * 2 ^ 31 + exponent * 2 ^ 23 + fraction := by
    refine UInt32.toNat_ofNat_of_lt' ?_
    cases negative <;> simp [UInt32.size] <;> omega
  have hnegative : isNegative (ofFields negative exponent fraction) = negative := by
    rw [isNegative, hnat, testBit_eq_decide_div_mod_eq]
    cases negative <;> simp <;> omega
  have hfld : exponentField (ofFields negative exponent fraction) = exponent := by
    rw [exponentField, hnat, shiftRight_eq_div_pow]
    cases negative <;> simp <;> omega
  have hrest : Binary32.fraction (ofFields negative exponent fraction) = fraction := by
    rw [Binary32.fraction, hnat]
    cases negative <;> simp <;> omega
  refine ⟨by simpa [isFinite, hfld] using Nat.ne_of_lt hexpo, ?_⟩
  rw [value, significand, scale, hnegative, hfld, hrest, if_neg (ne_of_gt hpos)]
  norm_num

theorem denotes_halving (h : k ≤ 126) : Denotes (halving k) (1 / 2 ^ k) := by
  have hflds : halving k = ofFields false (127 - k) 0 := by simp [halving, ofFields, shiftLeft_eq]
  have hdenotes := denotes_ofFields false (127 - k) 0 (by omega) (by omega) (by decide)
  have hpow : (2 : ℚ) ^ 149 = 2 ^ 23 * 2 ^ (127 - k - 1) * 2 ^ k := by
    rw [← pow_add, ← pow_add]
    congr 1
    omega
  rw [hflds]
  convert hdenotes using 1
  rw [hpow]
  field_simp
  simp

theorem exists_denotes_natCast (negative : Bool) (hn : n < 2 ^ 24) (hj : j ≤ 126) :
    ∃ bits, Denotes bits ((if negative then -1 else 1) * n / 2 ^ j) := by
  obtain rfl | hpos := Nat.eq_zero_or_pos n
  · exact ⟨0, by decide, by simp [value, significand, fraction, exponentField]⟩
  · have hlog : n.log2 ≤ 23 := Nat.lt_succ_iff.1 ((Nat.log2_lt hpos.ne').2 hn)
    have hle : 2 ^ 23 ≤ n * 2 ^ (23 - n.log2) := by
      calc 2 ^ 23 = 2 ^ n.log2 * 2 ^ (23 - n.log2) := by rw [← pow_add]; congr 1; omega
        _ ≤ n * 2 ^ (23 - n.log2) := mul_le_mul_right _ (log2_self_le hpos.ne')
    have hlt : n * 2 ^ (23 - n.log2) < 2 ^ 24 := by
      calc n * 2 ^ (23 - n.log2) < 2 ^ (n.log2 + 1) * 2 ^ (23 - n.log2) :=
            mul_lt_mul_of_pos_right lt_log2_self (by positivity)
        _ = 2 ^ 24 := by rw [← pow_add]; congr 1; omega
    have hdenotes := denotes_ofFields negative (127 + n.log2 - j) (n * 2 ^ (23 - n.log2) - 2 ^ 23)
      (by omega) (by omega) (by omega)
    refine ⟨_, hdenotes.1, hdenotes.2.trans ?_⟩
    have hpow : (2 : ℚ) ^ 149 = 2 ^ (23 - n.log2) * 2 ^ (127 + n.log2 - j - 1) * 2 ^ j := by
      rw [← pow_add, ← pow_add]
      congr 1
      omega
    rw [cast_sub hle, hpow]
    push_cast
    field_simp
    ring

theorem exists_denotes {k : Int} (hk : k.natAbs < 2 ^ 24) (hj : j ≤ 126) : ∃ bits, Denotes bits (k / 2 ^ j) := by
  obtain ⟨n, rfl | rfl⟩ := k.eq_nat_or_neg
  · obtain ⟨bits, h⟩ := exists_denotes_natCast false (n := n) (by simpa using hk) hj
    exact ⟨bits, by simpa using h⟩
  · obtain ⟨bits, h⟩ := exists_denotes_natCast true (n := n) (by simpa using hk) hj
    exact ⟨bits, by simpa using h⟩

/-- The magnitude of a bit pattern without its sign, in units of `2 ^ (-149)`. -/
def units (n : Nat) : Nat :=
  (if n / 2 ^ 23 = 0 then n % 2 ^ 23 else 2 ^ 23 + n % 2 ^ 23) * 2 ^ (n / 2 ^ 23 - 1)

theorem units_succ (n : Nat) : units (n + 1) = units n + 2 ^ (n / 2 ^ 23 - 1) := by
  unfold units
  by_cases hlast : n % 2 ^ 23 = 2 ^ 23 - 1
  · have hdiv : (n + 1) / 2 ^ 23 = n / 2 ^ 23 + 1 := by omega
    have hmod : (n + 1) % 2 ^ 23 = 0 := by omega
    rw [hdiv, hmod, hlast, if_neg (by omega)]
    cases n / 2 ^ 23 with
    | zero => decide
    | succ e =>
      rw [if_neg (by omega), Nat.add_sub_cancel, Nat.add_sub_cancel, pow_succ]
      ring
  · have hdiv : (n + 1) / 2 ^ 23 = n / 2 ^ 23 := by omega
    have hmod : (n + 1) % 2 ^ 23 = n % 2 ^ 23 + 1 := by omega
    rw [hdiv, hmod]
    split <;> ring

theorem units_strictMono : StrictMono units := by
  refine strictMono_nat_of_lt_succ fun _ => ?_
  rw [units_succ]
  exact Nat.lt_add_of_pos_right (by positivity)

theorem exponentField_eq (bits : UInt32) : exponentField bits = bits.toNat % 2 ^ 31 / 2 ^ 23 := by
  rw [exponentField, shiftRight_eq_div_pow]
  omega

theorem fraction_eq (bits : UInt32) : fraction bits = bits.toNat % 2 ^ 31 % 2 ^ 23 := by
  rw [fraction]
  omega

theorem units_magnitude (bits : UInt32) : units (bits.toNat % 2 ^ 31) = significand bits * 2 ^ scale bits := by
  rw [units, significand, scale, exponentField_eq, fraction_eq]
  rfl

def magnitude (n : Nat) : ℚ := units n / 2 ^ 149

theorem magnitude_strictMono : StrictMono magnitude := by
  intro m n hmn
  unfold magnitude
  gcongr
  exact units_strictMono hmn

theorem value_of_lt (h : bits.toNat < 2 ^ 31) : value bits = magnitude bits.toNat := by
  have hunits := units_magnitude bits
  rw [mod_eq_of_lt h] at hunits
  have hsign : isNegative bits = false := by
    rw [isNegative, testBit_eq_decide_div_mod_eq, div_eq_of_lt h]
    rfl
  simp [value, magnitude, hunits, hsign]

/-- Of the magnitudes, with `2 ^ 128` in the place of infinity, `bits` is nearest to `q`,
and of two that are equally near the even one. -/
def NearestEven (q : ℚ) (bits : UInt32) : Prop :=
  bits < 0x7f800000 ∧ ∀ other, other ≤ 0x7f800000 → other ≠ bits →
    |q - value bits| < |q - value other| ∨ |q - value bits| = |q - value other| ∧ bits.toNat % 2 = 0

theorem nearer_upper {q a b : ℚ} (hab : a < b) (h : a + b ≤ 2 * q) :
    |q - b| < |q - a| ∨ |q - b| = |q - a| ∧ a + b = 2 * q := by
  have ha : |q - a| = q - a := abs_of_nonneg (by linarith)
  obtain hlt | heq := h.lt_or_eq
  · rw [ha]
    exact .inl (abs_lt.2 ⟨by linarith, by linarith⟩)
  · refine .inr ⟨?_, heq⟩
    rw [ha, abs_of_nonpos (by linarith)]
    linarith

theorem nearer_lower {q a b : ℚ} (hab : a < b) (h : 2 * q ≤ a + b) :
    |q - a| < |q - b| ∨ |q - a| = |q - b| ∧ a + b = 2 * q := by
  have hmirror := nearer_upper (q := -q) (neg_lt_neg hab) (by linarith)
  rw [neg_sub_neg, neg_sub_neg, abs_sub_comm a, abs_sub_comm b] at hmirror
  exact hmirror.imp_right fun ⟨heq, hmid⟩ => ⟨heq, by linarith⟩

/-- Between the half-way points to its neighbours, ends excluded for an odd pattern,
everything rounds to a magnitude. -/
theorem nearestEven_of_between (hn : bits.toNat = n) (hfin : n < 0x7f800000)
    (hlow : 0 < n → (2 * (units (n - 1) + units n) : ℚ) ≤ q * 2 ^ 151)
    (hhigh : q * 2 ^ 151 ≤ 2 * (units n + units (n + 1)))
    (hodd : n % 2 = 1 → (2 * (units (n - 1) + units n) : ℚ) ≠ q * 2 ^ 151 ∧
      q * 2 ^ 151 ≠ 2 * (units n + units (n + 1))) : NearestEven q bits := by
  have hmid : ∀ a b : Nat, magnitude a + magnitude b = 2 * (units a + units b) / 2 ^ 150 := by
    intro a b
    unfold magnitude
    ring
  refine ⟨UInt32.lt_iff_toNat_lt.2 (hn ▸ hfin), fun other hother hne => ?_⟩
  have hle : other.toNat ≤ 0x7f800000 := hother
  rw [value_of_lt (by omega), value_of_lt (by omega), hn]
  have hparity := mod_two_eq_zero_or_one n
  obtain hbelow | habove := lt_or_gt_of_ne fun h => hne (UInt32.toNat.inj (h.trans hn.symm))
  · have hnext : magnitude other.toNat ≤ magnitude (n - 1) := magnitude_strictMono.monotone (by omega)
    have hlow := hlow (by omega)
    have hends := hmid (n - 1) n
    refine (nearer_upper (magnitude_strictMono hbelow) (by linarith)).imp_right fun ⟨heq, htie⟩ => ⟨heq, ?_⟩
    exact hparity.resolve_right fun h => (hodd h).1 (by linarith)
  · have hnext : magnitude (n + 1) ≤ magnitude other.toNat := magnitude_strictMono.monotone (by omega)
    have hends := hmid n (n + 1)
    refine (nearer_lower (magnitude_strictMono habove) (by linarith)).imp_right fun ⟨heq, htie⟩ => ⟨heq, ?_⟩
    exact hparity.resolve_right fun h => (hodd h).2 (by linarith)

/-- Two even patterns have another one between them, so only one is nearest. -/
theorem NearestEven.not_lt (ha : NearestEven q a) (hb : NearestEven q b) : ¬a < b := by
  intro hab
  have hlt : a.toNat < b.toNat := hab
  have hb' : b.toNat < 0x7f800000 := hb.1
  have hne : a ≠ b := fun h => hlt.ne (by rw [h])
  obtain hnear | ⟨htie, heven⟩ := ha.2 b (UInt32.le_of_lt hb.1) hne.symm
  all_goals obtain hnear' | ⟨htie', heven'⟩ := hb.2 a (UInt32.le_of_lt ha.1) hne
  · exact absurd hnear hnear'.le.not_gt
  · exact absurd htie' hnear.ne'
  · exact absurd htie hnear'.ne'
  · have hnext : (a + 1).toNat = a.toNat + 1 := by
      rw [UInt32.toNat_add]
      simp
      omega
    have hlow : value a < value (a + 1) := by
      rw [value_of_lt (by omega), value_of_lt (by omega), hnext]
      exact magnitude_strictMono (by omega)
    have hupper : value (a + 1) < value b := by
      rw [value_of_lt (by omega), value_of_lt (by omega), hnext]
      exact magnitude_strictMono (by omega)
    have hmid : q - value a = -(q - value b) := (abs_eq_abs.1 htie).resolve_left (by linarith)
    have hclose : |q - value (a + 1)| < |q - value a| := by
      rw [abs_of_pos (a := q - value a) (by linarith)]
      exact abs_lt.2 ⟨by linarith, by linarith⟩
    obtain hfar | ⟨hfar, -⟩ := ha.2 (a + 1) (UInt32.le_iff_toNat_le.2 (by rw [hnext]; exact hb'.le.trans' (by omega)))
      fun h => hlow.ne' (by rw [h])
    · exact absurd hclose hfar.le.not_gt
    · exact absurd hfar hclose.ne'

theorem NearestEven.eq (ha : NearestEven q a) (hb : NearestEven q b) : a = b :=
  UInt32.le_antisymm (UInt32.not_lt.1 (hb.not_lt ha)) (UInt32.not_lt.1 (ha.not_lt hb))

/-- The float with that sign whose magnitude is nearest. -/
def Rounds (negative : Bool) (q : ℚ) (bits : UInt32) : Prop :=
  isNegative bits = negative ∧ NearestEven q (bits &&& 0x7fffffff)

theorem toNat_and_magnitude (bits : UInt32) : (bits &&& 0x7fffffff).toNat = bits.toNat % 2 ^ 31 := by
  rw [UInt32.toNat_and]
  exact and_two_pow_sub_one_eq_mod _ 31

theorem Rounds.eq (ha : Rounds negative q a) (hb : Rounds negative q b) : a = b := by
  have hsign : isNegative a = isNegative b := ha.1.trans hb.1.symm
  have hrest := congrArg UInt32.toNat (ha.2.eq hb.2)
  have hlt := a.toNat_lt
  have hlt' := b.toNat_lt
  rw [isNegative, isNegative, testBit_eq_decide_div_mod_eq, testBit_eq_decide_div_mod_eq, decide_eq_decide] at hsign
  rw [toNat_and_magnitude, toNat_and_magnitude] at hrest
  exact UInt32.toNat.inj (by omega)

end ShaderRecompiler.Binary32
