import ShaderRecompiler.Glsl.ValueType
import ShaderRecompiler.Proofs.Binary32

/-! Literals denote the bits they were made from. Readers of GLSL's integer and floating
literals stand beside the printer: what is printed reads back as the same word, and a finite
float as a decimal that rounds to it. The grid of `10 ^ (-60)` is finer than any float's
rounding interval, so a decimal is always found. -/
namespace ShaderRecompiler

open Option List

open Nat (digitChar toDigits)

variable {i : Decimal.Interval} {bits pattern : UInt32}

namespace Decimal

open Binary32

/-- The ends are half way to the neighbours. -/
theorem Interval.ofBinary32_eq (hn : bits.toNat % 2 ^ 31 = n) (hpos : 0 < n) :
    Interval.ofBinary32 bits = ⟨2 * (units (n - 1) + units n), 4 * units n, 2 * (units n + units (n + 1)), 2 ^ 151,
      n % 2 == 0⟩ := by
  have hunits := units_magnitude bits
  have hsucc := units_succ n
  have hpred := units_succ (n - 1)
  rw [Nat.sub_add_cancel hpos] at hpred
  have hscale : scale bits = n / 2 ^ 23 - 1 := by rw [scale, exponentField_eq, hn]
  have hparity : significand bits % 2 = n % 2 := by
    rw [significand, fraction_eq, hn]
    split <;> omega
  rw [hn, hscale] at hunits
  have hstep : (if isStepDown bits then 1 else 2) * 2 ^ (n / 2 ^ 23 - 1) = 2 * 2 ^ ((n - 1) / 2 ^ 23 - 1) := by
    rw [isStepDown, fraction_eq, exponentField_eq, hn]
    by_cases hdown : n % 2 ^ 23 = 0 ∧ 1 < n / 2 ^ 23
    · have hexpo : n / 2 ^ 23 - 1 = (n - 1) / 2 ^ 23 - 1 + 1 := by omega
      rw [if_pos (by simpa using hdown), hexpo, pow_succ, Nat.one_mul, Nat.mul_comm]
    · have hexpo : n / 2 ^ 23 - 1 = (n - 1) / 2 ^ 23 - 1 := by omega
      rw [if_neg (by simpa using hdown), hexpo]
  simp only [Interval.ofBinary32, Nat.one_shiftLeft, hscale, hparity, Interval.mk.injEq]
  refine ⟨?_, ?_, ?_, trivial, trivial⟩
  · rw [Nat.sub_mul, hstep, Nat.mul_assoc, ← hunits]
    omega
  · rw [Nat.mul_assoc, ← hunits]
  · rw [Nat.add_mul, Nat.mul_assoc, ← hunits, hsucc]
    omega

theorem nearestEven_of_contains (hn : bits.toNat % 2 ^ 31 = n) (hpos : 0 < n)
    (hfin : n < 0x7f800000) (hpattern : pattern.toNat = n) (hdiv : 0 < div)
    (h : (Interval.ofBinary32 bits).contains num div) : NearestEven (num / div) pattern := by
  have hdiv' : (0 : ℚ) < div := by exact_mod_cast hdiv
  rw [Interval.ofBinary32_eq hn hpos, Interval.contains] at h
  have hle : 2 * (units (n - 1) + units n) * div ≤ num * 2 ^ 151 ∧
      num * 2 ^ 151 ≤ 2 * (units n + units (n + 1)) * div := by
    split at h <;> simp only [decide_eq_true_eq] at h <;> omega
  refine nearestEven_of_between hpattern hfin (fun _ => ?_) ?_ fun hodd => ?_
  · rw [div_mul_eq_mul_div, le_div_iff₀ hdiv']
    exact_mod_cast hle.1
  · rw [div_mul_eq_mul_div, div_le_iff₀ hdiv']
    exact_mod_cast hle.2
  · rw [if_neg (by simp [hodd])] at h
    simp only [decide_eq_true_eq] at h
    rw [div_mul_eq_mul_div, ne_eq, ne_eq, eq_div_iff hdiv'.ne', div_eq_iff hdiv'.ne']
    exact ⟨by exact_mod_cast h.1.ne, by exact_mod_cast h.2.ne⟩

theorem contains_of_onGrid (h : i.onGrid exponent = some d) :
    0 < d ∧ i.contains (d * 10 ^ exponent.toNat) (10 ^ (-exponent).toNat) := by
  unfold Interval.onGrid at h
  dsimp only at h
  split at h
  · cases h
  · next hbelow =>
    have hpos := Nat.pos_of_ne_zero hbelow
    split at h
    · next hlow hupper =>
      split at h <;> cases h
      · exact ⟨hpos, hlow⟩
      · exact ⟨Nat.succ_pos _, hupper⟩
    · next hlow _ =>
      cases h
      exact ⟨hpos, hlow⟩
    · next _ hupper =>
      cases h
      exact ⟨Nat.succ_pos _, hupper⟩
    · cases h

theorem exists_onGrid_of_contains (below : Nat)
    (hbelow : i.value * 10 ^ (-exponent).toNat / (i.unit * 10 ^ exponent.toNat) = below) (hne : below ≠ 0)
    (h : i.contains (below * 10 ^ exponent.toNat) (10 ^ (-exponent).toNat)) :
    ∃ d, i.onGrid exponent = some d := by
  subst hbelow
  unfold Interval.onGrid
  dsimp only
  split
  · contradiction
  split
  · split <;> exact ⟨_, rfl⟩
  · exact ⟨_, rfl⟩
  · exact ⟨_, rfl⟩
  · next hlow _ => exact (Bool.eq_false_iff.1 hlow h).elim

/-- A step of the finest grid is less than a quarter of a float's. -/
theorem exists_onGrid (hn : bits.toNat % 2 ^ 31 = n) (hpos : 0 < n) :
    ∃ d, (Interval.ofBinary32 bits).onGrid (-60) = some d := by
  have hlow : units (n - 1) < units n := units_strictMono (by omega)
  have hhigh : units n < units (n + 1) := units_strictMono (by omega)
  rw [Interval.ofBinary32_eq hn hpos]
  refine exists_onGrid_of_contains (4 * units n * 10 ^ 60 / 2 ^ 151) (by simp) (by omega) ?_
  have hbelow : 4 * units n * 10 ^ 60 / 2 ^ 151 * 2 ^ 151 ≤ 4 * units n * 10 ^ 60 := Nat.div_mul_le_self _ _
  have habove : 4 * units n * 10 ^ 60 < 4 * units n * 10 ^ 60 / 2 ^ 151 * 2 ^ 151 + 2 ^ 151 := by omega
  rw [Interval.contains]
  simp only [Int.neg_neg, Int.reduceToNat, pow_zero, Nat.mul_one]
  split <;> simp only [decide_eq_true_eq] <;> omega

theorem onGrid_shortest (hn : bits.toNat % 2 ^ 31 = n) (hpos : 0 < n) :
    (Interval.ofBinary32 bits).onGrid (shortest bits).exponent = some (shortest bits).digits := by
  obtain ⟨d, hd⟩ := exists_onGrid hn hpos
  have hsome : ((range 99).findSome? fun k : Nat =>
      ((Interval.ofBinary32 bits).onGrid (38 - (k : Int))).map fun d => Scientific.mk d (38 - (k : Int))).isSome := by
    rw [findSome?_isSome_iff]
    exact ⟨98, by simp, by simp [hd]⟩
  obtain ⟨found, hfound⟩ := isSome_iff_exists.1 hsome
  obtain ⟨k, -, hk⟩ := exists_of_findSome?_eq_some hfound
  obtain ⟨digits, hdigits, rfl⟩ := map_eq_some_iff.1 hk
  have hshortest : shortest bits = ⟨digits, 38 - k⟩ := by
    unfold shortest
    dsimp only
    rw [hfound]
    rfl
  rw [hshortest]
  exact hdigits

theorem cast_mul_zpow (digits : Nat) (exponent : Int) :
    (digits * 10 ^ exponent : ℚ) = (digits * 10 ^ exponent.toNat : Nat) / (10 ^ (-exponent).toNat : Nat) := by
  cases exponent with
  | ofNat k => simp
  | negSucc k =>
    rw [zpow_negSucc, Int.neg_negSucc]
    simp [div_eq_mul_inv]

/-- The shortest decimal rounds to the float that it was made for. -/
theorem nearestEven_shortest (hn : bits.toNat % 2 ^ 31 = n) (hpos : 0 < n)
    (hfin : n < 0x7f800000) (hpattern : pattern.toNat = n) :
    0 < (shortest bits).digits ∧
      NearestEven ((shortest bits).digits * 10 ^ (shortest bits).exponent) pattern := by
  obtain ⟨hdigits, hcont⟩ := contains_of_onGrid (onGrid_shortest hn hpos)
  refine ⟨hdigits, ?_⟩
  rw [cast_mul_zpow]
  exact nearestEven_of_contains hn hpos hfin hpattern (by positivity) hcont

end Decimal

namespace Glsl.Literal

def digit? (base : Nat) (c : Char) : Option Nat := (range base).find? (digitChar · == c)

/-- Reads digits on from the number that those before them spell. -/
def digits? (base first : Nat) (cs : List Char) : Option Nat :=
  cs.foldlM (fun n c => (digit? base c).map (base * n + ·)) first

def natural? (base : Nat) (cs : List Char) : Option Nat := if cs = [] then none else digits? base 0 cs

/-- Hexadecimal behind `0x`, octal behind `0`, and else decimal. -/
def integer? : List Char → Option Nat
  | '0' :: 'x' :: cs => natural? 16 cs
  | '0' :: cs => natural? 8 ('0' :: cs)
  | cs => natural? 10 cs

def uint? (cs : List Char) : Option UInt32 :=
  if cs.getLast? = some 'u' then ((integer? cs.dropLast).filter (· < 2 ^ 32)).map UInt32.ofNat else none

/-- A literal below `2 ^ 31`, its negation, or an unsigned literal whose bits are kept. -/
def int? : List Char → Option Int32
  | 'i' :: 'n' :: 't' :: '(' :: cs =>
    if cs.getLast? = some ')' then (uint? cs.dropLast).map UInt32.toInt32 else none
  | '-' :: cs => ((integer? cs).filter (· < 2 ^ 31)).map fun n : Nat => Int32.ofInt (-n)
  | cs => ((integer? cs).filter (· < 2 ^ 31)).map fun n : Nat => Int32.ofInt n

def exponent? : List Char → Option Int
  | [] => some 0
  | _ :: '-' :: cs => (natural? 10 cs).map fun n : Nat => -(n : Int)
  | _ :: cs => (natural? 10 cs).map fun n : Nat => (n : Int)

/-- The exact value of a decimal, which has a point, an exponent or both. -/
def decimal? (cs : List Char) : Option ℚ :=
  let mantissa := cs.takeWhile (· != 'e')
  let power := cs.dropWhile (· != 'e')
  let whole := mantissa.takeWhile (· != '.')
  let fraction := mantissa.dropWhile (· != '.')
  if fraction = [] ∧ power = [] then none
  else do
    let digits ← natural? 10 (whole ++ fraction.tail)
    let exponent ← exponent? power
    return digits * 10 ^ (exponent - fraction.tail.length)

variable {k n d : Nat} {ds cs : List Char}

theorem digit?_digitChar (hk : k < base) (hbase : base ≤ 16) : digit? base k.digitChar = some k := by
  have hinj : ∀ i < 16, ∀ j < 16, digitChar i = digitChar j → i = j := by decide
  refine find?_range_eq_some.2 ⟨by simp, by simpa using hk, fun j hj => ?_⟩
  have hne : j.digitChar ≠ k.digitChar := fun h => hj.ne (hinj j (by omega) k (by omega) h)
  simpa using hne

theorem digits?_append (base first : Nat) (cs cs' : List Char) :
    digits? base first (cs ++ cs') = (digits? base first cs).bind (digits? base · cs') :=
  foldlM_append

theorem digits?_digitChar (hk : k < base) (hbase : base ≤ 16) (first : Nat) :
    digits? base first [k.digitChar] = some (base * first + k) := by
  simp [digits?, digit?_digitChar hk hbase]

theorem digits?_replicate_zero (hpos : 0 < base) (hbase : base ≤ 16) (first : Nat) :
    digits? base first (replicate k '0') = some (first * base ^ k) := by
  induction k with
  | zero => simp [digits?]
  | succ k ih =>
    have hzero : digits? base (first * base ^ k) ['0'] = some (base * (first * base ^ k)) :=
      digits?_digitChar hpos hbase _
    rw [replicate_succ', digits?_append, ih, bind_some, hzero, pow_succ]
    congr 1
    ring

theorem digits?_toDigits (hlt : 1 < base) (hbase : base ≤ 16) (n : Nat) :
    digits? base 0 (toDigits base n) = some n := by
  induction n using Nat.strong_induction_on with
  | _ n ih =>
    by_cases hn : n < base
    · rw [Nat.toDigits_of_lt_base hn, digits?_digitChar hn hbase]
      simp
    · rw [Nat.toDigits_of_base_le hlt (by omega), digits?_append,
        ih (n / base) (Nat.div_lt_self (by omega) hlt), bind_some,
        digits?_digitChar (Nat.mod_lt n (by omega)) hbase, Nat.div_add_mod]

theorem digits?_ten (n : Nat) : digits? 10 0 (toDigits 10 n) = some n := digits?_toDigits (by decide) (by decide) n

theorem natural?_eq (hne : cs ≠ []) : natural? base cs = digits? base 0 cs := if_neg hne

theorem toDigits_eq_cons (n : Nat) : ∃ c cs, toDigits 10 n = c :: cs ∧ c.isDigit ∧ (0 < n → c ≠ '0') := by
  induction n using Nat.strong_induction_on with
  | _ n ih =>
    by_cases hn : n < 10
    · refine ⟨n.digitChar, [], Nat.toDigits_of_lt_base hn, by simpa using hn, fun hpos => ?_⟩
      simpa using hpos.ne'
    · obtain ⟨c, cs, hcs, hdig, hzero⟩ := ih (n / 10) (by omega)
      refine ⟨c, cs ++ [(n % 10).digitChar], ?_, hdig, fun _ => hzero (by omega)⟩
      rw [Nat.toDigits_of_base_le (by decide) (by omega), hcs, cons_append]

/-- Decimal digits are not taken for octal ones. -/
theorem integer?_toDigits (n : Nat) : integer? (toDigits 10 n) = some n := by
  obtain rfl | hpos := n.eq_zero_or_pos
  · rfl
  · obtain ⟨c, cs, hcs, -, hzero⟩ := toDigits_eq_cons n
    have hread := digits?_ten n
    rw [hcs] at hread ⊢
    unfold integer?
    split
    · exact absurd (cons.inj (by assumption)).1 (hzero hpos)
    · exact absurd (cons.inj (by assumption)).1 (hzero hpos)
    · rw [natural?_eq (by simp), hread]

theorem uint?_append (h : integer? cs = some bits.toNat) : uint? (cs ++ ['u']) = some bits := by
  simpa [uint?, h] using bits.toNat_lt

theorem uint?_uint (bits : UInt32) : uint? (uint bits).toList = some bits := by
  have htext : (uint bits).toList = toDigits 10 bits.toNat ++ ['u'] := by simp [uint, toString]
  rw [htext]
  exact uint?_append (integer?_toDigits _)

theorem length_word (bits : UInt32) : (Hexadecimal.word bits).length = 8 := by
  have hle : (toDigits 16 bits.toNat).length ≤ 8 := (Nat.length_toDigits_le_iff (by decide) (by decide)).2 bits.toNat_lt
  simp [Hexadecimal.word]
  omega

theorem uint?_word (bits : UInt32) : uint? ('0' :: 'x' :: (Hexadecimal.word bits).toList ++ ['u']) = some bits := by
  refine uint?_append ?_
  have hread : digits? 16 0 (Hexadecimal.word bits).toList = some bits.toNat := by
    simp only [Hexadecimal.word, String.toList_ofList, digits?_append]
    rw [digits?_replicate_zero (by decide) (by decide), bind_some, Nat.zero_mul,
      digits?_toDigits (by decide) (by decide)]
  rw [integer?, natural?_eq (by simp [Hexadecimal.word]), hread]

theorem toList_toString_int (i : Int) :
    (toString i).toList = (if i < 0 then ['-'] else []) ++ toDigits 10 i.natAbs := by
  cases i <;> simp [toString, Int.repr]

/-- A sign and digits are no other form of an integer expression. -/
theorem int?_append (hn : n < 2 ^ 31) (negative : Bool) :
    int? ((if negative then ['-'] else []) ++ toDigits 10 n) = some (Int32.ofInt (if negative then -n else n)) := by
  have hread : ((integer? (toDigits 10 n)).filter (· < 2 ^ 31)) = some n := by
    simpa [integer?_toDigits] using hn
  obtain ⟨c, cs, hcs, hdig, -⟩ := toDigits_eq_cons n
  rw [hcs] at hread ⊢
  cases negative with
  | true => simp only [if_true, cons_append, nil_append, int?, hread, map_some]
  | false =>
    simp only [Bool.false_eq_true, if_false, nil_append]
    unfold int?
    split
    · next h =>
      rw [(cons.inj h).1] at hdig
      cases hdig
    · next h =>
      rw [(cons.inj h).1] at hdig
      cases hdig
    · rw [hread]
      rfl

theorem int?_int (bits : UInt32) : int? (int bits).toList = some bits.toInt32 := by
  unfold int
  split
  · next h =>
    subst h
    rfl
  · next hne =>
    have hlow := bits.toInt32.le_toInt
    have hhigh := bits.toInt32.toInt_lt
    have hmin : signed bits ≠ -2 ^ 31 := by
      intro h
      have hword : bits.toInt32 = Int32.ofInt (-2 ^ 31) := by rw [← h, signed, Int32.ofInt_toInt]
      exact hne (congrArg Int32.toUInt32 hword)
    have hread := int?_append (n := (signed bits).natAbs) (by unfold signed at hmin ⊢; omega) (decide (signed bits < 0))
    have hval : (if signed bits < 0 then -((signed bits).natAbs : Int) else (signed bits).natAbs) = signed bits := by
      split <;> omega
    simp only [decide_eq_true_eq, hval] at hread
    rw [toList_toString_int, hread, signed, Int32.ofInt_toInt]

/-- A literal's last zeros are dropped, and with them as many powers of ten. -/
theorem exists_significantDigits (hn : 0 < n) : ∃ d k, digits? 10 0 (significantDigits n) = some d ∧ d * 10 ^ k = n ∧
    (toDigits 10 n).length = (significantDigits n).length + k ∧
    (∀ c ∈ significantDigits n, c.isDigit) ∧ significantDigits n ≠ [] := by
  have hzeros : ((toDigits 10 n).reverse.takeWhile (· == '0')) =
      replicate ((toDigits 10 n).reverse.takeWhile (· == '0')).length '0' :=
    eq_replicate_of_mem fun c hc => by simpa using all_eq_true.1 all_takeWhile c hc
  generalize ((toDigits 10 n).reverse.takeWhile (· == '0')).length = k at hzeros
  have hspl : toDigits 10 n = significantDigits n ++ replicate k '0' := by
    have hreverse := takeWhile_append_dropWhile (p := (· == '0')) (l := (toDigits 10 n).reverse)
    rw [hzeros] at hreverse
    simpa [significantDigits] using (congrArg reverse hreverse).symm
  have hread := digits?_ten n
  rw [hspl, digits?_append] at hread
  obtain ⟨d, hd, hread⟩ := bind_eq_some_iff.1 hread
  rw [digits?_replicate_zero (by decide) (by decide)] at hread
  have hval : d * 10 ^ k = n := Option.some.inj hread
  refine ⟨d, k, hd, hval, by simp [hspl], fun c hc => ?_, fun hnil => ?_⟩
  · exact Nat.isDigit_of_mem_toDigits (by decide) (by decide) (hspl ▸ mem_append_left _ hc)
  · rw [hnil] at hd
    cases hd
    omega

theorem exponent?_toString (exponent : Int) : exponent? ('e' :: (toString exponent).toList) = some exponent := by
  have hread := digits?_ten exponent.natAbs
  rw [toList_toString_int]
  obtain ⟨c, cs, hcs, hdig, -⟩ := toDigits_eq_cons exponent.natAbs
  rw [hcs] at hread ⊢
  split
  · simp only [cons_append, nil_append, exponent?]
    rw [natural?_eq (by simp), hread, map_some]
    congr 1
    omega
  · rw [nil_append]
    unfold exponent?
    split
    · next h => cases h
    · next h =>
      rw [(cons.inj (cons.inj h).2).1] at hdig
      cases hdig
    · next h =>
      rw [← (cons.inj h).2, natural?_eq (by simp), hread, map_some]
      congr 1
      omega

/-- Digits, a point with digits behind it and an exponent are told apart again. -/
theorem decimal?_append (power : List Char) (hwhole : ∀ c ∈ whole, c.isDigit) (hfraction : ∀ c ∈ fraction, c.isDigit)
    (hpoint : point = [] ∧ fraction = [] ∨ point = '.' :: fraction) (hpower : power = [] ∨ ∃ cs, power = 'e' :: cs)
    (hsome : point ≠ [] ∨ power ≠ []) (hdigits : digits? 10 0 (whole ++ fraction) = some d)
    (hne : whole ++ fraction ≠ []) (hexpo : exponent? power = some exponent) :
    decimal? (whole ++ point ++ power) = some ((d : ℚ) * 10 ^ (exponent - fraction.length)) := by
  have hnumeral : ∀ c, c.isDigit → c ≠ 'e' ∧ c ≠ '.' := by
    intro c hc
    constructor <;> rintro rfl <;> cases hc
  have hmantissa : ∀ c ∈ whole ++ point, (c != 'e') := by
    intro c hc
    rw [bne_iff_ne]
    rcases mem_append.1 hc with hc | hc
    · exact (hnumeral c (hwhole c hc)).1
    · rcases hpoint with ⟨rfl, -⟩ | rfl
      · cases hc
      · rcases mem_cons.1 hc with rfl | hc
        · decide
        · exact (hnumeral c (hfraction c hc)).1
  have hinteger : ∀ c ∈ whole, (c != '.') := fun c hc => bne_iff_ne.2 (hnumeral c (hwhole c hc)).2
  have hpowers : power.takeWhile (· != 'e') = [] ∧ power.dropWhile (· != 'e') = power := by
    rcases hpower with rfl | ⟨cs, rfl⟩ <;> simp
  have hpoints : point.takeWhile (· != '.') = [] ∧ point.dropWhile (· != '.') = point ∧ point.tail = fraction := by
    rcases hpoint with ⟨rfl, rfl⟩ | rfl <;> simp
  have hboth : ¬(point = [] ∧ power = []) := fun h => hsome.elim (· h.1) (· h.2)
  unfold decimal?
  dsimp only
  rw [takeWhile_append_of_pos hmantissa, dropWhile_append_of_pos hmantissa, hpowers.1, hpowers.2,
    append_nil, takeWhile_append_of_pos hinteger, dropWhile_append_of_pos hinteger, hpoints.1,
    hpoints.2.1, hpoints.2.2, append_nil, if_neg hboth, natural?_eq hne, hdigits, hexpo]
  rfl

section

variable (hd : digits? 10 0 ds = some d) (hdigits : ∀ c ∈ ds, c.isDigit) (hne : ds ≠ [])
include hd hdigits hne

theorem decimal?_positional (point : Int) :
    decimal? (positional ds point) = some ((d : ℚ) * 10 ^ (point - ds.length)) := by
  have hzeros : ∀ k, ∀ c ∈ replicate k '0', c.isDigit := by
    intro k c hc
    rw [eq_of_mem_replicate hc]
    rfl
  unfold positional
  split
  · next hsmall =>
    have hread : digits? 10 0 (['0'] ++ (replicate (-point).toNat '0' ++ ds)) = some d := by
      have hfst : digits? 10 0 ['0'] = some 0 := rfl
      rw [digits?_append, hfst, bind_some, digits?_append, digits?_replicate_zero (by decide) (by decide),
        bind_some, Nat.zero_mul, hd]
    have hdec := decimal?_append [] (hzeros 1)
      (forall_mem_append.2 ⟨hzeros (-point).toNat, hdigits⟩) (.inr rfl) (.inl rfl) (.inl (by simp)) hread
      (by simp) rfl
    have hexpo : (0 : Int) - (replicate (-point).toNat '0' ++ ds).length = point - ds.length := by
      rw [length_append, length_replicate]
      omega
    rw [hexpo] at hdec
    simpa using hdec
  · split
    · next hlarge =>
      have hread : digits? 10 0 (ds ++ replicate (point.toNat - ds.length) '0' ++ ['0']) =
          some (d * 10 ^ (point.toNat - ds.length) * 10) := by
        rw [digits?_append, digits?_append, hd, bind_some, digits?_replicate_zero (by decide) (by decide),
          bind_some]
        exact (digits?_replicate_zero (k := 1) (by decide) (by decide) _).trans (by rw [pow_one])
      have hdec := decimal?_append [] (forall_mem_append.2 ⟨hdigits, hzeros _⟩) (hzeros 1)
        (.inr rfl) (.inl rfl) (.inl (by simp)) hread (by simp) rfl
      have hexpo : point - ds.length = (point.toNat - ds.length : Nat) := by omega
      rw [append_nil] at hdec
      refine hdec.trans ?_
      rw [hexpo, zpow_natCast]
      simp
    · have hdec := decimal?_append [] (fun c hc => hdigits c (mem_of_mem_take hc))
        (fun c hc => hdigits c (mem_of_mem_drop (i := point.toNat) hc)) (.inr rfl) (.inl rfl) (.inl (by simp))
        (by rwa [take_append_drop]) (by rwa [take_append_drop]) rfl
      have hexpo : (0 : Int) - (ds.drop point.toNat).length = point - ds.length := by
        rw [length_drop]
        omega
      rw [hexpo] at hdec
      simpa using hdec

theorem decimal?_scientific (exponent : Int) :
    decimal? (scientific ds exponent) = some ((d : ℚ) * 10 ^ (exponent + 1 - ds.length)) := by
  have hpoint : (if (ds.drop 1).isEmpty then [] else '.' :: ds.drop 1) = [] ∧ ds.drop 1 = [] ∨
      (if (ds.drop 1).isEmpty then [] else '.' :: ds.drop 1) = '.' :: ds.drop 1 := by
    cases ds.drop 1 <;> simp
  have hexpo : exponent - (ds.drop 1).length = exponent + 1 - ds.length := by
    have := length_pos_iff.2 hne
    rw [length_drop]
    omega
  rw [← hexpo]
  have hdec := decimal?_append _ (fun c hc => hdigits c (mem_of_mem_take hc))
    (fun c hc => hdigits c (mem_of_mem_drop hc)) hpoint (.inr ⟨_, rfl⟩) (.inr (by simp))
    (by rwa [take_append_drop]) (by rwa [take_append_drop]) (exponent?_toString exponent)
  simpa [scientific] using hdec

end

/-- A finite magnitude is written as the exact value of its shortest decimal. -/
theorem decimal?_magnitude (hpos : 0 < bits.toNat % 2 ^ 31) (hdigits : 0 < (Decimal.shortest bits).digits) :
    decimal? (magnitude bits) =
      some ((Decimal.shortest bits).digits * 10 ^ (Decimal.shortest bits).exponent : ℚ) := by
  obtain ⟨d, k, hd, hval, hlen, hnumeral, hne⟩ := exists_significantDigits hdigits
  have hcast : ((Decimal.shortest bits).digits : ℚ) = d * 10 ^ k := by
    rw [← hval]
    push_cast
    rfl
  have hsignificand : Binary32.significand bits ≠ 0 := by
    rw [Binary32.significand, Binary32.exponentField_eq, Binary32.fraction_eq]
    split <;> omega
  have hexpo : ((toDigits 10 (Decimal.shortest bits).digits).length : Int) + (Decimal.shortest bits).exponent -
      (significantDigits (Decimal.shortest bits).digits).length = k + (Decimal.shortest bits).exponent := by
    rw [hlen]
    omega
  unfold magnitude
  rw [if_neg hsignificand]
  dsimp only
  rw [hcast, mul_assoc, ← zpow_natCast, ← zpow_add₀ (by norm_num), ← hexpo]
  split
  · exact decimal?_positional hd hnumeral hne _
  · rw [decimal?_scientific hd hnumeral hne, Int.sub_add_cancel]

/-- A decimal with its sign. -/
def float? : List Char → Option (Bool × ℚ)
  | '-' :: cs => (decimal? cs).map (true, ·)
  | cs => (decimal? cs).map (false, ·)

theorem decimal?_minus (cs : List Char) : decimal? ('-' :: cs) = none := by
  have hminus : digit? 10 '-' = none := rfl
  simp [decimal?, natural?, digits?, hminus]

theorem float?_append (negative : Bool) (h : decimal? cs = some q) :
    float? ((if negative then ['-'] else []) ++ cs) = some (negative, q) := by
  cases negative with
  | true => simp [float?, h]
  | false =>
    simp only [Bool.false_eq_true, if_false, nil_append]
    unfold float?
    split
    · rw [decimal?_minus] at h
      cases h
    · rw [h]
      rfl

theorem exists_rounds_float (hfin : Binary32.isFinite bits) :
    ∃ negative q, float? (float bits).toList = some (negative, q) ∧ Binary32.Rounds negative q bits := by
  have hbits := Binary32.toNat_and_magnitude bits
  have hlt : bits.toNat % 2 ^ 31 < 0x7f800000 := by
    rw [Binary32.isFinite, Binary32.exponentField_eq, bne_iff_ne] at hfin
    omega
  rw [float, if_pos hfin, String.toList_ofList]
  obtain hzero | hpos := Nat.eq_zero_or_pos (bits.toNat % 2 ^ 31)
  · have htext : magnitude bits = positional ['0'] 1 := by
      rw [magnitude, Binary32.significand, Binary32.exponentField_eq, Binary32.fraction_eq, hzero]
      rfl
    have hread : decimal? (positional ['0'] 1) = some (((0 : Nat) : ℚ) * 10 ^ (1 - 1 : Int)) :=
      decimal?_positional rfl (by simp) (by simp) 1
    rw [← htext, Nat.cast_zero, zero_mul] at hread
    refine ⟨_, 0, float?_append _ hread, rfl, ?_⟩
    rw [hzero] at hbits
    refine Binary32.nearestEven_of_between hbits (by decide) (by simp) ?_ (by simp)
    rw [zero_mul]
    positivity
  · obtain ⟨hdigits, hnearest⟩ := Decimal.nearestEven_shortest rfl hpos hlt hbits
    exact ⟨_, _, float?_append _ (decimal?_magnitude hpos hdigits), rfl, hnearest⟩

end Glsl.Literal

namespace Glsl

/-- A constant is written so that it reads back as its bits: as an unsigned literal, as an
integer expression, and as a float. A finite float is a decimal that rounds to those bits and
to no others; another one is spelled as its bits in hexadecimal. -/
theorem constant_denotes (bits : UInt32) : Literal.uint? (constant bits .u32).toList = some bits ∧
      (Literal.int? (constant bits .s32).toList).map Int32.toUInt32 = some bits ∧
      if Binary32.isFinite bits then
        ∃ negative q, Literal.float? (constant bits .f32).toList = some (negative, q) ∧
          ∀ other, Binary32.Rounds negative q other ↔ other = bits
      else
        ∃ word : String, constant bits .f32 = s!"uintBitsToFloat(0x{word}u)" ∧ word.length = 8 ∧
          Literal.uint? ('0' :: 'x' :: word.toList ++ ['u']) = some bits := by
  refine ⟨Literal.uint?_uint bits, ?_, ?_⟩
  · rw [constant, Literal.int?_int]
    rfl
  split
  · next hfinite =>
    obtain ⟨negative, q, hread, hrounds⟩ := Literal.exists_rounds_float hfinite
    refine ⟨negative, q, hread, fun other => ⟨fun h => h.eq hrounds, ?_⟩⟩
    rintro rfl
    exact hrounds
  · next hfinite =>
    refine ⟨Hexadecimal.word bits, ?_, Literal.length_word bits, Literal.uint?_word bits⟩
    rw [constant, Literal.float, if_neg hfinite]

end Glsl
end ShaderRecompiler
