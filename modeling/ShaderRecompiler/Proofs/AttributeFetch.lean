import ShaderRecompiler.Proofs.Binary32
import ShaderRecompiler.Proofs.JoinedFetch

/-! Attributes that an emulated vertex stage fetches itself: which texel is read, what
becomes of it on the way to the destination, and what stands in for components that the
format lacks. -/
namespace ShaderRecompiler

open Binary32

theorem toInt_sshiftRight_shiftLeft (hpos : 0 < n) (hn : n ≤ 32) (x : BitVec 32) :
    ((x <<< (32 - n)).sshiftRight (32 - n)).toInt = (x.setWidth n).toInt := by
  have hextend : (x <<< (32 - n)).sshiftRight (32 - n) = (x.setWidth n).signExtend 32 := by
    ext i hi
    rw [BitVec.getElem_sshiftRight, BitVec.getElem_signExtend]
    by_cases hin : i < n
    · have hins : 32 - n + i < 32 := by omega
      have hupper : ¬ 32 - n + i < 32 - n := by omega
      simp [hin, hins, hupper, BitVec.getLsbD_eq_getElem hi]
    · have houtside : ¬ 32 - n + i < 32 := by omega
      have hupper : ¬ 31 < 32 - n := by omega
      have hlast : 31 - (32 - n) = n - 1 := by omega
      have hlt : n - 1 < n := by omega
      simp [hin, houtside, hupper, hlast, hlt, BitVec.msb_eq_getLsbD_last,
        BitVec.getLsbD_eq_getElem (Nat.lt_of_lt_of_le hlt hn)]
  rw [hextend, BitVec.toInt_signExtend_of_le hn]

open Binary32 in
/-- What the instructions on the way of an attribute give. Floats are only asked to be
exact, and only where the exact result is a float. -/
structure World.Calculates (w : World) : Prop where
  select : ∀ type c a b, w.result (.conditionalSelect type) .none [c, a, b] = if c = 0 then b else a
  shift : ∀ a b, b < 32 → (w.result .shiftRightS32 .none [a, b]).toBitVec = a.toBitVec.sshiftRight b.toNat
  convert : ∀ a bits, Denotes bits a.toBitVec.toInt → Denotes (w.result .convertS32ToFP32 .none [a]) a.toBitVec.toInt
  multiply : ∀ a b bits x y, Denotes a x → Denotes b y → Denotes bits (x * y) →
    Denotes (w.result (.multiply .f32) .none [a, b]) (x * y)

/-- The float equal to a number, if there is one. -/
noncomputable def Binary32.exact (q : ℚ) : UInt32 :=
  @Classical.epsilon UInt32 ⟨0⟩ (Denotes · q)

theorem Binary32.denotes_exact (h : Denotes bits q) : Denotes (exact q) q :=
  Classical.epsilon_spec (p := (Denotes · q)) ⟨bits, h⟩

/-- Arithmetic that is right where it has to be, around whatever is loaded and sampled. -/
noncomputable def World.exact (outside : Instruction → Storage → List UInt32 → UInt32) : World where
  constant _ _ := 0
  result inst storage words :=
    match inst, words with
    | .conditionalSelect _, [c, a, b] => if c = 0 then b else a
    | .shiftRightS32, [a, b] => ⟨a.toBitVec.sshiftRight b.toNat⟩
    | .convertS32ToFP32, [a] => Binary32.exact a.toBitVec.toInt
    | .multiply .f32, [a, b] => Binary32.exact (Binary32.value a * Binary32.value b)
    | inst, words => outside inst storage words

theorem World.calculates_exact (outside : Instruction → Storage → List UInt32 → UInt32) :
    (exact outside).Calculates where
  select _ _ _ _ := rfl
  shift _ _ _ := rfl
  convert _ _ h := Binary32.denotes_exact h
  multiply _ _ _ _ _ ha hb h := by
    rw [← ha.2, ← hb.2] at h ⊢
    exact Binary32.denotes_exact h

namespace VertexEmulation

variable (e : VertexEmulation) (w : World)

/-- A word of what the draw is described by. -/
def infoWord (indices : List Nat) : UInt32 :=
  w.result .load .constantBuffer
    (UInt32.ofNat e.context.resources.reservations.vertexInfo :: indices.map UInt32.ofNat)

/-- The attribute advances per instance where its divisor is set. -/
def attributeIndex (location : Nat) : UInt32 :=
  if e.infoWord w [VertexInfo.divisors, location] = 0 then w.result .load .localMemory [UInt32.ofNat e.vertexRate]
  else w.result .load .localMemory [UInt32.ofNat e.instanceRate]

/-- The first element of the attribute of the current vertex. -/
def attributeElement (location : Nat) : UInt32 :=
  e.attributeIndex w location * e.infoWord w [VertexInfo.strides, location, 0]

/-- The format has the component. -/
abbrev HasComponent (location component : Nat) : Prop :=
  component = 0 ∨ e.infoWord w [VertexInfo.strides, location, component] ≠ 0

/-- A component of an element of the vertex buffer of the location. -/
def texel (location component : Nat) (element : UInt32) : UInt32 :=
  w.result (.textureSample
    { binding := e.context.resources.reservations.vertexBuffer location
      sampler := .buffer
      intCoords := true
      lod := false
      component
      result := e.context.config.fetchType location }) .none [element]

variable {e w} {em : Emitter}

open Emit

theorem runs_info (indices : List Nat) : Runs w (e.info indices) em s fun o em' s' =>
    Onward em s em' s' ∧ Means w em' s' o (e.infoWord w indices) := by
  refine .load (.cons (means_constant ..) ?_)
  induction indices with
  | nil => exact .nil
  | cons index indices ih => exact .cons (means_constant ..) ih

theorem runs_elementIndex (hw : w.Calculates) : Runs w (e.elementIndex location component) em s fun o em' s' =>
    Onward em s em' s' ∧ Means w em' s' o (e.attributeElement w location + UInt32.ofNat component) := by
  refine .bind (.load (.cons (means_constant ..) .nil)) fun vertexRate _ _ h₁ => ?_
  refine .bind (.load (.cons (means_constant ..) .nil)) fun instanceRate _ _ h₂ => ?_
  refine .bind (runs_info _) fun _ _ _ h₃ => ?_
  refine .bind (.value (.cons h₃.2 (.cons (h₂.2.mono h₃.1) (.cons ((h₁.2.mono h₂.1).mono h₃.1) .nil))))
    fun _ _ _ h₄ => ?_
  refine .bind (runs_info _) fun _ _ _ h₅ => ?_
  refine .bind (.binary (h₄.2.mono h₅.1) h₅.2) fun base e₆ s₆ h₆ => ?_
  have honw := ((((h₁.1.trans h₂.1).trans h₃.1).trans h₄.1).trans h₅.1).trans h₆.1
  have hbase : Means w e₆ s₆ base (e.attributeElement w location) := by
    have hvtx := hw.select .u32 (e.infoWord w [VertexInfo.divisors, location])
      (w.result .load .localMemory [UInt32.ofNat e.instanceRate])
      (w.result .load .localMemory [UInt32.ofNat e.vertexRate])
    unfold attributeElement attributeIndex
    rw [← hvtx]
    exact h₆.2
  split
  · next hzero =>
    subst hzero
    exact .pure ⟨honw, by simpa using hbase⟩
  · exact (Runs.binary hbase (means_constant ..)).mono fun _ _ _ h => ⟨honw.trans h.1, h.2⟩

theorem runs_fetch (hcomp : component < 4) (h : Means w em s element n) :
    Runs w (e.fetch location component element) em s fun o em' s' =>
      Onward em s em' s' ∧ Means w em' s' o (e.texel w location component n) := by
  rw [fetch, Nat.mod_eq_of_lt (by omega)]
  exact .value (.cons h .nil)

/-- The low bits of the word by their sign, as a float out of `2 ^ (bits - 1)` if it is normalized. -/
def Extends (x : UInt32) (bits : Nat) (normalized : Bool) (v : UInt32) : Prop :=
  if normalized then Denotes v ((x.toBitVec.setWidth bits).toInt / 2 ^ (bits - 1))
  else v.toBitVec.toInt = (x.toBitVec.setWidth bits).toInt

theorem runs_signExtend (hw : w.Calculates) (h : Means w em s operand x) {bits : Nat}
    (hpos : 0 < bits) (hbits : bits ≤ 24) (normalized : Bool) :
    Runs w (signExtend operand bits normalized) em s fun o em' s' =>
      Onward em s em' s' ∧ ∃ v, Means w em' s' o v ∧ Extends x bits normalized v := by
  refine .bind (.binary h (means_constant ..)) fun _ _ _ h₁ => ?_
  refine .bind (.binary h₁.2 (means_constant ..)) fun _ _ _ h₂ => ?_
  have hextended : (w.result .shiftRightS32 .none [x <<< UInt32.ofNat (32 - bits),
      UInt32.ofNat (32 - bits)]).toBitVec.toInt =
      (x.toBitVec.setWidth bits).toInt := by
    have hnat : (UInt32.ofNat (32 - bits)).toNat = 32 - bits := UInt32.toNat_ofNat_of_lt' (by simp [UInt32.size]; omega)
    have hlt : UInt32.ofNat (32 - bits) < 32 := by rw [UInt32.lt_iff_toNat_lt, hnat]; simp; omega
    have hshifted : (x <<< UInt32.ofNat (32 - bits)).toBitVec = x.toBitVec <<< (32 - bits) := by
      rw [UInt32.toBitVec_shiftLeft, BitVec.shiftLeft_eq', BitVec.toNat_umod, UInt32.toNat_toBitVec, hnat]
      exact congrArg _ (Nat.mod_eq_of_lt (by simp; omega))
    rw [hw.shift _ _ hlt, hnat, hshifted, toInt_sshiftRight_shiftLeft hpos (by omega)]
  unfold Extends
  cases normalized with
  | false => exact .pure ⟨h₁.1.trans h₂.1, _, h₂.2, hextended⟩
  | true =>
    have hbound : (x.toBitVec.setWidth bits).toInt.natAbs < 2 ^ 24 := by
      have hlow := BitVec.le_toInt (x := x.toBitVec.setWidth bits)
      have hupper := BitVec.toInt_lt (x := x.toBitVec.setWidth bits)
      have hpow : (2 : Int) ^ (bits - 1) ≤ 2 ^ 23 := pow_le_pow_right₀ (by decide) (by omega)
      omega
    refine .bind (.value (.cons h₂.2 .nil)) fun float _ _ h₃ => ?_
    refine (Runs.binary h₃.2 (means_constant ..)).mono
      fun _ _ _ h₄ => ⟨((h₁.1.trans h₂.1).trans h₃.1).trans h₄.1, _, h₄.2, ?_⟩
    obtain ⟨float, hfloat⟩ := exists_denotes hbound (Nat.zero_le 126)
    obtain ⟨scaled, hscaled⟩ := exists_denotes (j := bits - 1) hbound (by omega)
    rw [div_eq_mul_one_div] at hscaled ⊢
    refine hw.multiply _ _ scaled _ _ ?_ (denotes_halving (by omega)) hscaled
    rw [← hextended] at hfloat ⊢
    rw [pow_zero, div_one] at hfloat
    exact hw.convert _ float hfloat

theorem runs_packedAttribute (hw : w.Calculates) (hcomp : component < 4) :
    Runs w (e.packedAttribute location component) em s fun o em' s' => ∃ v, Means w em' s' o v ∧
      if e.context.config.isPackedSigned location then
        Extends (e.texel w location component (e.attributeElement w location)) (if component = 3 then 2 else 10)
          (!e.context.config.isSint location) v
      else v = e.texel w location component (e.attributeElement w location) := by
  refine .bind (runs_elementIndex hw) fun _ _ _ h₁ => ?_
  rw [show UInt32.ofNat 0 = 0 from rfl, UInt32.add_zero] at h₁
  refine .bind (runs_fetch hcomp h₁.2) fun _ _ _ h₂ => ?_
  split
  · exact (runs_signExtend hw h₂.2 (by split <;> omega) (by split <;> omega) _).mono fun _ _ _ h => h.2
  · exact .pure ⟨_, h₂.2, rfl⟩

theorem runs_plainAttribute (hw : w.Calculates) :
    Runs w (e.plainAttribute location component) em s fun o em' s' => ∃ v, Means w em' s' o v ∧
      v = if e.HasComponent w location component then
          e.texel w location 0 (e.attributeElement w location + UInt32.ofNat component)
        else ofNat (if component = 3 then 1 else 0) := by
  refine .bind (runs_elementIndex hw) fun _ _ _ h₁ => ?_
  refine .bind (runs_fetch (by decide) h₁.2) fun value _ _ h₂ => ?_
  split
  · next hzero => exact .pure ⟨_, h₂.2, (if_pos (.inl hzero)).symm⟩
  · next hne =>
    refine .bind (runs_info _) fun _ _ _ h₃ => ?_
    refine (Runs.value (.cons h₃.2 (.cons (h₂.2.mono h₃.1) (.cons (means_constant ..) .nil)))).mono fun _ _ _ h =>
      ⟨_, h.2, (hw.select ..).trans ?_⟩
    by_cases hmissing : e.infoWord w [VertexInfo.strides, location, component] = 0
    · rw [if_pos hmissing, if_neg (not_or.2 ⟨hne, not_not.2 hmissing⟩)]
    · rw [if_neg hmissing, if_pos (.inr hmissing)]

end VertexEmulation

/-- A load of a component of a generic input, at a place that is known. -/
structure Operation.LoadsGeneric (op : Operation) (dest : Operand) (location component : Nat) : Prop where
  isLoad : op.isLoad .input
  dest_eq : op.dest = some dest
  io_eq : op.ioVariable? = some .userDefined
  location_eq : op.place? 1 = some location
  component_eq : op.place? 2 = some component
  component_lt : component < 4

namespace VertexEmulation

variable {x : PassContext} {vertexData vertexRate instanceRate : Nat} {op : Operation} {dest : Operand}
  {location component : Nat} {w : World}

theorem run_piece (hmemory : x.resources.emulation = some (.vertex vertexData vertexRate instanceRate))
    (hop : op.LoadsGeneric dest location component) {P : UInt32 → Prop}
    (h : Emit.Runs w (userInput ⟨x, vertexRate, instanceRate⟩ location component) { ids } s fun o em' s' =>
      ∃ v, Means w em' s' o v ∧ P v) : P (w.run ((expansion x).piece ids op) s dest) := by
  have hexp : expansion x op = replaceInput dest (userInput ⟨x, vertexRate, instanceRate⟩ location component) := by
    rw [expansion_of_load hmemory hop.isLoad]
    exact expandInput_eq _ hop.dest_eq hop.io_eq hop.location_eq hop.component_eq
  have hruns : Emit.Runs w (replaceInput dest (userInput ⟨x, vertexRate, instanceRate⟩ location component)) { ids } s
      fun verdict _ s' => verdict = .drop ∧ P (s' dest) := by
    refine .bind h ?_
    rintro o em' s' ⟨v, hv, hP⟩
    refine .bind (.op (.cons hv .nil)) fun _ _ _ hs => .pure ⟨rfl, ?_⟩
    rw [hs, Function.update_self]
    exact hP
  obtain ⟨hdrop, hP⟩ := hruns.of_fresh
  change P (w.run (((expansion x op).run { ids }).2.ops.toList ++ ((expansion x op).run { ids }).1.kept.toList) s dest)
  rwa [hexp, hdrop, show Verdict.drop.kept.toList = [] from rfl, List.append_nil]

section

variable (hw : w.Calculates) (hmemory : x.resources.emulation = some (.vertex vertexData vertexRate instanceRate))
  (hop : op.LoadsGeneric dest location component) (ids : Ids) (s : Valuation)

include hw hmemory hop

theorem run_plainAttribute (hpln : x.config.isPacked location = false) :
    w.run ((expansion x).piece ids op) s dest = if HasComponent ⟨x, vertexRate, instanceRate⟩ w location component then
        texel ⟨x, vertexRate, instanceRate⟩ w location 0
          (attributeElement ⟨x, vertexRate, instanceRate⟩ w location + UInt32.ofNat component)
      else ofNat (if component = 3 then 1 else 0) := by
  refine run_piece (P := (· = _)) hmemory hop ?_
  rw [userInput, if_neg (by simp [hpln])]
  exact runs_plainAttribute hw

/-- A component that is there comes from the texel of its vertex or instance: unpacked ones
have a texel each, packed ones share one, and signed ones are extended by their sign,
and divided exactly unless they are integers. -/
theorem run_attribute :
    let e : VertexEmulation := ⟨x, vertexRate, instanceRate⟩
    let value := w.run ((expansion x).piece ids op) s dest
    let element := e.attributeElement w location
    let low := ((e.texel w location component element).toBitVec.setWidth (if component = 3 then 2 else 10)).toInt
    (x.config.isPacked location = false → e.HasComponent w location component →
      value = e.texel w location 0 (element + UInt32.ofNat component)) ∧
    (x.config.isPacked location = true → x.config.isPackedSigned location = false →
      value = e.texel w location component element) ∧
    (x.config.isPackedSigned location = true → x.config.isSint location = true → value.toBitVec.toInt = low) ∧
    (x.config.isPackedSigned location = true → x.config.isSint location = false →
      Binary32.Denotes value (low / if component = 3 then 2 else 512)) := by
  intro e value element low
  have hpacked : x.config.isPacked location = true →
      if x.config.isPackedSigned location then
        Extends (e.texel w location component element) (if component = 3 then 2 else 10)
          (!x.config.isSint location) value
      else value = e.texel w location component element := by
    intro hpacked
    refine run_piece (P := fun v => if x.config.isPackedSigned location then Extends _ _ _ v else v = _) hmemory hop ?_
    rw [userInput, if_pos hpacked]
    exact runs_packedAttribute hw hop.component_lt
  have hsigned : x.config.isPackedSigned location = true → x.config.isPacked location = true := by
    simp only [Config.isPackedSigned, Config.isPacked, beq_iff_eq, bne_iff_ne]
    intro h
    simp [h]
  refine ⟨fun hplain hpresent => ?_, fun hp hunsigned => ?_, fun hs hsint => ?_, fun hs hfloat => ?_⟩
  · exact (run_plainAttribute hw hmemory hop ids s hplain).trans (if_pos hpresent)
  · have hvalue := hpacked hp
    rwa [if_neg (by simp [hunsigned])] at hvalue
  · have hvalue := hpacked (hsigned hs)
    rwa [if_pos hs, hsint] at hvalue
  · have hvalue := hpacked (hsigned hs)
    rw [if_pos hs, hfloat] at hvalue
    have hpow : (2 : ℚ) ^ ((if component = 3 then 2 else 10) - 1) = if component = 3 then 2 else 512 := by
      split <;> norm_num
    rw [← hpow]
    exact hvalue

/-- A component that the format lacks is zero, and the fourth is the float one whatever the
type of the attribute. -/
theorem run_missing_attribute (hplain : x.config.isPacked location = false)
    (hmissing : ¬ HasComponent ⟨x, vertexRate, instanceRate⟩ w location component) :
    w.run ((expansion x).piece ids op) s dest = if component = 3 then 0x3f800000 else 0 := by
  rw [run_plainAttribute hw hmemory hop ids s hplain, if_neg hmissing]
  split <;> rfl

end

/-! A draw of three attributes: plain, packed and plain integers. -/

def mixedAttributes : PassContext where
  config :=
    { stage := .compute, guestStage := .vertex, emulated := true
      attributeTypes := ((Vector.replicate 16 {}).set 1 { packing := .signed10And2 }).set 2 { base := .sint } }
  resources :=
    { stage := .compute, api := .vulkan, reservations := { emulated := true }, emulation := some (.vertex 0 1 2) }
  host := {}

def loadGeneric (location component : Nat) : Operation :=
  ⟨.load, .input, some (.register ⟨0⟩), [IoVariable.operand .userDefined, .word location, .word component]⟩

/-- Whatever is loaded is `word`; texels end in ten ones. -/
noncomputable def mixedWorld (word : UInt32) : World :=
  .exact fun inst _ words => if inst = .load then word else words.headD 0 * 0x400 + 0x3ff

theorem calculates_mixedWorld (word : UInt32) : (mixedWorld word).Calculates := World.calculates_exact _

theorem mixedWorld_load (word : UInt32) (storage : Storage) (words : List UInt32) :
    (mixedWorld word).result .load storage words = word := rfl

theorem mixedWorld_texel (e : VertexEmulation) (word : UInt32) (location component : Nat) (element : UInt32) :
    e.texel (mixedWorld word) location component element = element * 0x400 + 0x3ff := rfl

/-- The third component of a plain attribute is two elements on; a packed one is minus one
of 512. -/
theorem run_attribute_mixed :
    (mixedWorld 1).run ((expansion mixedAttributes).piece {} (loadGeneric 0 2)) (fun _ => 0) (.register ⟨0⟩) = 0xfff ∧
      Binary32.Denotes ((mixedWorld 1).run ((expansion mixedAttributes).piece {} (loadGeneric 1 2)) (fun _ => 0)
        (.register ⟨0⟩)) (-1 / 512) := by
  have hplain : (loadGeneric 0 2).LoadsGeneric (.register ⟨0⟩) 0 2 := ⟨rfl, rfl, rfl, rfl, rfl, by decide⟩
  have hpacked : (loadGeneric 1 2).LoadsGeneric (.register ⟨0⟩) 1 2 := ⟨rfl, rfl, rfl, rfl, rfl, by decide⟩
  have hw := calculates_mixedWorld 1
  have hmemory : mixedAttributes.resources.emulation = some (.vertex 0 1 2) := rfl
  obtain ⟨htexel, -⟩ := run_attribute hw hmemory hplain {} fun _ => 0
  obtain ⟨-, -, -, hscaled⟩ := run_attribute hw hmemory hpacked {} fun _ => 0
  simp only [mixedWorld_texel, attributeElement, attributeIndex, infoWord, mixedWorld_load] at htexel hscaled
  constructor
  · exact htexel (by decide) (.inr (by rw [infoWord, mixedWorld_load]; decide))
  · obtain ⟨hfinite, hvalue⟩ := hscaled (by decide) (by decide)
    exact ⟨hfinite, hvalue.trans (by decide +kernel)⟩

/-- The fourth component of a plain attribute that has three. -/
theorem run_missing_attribute_mixed :
    (mixedWorld 0).run ((expansion mixedAttributes).piece {} (loadGeneric 0 3)) (fun _ => 0) (.register ⟨0⟩) =
      0x3f800000 := by
  have hmissing : ¬ HasComponent ⟨mixedAttributes, 1, 2⟩ (mixedWorld 0) 0 3 := by
    rw [HasComponent, infoWord, mixedWorld_load]
    decide
  have hload : (loadGeneric 0 3).LoadsGeneric (.register ⟨0⟩) 0 3 := ⟨rfl, rfl, rfl, rfl, rfl, by decide⟩
  have hmemory : mixedAttributes.resources.emulation = some (.vertex 0 1 2) := rfl
  exact run_missing_attribute (calculates_mixedWorld 0) hmemory hload {} _ (by decide) hmissing

/-- The fourth component of integers is not the integer one. -/
theorem run_missing_integer : (mixedAttributes.config.attributeType 2).base = .sint ∧
    mixedAttributes.config.isPacked 2 = false ∧ ¬ HasComponent ⟨mixedAttributes, 1, 2⟩ (mixedWorld 0) 2 3 ∧
      (mixedWorld 0).run ((expansion mixedAttributes).piece {} (loadGeneric 2 3)) (fun _ => 0) (.register ⟨0⟩) ≠ 1 := by
  have hmissing : ¬ HasComponent ⟨mixedAttributes, 1, 2⟩ (mixedWorld 0) 2 3 := by
    rw [HasComponent, infoWord, mixedWorld_load]
    decide
  have hload : (loadGeneric 2 3).LoadsGeneric (.register ⟨0⟩) 2 3 := ⟨rfl, rfl, rfl, rfl, rfl, by decide⟩
  have hmemory : mixedAttributes.resources.emulation = some (.vertex 0 1 2) := rfl
  refine ⟨by decide, by decide, hmissing, ?_⟩
  rw [run_plainAttribute (calculates_mixedWorld 0) hmemory hload {} _ (by decide), if_neg hmissing]
  decide

end VertexEmulation
end ShaderRecompiler
