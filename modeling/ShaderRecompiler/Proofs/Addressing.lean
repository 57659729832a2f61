import ShaderRecompiler.Feedback
import ShaderRecompiler.Proofs.Attributes
import ShaderRecompiler.Proofs.Gathering

/-! One map of generic attributes, written down three times: the addresses that are resolved
when an access is lowered, the shifts and the mask that an access with an offset register
computes when it runs, and the numbers of the words that are captured. -/
namespace ShaderRecompiler

open Attribute FeedbackBuffer

/-- What an access with an offset computes of its byte, in the numbers of the address map. -/
theorem indexed_place {byte : UInt32} (hloc : location < 16) (hcomp : component < 4)
    (hbyte : byte.toNat = userBase + 16 * location + 4 * component) :
    (byte >>> 4) - 8 = .ofNat location ∧ (byte >>> 2) &&& 3 = .ofNat component := by
  unfold userBase at hbyte
  have hmask : ∀ n : Nat, n &&& 3 = n % 4 := fun n => Nat.and_two_pow_sub_one_eq_mod n 2
  have hrow : (byte >>> 4).toNat = 8 + location := by
    simp only [UInt32.toNat_shiftRight, Nat.shiftRight_eq_div_pow]
    change byte.toNat / 16 = _
    omega
  have hword : (byte >>> 2).toNat = 32 + 4 * location + component := by
    simp only [UInt32.toNat_shiftRight, Nat.shiftRight_eq_div_pow]
    change byte.toNat / 4 = _
    omega
  constructor
  · apply UInt32.toNat_inj.1
    rw [UInt32.toNat_sub_of_le _ _ (UInt32.le_iff_toNat_le.2 (hrow ▸ Nat.le_add_right ..)), hrow,
      UInt32.toNat_ofNat_of_lt' (Nat.lt_trans hloc (by decide))]
    exact Nat.add_sub_cancel_left ..
  · apply UInt32.toNat_inj.1
    rw [UInt32.toNat_and, hword, UInt32.toNat_ofNat_of_lt' (Nat.lt_trans hcomp (by decide))]
    change _ &&& 3 = _
    rw [hmask]
    omega

/-- The only word that is looked up as a generic attribute is the one of its address. -/
theorem Capture.ofUser?_eq_ofWord?_iff {location component word : Nat} (hloc : location < 16) (hcomp : component < 4) :
    (∀ buffers, ofUser? buffers location component = ofWord? buffers word) ↔
      word = (userBase + 16 * location + 4 * component) / 4 := by
  have hword : (userBase + 16 * location + 4 * component) / 4 = userBase / 4 + location * 4 + component := by
    unfold userBase
    omega
  rw [hword]
  constructor
  · intro h
    have hhole : userBase / 4 + location * 4 + component ≠ hole := by
      unfold userBase hole
      omega
    -- A buffer that captures nothing but the attribute tells the words apart.
    have hsingle := h [⟨0, [userBase / 4 + location * 4 + component]⟩]
    simp only [ofUser?, ofWord?, slot?, hhole] at hsingle
    by_contra hne
    simp [List.idxOf?_cons, Ne.symm hne] at hsingle
  · rintro rfl buffers
    rfl

open Emit in
/-- An access with an offset computes the location and component that its byte resolves to,
for any sum of address and register inside the declared part of the generic window, also
where the sum wraps around. A byte resolves to a generic attribute exactly at the place
of one of its components, whatever the stage and direction are, and its word is the one
that is captured for the component. -/
theorem indexed_resolves :
    (∀ (w : World) (c : Config) (storage : Storage) (address : Nat) (vertex : Option Register) (r : Register)
        (e : Emitter) (s : Valuation),
      let byte := (s.file r + .ofNat address).toNat
      byte % 4 = 0 → 0x80 ≤ byte → byte < 0x180 → ∃ location component,
        (∀ stage isOutput perPatch, Attribute.resolve byte stage isOutput perPatch = some (.user location component)) ∧
          let Names := fun (sources : Option (List Operand)) (_ : Emitter) (s' : Valuation) => ∃ found,
            sources = some found ∧ found.map (w.value s') = c.accessWords storage .userDefined (.ofNat location)
              (c.vertexWord storage w s.file vertex) (.ofNat component)
          Runs w (c.attributeSources storage address vertex (some r)) e s Names ∧
            Runs w (c.attributeSources storage byte vertex none) e s Names) ∧
      ∀ byte location component,
        ((∃ stage isOutput perPatch, Attribute.resolve byte stage isOutput perPatch = some (.user location component)) ↔
          byte = 0x80 + 16 * location + 4 * component ∧ location < 16 ∧ component < 4) ∧
        (byte = 0x80 + 16 * location + 4 * component ∧ location < 16 ∧ component < 4 → ∀ word,
          (∀ buffers, Capture.ofUser? buffers location component = Capture.ofWord? buffers word) ↔
            word = byte / 4) := by
  refine ⟨?_, fun byte location component => ⟨?_, ?_⟩⟩
  · intro w c storage address vertex r e s byte haligned hbase hend
    have hplace : byte = Attribute.userBase + 16 * ((byte - 0x80) / 16) + 4 * (byte / 4 % 4) ∧
        (byte - 0x80) / 16 < Attribute.userLocations ∧ byte / 4 % 4 < 4 := by
      unfold Attribute.userBase Attribute.userLocations
      omega
    have hresolve : ∀ stage isOutput perPatch, Attribute.resolve byte stage isOutput perPatch =
        some (.user ((byte - 0x80) / 16) (byte / 4 % 4)) :=
      fun _ _ _ => Attribute.resolve_eq_user_iff.2 hplace
    obtain ⟨hlocation, hcomponent⟩ := indexed_place hplace.2.1 hplace.2.2 hplace.1
    -- Both forms give operands for the words that the address selects.
    have hnames : ∀ {address offset} {words : List UInt32},
        c.attributeWords storage w address vertex offset s.file = some words →
        Runs w (c.attributeSources storage address vertex offset) e s fun sources _ s' =>
          ∃ found, sources = some found ∧ found.map (w.value s') = words := by
      intro address offset words hwords
      refine (Runs.attributeSources address vertex offset).mono fun sources e' s' hsources => ?_
      rw [hwords] at hsources
      obtain ⟨-, hsources⟩ := hsources
      cases hsources with
      | some hmeans => exact ⟨_, rfl, map_value_of_means hmeans⟩
    refine ⟨_, _, hresolve, hnames ?_, hnames ?_⟩
    · simp only [Config.attributeWords, hlocation, hcomponent]
    · simp only [Config.attributeWords, hresolve, Option.map_some, Config.targetWords]
  · constructor
    · rintro ⟨stage, isOutput, perPatch, h⟩
      exact Attribute.resolve_eq_user_iff.1 h
    · intro h
      exact ⟨.vertex, false, false, Attribute.resolve_eq_user_iff.2 h⟩
  · rintro ⟨rfl, hlocation, hcomponent⟩ word
    exact Capture.ofUser?_eq_ofWord?_iff hlocation hcomponent

/-- A register that takes the sum past the end of the word and back into the window. -/
theorem indexed_resolves_wrapping :
    let w : World := ⟨fun _ _ => 0, fun _ _ _ => 0⟩
    let s : Valuation := fun _ => 0xffffff9c
    (s.file ⟨3⟩ + .ofNat 0x100).toNat = 0x9c ∧
      Emit.Runs w (Config.attributeSources { stage := .geometry } .input 0x100 none (some ⟨3⟩)) {} s fun sources _ s' =>
        ∃ found, sources = some found ∧ found.map (w.value s') = [.ofNat IoVariable.userDefined.number, 1, 0, 3] := by
  intro w s
  have hbyte : (s.file ⟨3⟩ + .ofNat 0x100).toNat = 0x9c := by decide
  obtain ⟨location, component, hresolve, hruns, -⟩ := indexed_resolves.1 w { stage := .geometry } .input 0x100 none ⟨3⟩
    {} s (by decide) (by decide) (by decide)
  obtain ⟨rfl, rfl⟩ : 1 = location ∧ 3 = component := by
    have hfixed : Attribute.resolve 0x9c .geometry false false = some (.user 1 3) := by decide
    have hfound := hresolve .geometry false false
    rw [hbyte, hfixed] at hfound
    simpa using hfound
  exact ⟨hbyte, hruns⟩

end ShaderRecompiler
