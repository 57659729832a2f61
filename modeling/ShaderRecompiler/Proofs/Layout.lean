import Mathlib.Data.List.NodupEquivFin
import ShaderRecompiler.Proofs.Device
import ShaderRecompiler.Proofs.Slots

/-! Where the words of a record are. A record holds every slot once, and where outputs are
no arrays every slot has an output cell of its own, which is the one that accesses to
the slot address. -/
namespace ShaderRecompiler

open List Attribute IoVariable Mask Nat

universe u

variable {v : IoVariable} {u : RecordUsage} {slot : Slot}

theorem ofNat_inj (hm : m < 2 ^ 32) (hn : n < 2 ^ 32) (h : UInt32.ofNat m = UInt32.ofNat n) : m = n := by
  have := congrArg UInt32.toNat h
  rwa [UInt32.toNat_ofNat_of_lt' hm, UInt32.toNat_ofNat_of_lt' hn] at this

theorem IoVariable.number_lt (v : IoVariable) : v.number < 2 ^ 32 := by
  cases v <;> decide

theorem IoVariable.number_inj {v' : IoVariable} (h : v.number = v'.number) : v = v' := by
  have := v.ofNumber?_number
  rw [h, v'.ofNumber?_number] at this
  exact (Option.some.inj this).symm

namespace Slot

/-- The output behind a slot. -/
def cell (slot : Slot) : Cell :=
  ⟨.output, [UInt32.ofNat slot.io.number] ++ (if slot.io.hasLocation then [UInt32.ofNat slot.location] else []) ++
    if slot.io.hasComponent then [UInt32.ofNat slot.component] else []⟩

/-- Location and component are words, and zero where the variable has none. -/
structure Canonical (slot : Slot) : Prop where
  location_lt : slot.location < 2 ^ 32
  component_lt : slot.component < 2 ^ 32
  location_eq : slot.io.hasLocation = false → slot.location = 0
  component_eq : slot.io.hasComponent = false → slot.component = 0

theorem cell_inj {a b : Slot} (ha : a.Canonical) (hb : b.Canonical) (h : a.cell = b.cell) : a = b := by
  obtain ⟨v, location, component⟩ := a
  obtain ⟨v', location', component'⟩ := b
  have hwords := congrArg Cell.address h
  simp only [cell, cons_append, nil_append, cons.injEq] at hwords
  obtain ⟨hnum, hwords⟩ := hwords
  obtain rfl := number_inj (ofNat_inj v.number_lt v'.number_lt hnum)
  have hloc : location = location' := by
    cases hhas : v.hasLocation with
    | false => exact (ha.location_eq hhas).trans (hb.location_eq hhas).symm
    | true =>
      simp only [hhas, if_true, cons_append, nil_append, cons.injEq] at hwords
      exact ofNat_inj ha.location_lt hb.location_lt hwords.1
  have hcomp : component = component' := by
    cases hhas : v.hasComponent with
    | false => exact (ha.component_eq hhas).trans (hb.component_eq hhas).symm
    | true =>
      simp only [hhas, hloc, if_true, append_cancel_left_eq, cons.injEq, and_true] at hwords
      exact ofNat_inj ha.component_lt hb.component_lt hwords
  rw [hloc, hcomp]

theorem mem_row {location count : Nat} :
    slot ∈ row v location count ↔ slot.io = v ∧ slot.location = location ∧ slot.component < count := by
  obtain ⟨io, l, k⟩ := slot
  simp only [row, mem_map, mem_range, Slot.mk.injEq]
  constructor
  · rintro ⟨component, hlt, rfl, rfl, rfl⟩
    exact ⟨rfl, rfl, hlt⟩
  · rintro ⟨rfl, rfl, hlt⟩
    exact ⟨k, hlt, rfl, rfl, rfl⟩

theorem nodup_row (v : IoVariable) (location count : Nat) : (row v location count).Nodup := by
  apply Nodup.map ?_ nodup_range
  intro a b h
  exact congrArg Slot.component h

end Slot

theorem Mask.lt_width_iff {mask : UInt32} {n : Nat} : n < width mask ↔ ∃ m, n ≤ m ∧ test mask m := by
  unfold width
  constructor
  · intro h
    split at h
    · exact absurd h (not_lt_zero n)
    · next hne =>
      have hpos : mask.toNat ≠ 0 := fun h => hne (UInt32.toNat_inj.1 h)
      exact ⟨_, le_of_lt_succ h, testBit_log2 hpos⟩
  · rintro ⟨m, hle, h⟩
    have hpow : 2 ^ m ≤ mask.toNat := Nat.ge_two_pow_of_testBit h
    have hpos : mask.toNat ≠ 0 := Nat.ne_of_gt (Nat.lt_of_lt_of_le (Nat.two_pow_pos m) hpow)
    rw [if_neg]
    · have := (le_log2 hpos).2 hpow
      omega
    · rintro rfl
      exact hpos rfl

theorem Mask.lt_of_test (h : test mask n) : n < 32 :=
  (Nat.pow_lt_pow_iff_right (by decide)).1 (Nat.lt_of_le_of_lt (Nat.ge_two_pow_of_testBit h) mask.toNat_lt)

theorem Mask.width_le (mask : UInt32) : width mask ≤ 32 := by
  by_contra hgt
  obtain ⟨m, hle, h⟩ := lt_width_iff.1 (Nat.lt_of_not_le hgt)
  exact absurd (lt_of_test h) (not_lt.2 hle)

namespace RecordUsage

/-- The values that a record has a word for: the position, the built-ins in use, the clip
distances up to the highest one written, and the components of each location in use. -/
inductive Holds (u : RecordUsage) : Slot → Prop
  | position {component : Nat} (hcomponent : component < 4) : u.Holds ⟨.position, 0, component⟩
  | layer (h : u.layer) : u.Holds ⟨.layer, 0, 0⟩
  | viewportIndex (h : u.viewportIndex) : u.Holds ⟨.viewportIndex, 0, 0⟩
  | pointSize (h : u.pointSize) : u.Holds ⟨.pointSize, 0, 0⟩
  | clipDistance {component n : Nat} (h : test u.clipDistances n) (hle : component ≤ n) :
    u.Holds ⟨.clipDistance, 0, component⟩
  | user {location component : Nat} (h : test u.locations location)
    (hlocation : location < userLocations) (hcomponent : component < 4) :
    u.Holds ⟨.userDefined, location, component⟩

theorem mem_slots : slot ∈ u.slots ↔ u.Holds slot := by
  simp only [slots, mem_append, Slot.mem_row, mem_ite_nil_right, mem_singleton, mem_flatMap,
    or_assoc, lt_width_iff, mem_below]
  constructor
  · obtain ⟨v, l, k⟩ := slot
    rintro (⟨rfl, rfl, h⟩ | ⟨h, ⟨⟩⟩ | ⟨h, ⟨⟩⟩ | ⟨h, ⟨⟩⟩ | ⟨rfl, rfl, n, hle, h⟩ | ⟨_, ⟨hloc, h⟩, rfl, rfl, hk⟩)
    · exact .position h
    · exact .layer h
    · exact .viewportIndex h
    · exact .pointSize h
    · exact .clipDistance h hle
    · exact .user h hloc hk
  · intro h
    cases h with
    | position h => exact .inl ⟨rfl, rfl, h⟩
    | layer h => exact .inr (.inl ⟨h, rfl⟩)
    | viewportIndex h => exact .inr (.inr (.inl ⟨h, rfl⟩))
    | pointSize h => exact .inr (.inr (.inr (.inl ⟨h, rfl⟩)))
    | clipDistance h hle => exact .inr (.inr (.inr (.inr (.inl ⟨rfl, rfl, _, hle, h⟩))))
    | user h hloc hk =>
      exact .inr (.inr (.inr (.inr (.inr ⟨_, ⟨hloc, h⟩, rfl, rfl, hk⟩))))

theorem isRecorded_of_mem (h : slot ∈ u.slots) : slot.io.isRecorded := by
  cases mem_slots.1 h <;> rfl

theorem canonical_of_mem (h : slot ∈ u.slots) : slot.Canonical := by
  have hword : ∀ {n : Nat}, n < 32 → n < 2 ^ 32 := fun h => lt_trans h (by decide)
  have hzero : 0 < 2 ^ 32 := by decide
  cases mem_slots.1 h with
  | position hcomp =>
    exact ⟨hzero, hword (lt_trans hcomp (by decide)), fun _ => rfl, by simp [hasComponent]⟩
  | layer | viewportIndex | pointSize => exact ⟨hzero, hzero, fun _ => rfl, fun _ => rfl⟩
  | clipDistance htest hle =>
    exact ⟨hzero, hword (lt_of_le_of_lt hle (lt_of_test htest)), fun _ => rfl, by simp [hasComponent]⟩
  | user htest _ hcomp =>
    exact ⟨hword (lt_of_test htest), hword (lt_trans hcomp (by decide)), by simp [hasLocation], by simp [hasComponent]⟩

theorem slotAt?_of_mem (h : slot ∈ u.slots) :
    slot.io.slotAt? (.word slot.location) (.word slot.component) = some slot := by
  have hcan := canonical_of_mem h
  have hloc := Operand.asNat?_word hcan.location_lt
  have hcomp := Operand.asNat?_word hcan.component_lt
  cases mem_slots.1 h <;> simp_all [slotAt?, isRecordArray]

theorem nodup_slots (u : RecordUsage) : u.slots.Nodup := by
  have hone : ∀ (p : Bool) (slot : Slot), (if p then [slot] else []).Nodup := by
    intro p slot
    cases p <;> simp
  have huser : ((below u.locations userLocations).flatMap fun location =>
      Slot.row .userDefined location 4).Nodup := by
    refine nodup_flatMap.2 ⟨fun location _ => Slot.nodup_row _ _ _, ?_⟩
    refine (nodup_range.filter _).imp ?_
    intro a b hne slot ha hb
    exact hne ((Slot.mem_row.1 ha).2.1.symm.trans (Slot.mem_row.1 hb).2.1)
  unfold slots
  simp only [nodup_append, hone, huser, Slot.nodup_row, true_and, mem_append, Slot.mem_row,
    mem_ite_nil_right, mem_singleton, mem_flatMap]
  -- Words of different parts differ in their variable.
  refine ⟨⟨⟨⟨?_, ?_⟩, ?_⟩, ?_⟩, ?_⟩ <;> grind

theorem length_slots_lt (u : RecordUsage) : u.slots.length < 2 ^ 32 := by
  have hone : ∀ (p : Bool) (slot : Slot), (if p then [slot] else []).length ≤ 1 := by
    intro p slot
    cases p <;> simp
  have hlay := hone u.layer ⟨.layer, 0, 0⟩
  have hviewport := hone u.viewportIndex ⟨.viewportIndex, 0, 0⟩
  have hpoint := hone u.pointSize ⟨.pointSize, 0, 0⟩
  have hclip := width_le u.clipDistances
  have hlocs : (below u.locations userLocations).length ≤ 16 :=
    le_trans (length_filter_le _ _) (by simp [userLocations])
  have huser : ((below u.locations userLocations).flatMap fun location =>
      Slot.row .userDefined location 4).length = (below u.locations userLocations).length * 4 := by
    simp [length_flatMap, Slot.row, mul_comm]
  simp only [slots, length_append, huser]
  simp only [Slot.row, length_map, length_range]
  omega

end RecordUsage

theorem idxOf?_eq_some_iff {record : List Slot} (hnd : record.Nodup) :
    record.idxOf? slot = some offset ↔ record[offset]? = some slot := by
  rw [List.idxOf?_eq_some_iff]
  constructor
  · rintro ⟨hlt, heq, -⟩
    exact List.getElem?_eq_some_iff.2 ⟨hlt, heq⟩
  · intro h
    obtain ⟨hlt, heq⟩ := List.getElem?_eq_some_iff.1 h
    refine ⟨hlt, heq, fun _ _ => ?_⟩
    intro hsame
    have := hnd.getElem_inj_iff.1 (hsame.trans heq.symm)
    omega

namespace Reservations

/-- In `storage`, `r` gives the values that `u` holds the words below `size`, one to each,
and no other value has a word. The list of offsets has these values and goes through
them word by word. -/
structure LaysOut (r : Reservations) (storage : Storage) (u : RecordUsage) (size : Nat) : Prop where
  places : ∃ place : {slot : Slot // u.Holds slot} ≃ Fin size, ∀ slot,
    r.offset? storage slot.val.io slot.val.location slot.val.component = some (place slot).val
  absent : ∀ v location component, ¬u.Holds ⟨v, location, component⟩ → r.offset? storage v location component = none
  listed : ∀ slot offset, (storage, slot, offset) ∈ r.offsets ↔
    r.offset? storage slot.io slot.location slot.component = some offset
  ordered : (r.offsets.filter (·.1 = storage)).map (·.2.2) = range size

theorem laysOut {r : Reservations} (hrec : r.record storage = u.slots)
    (hstor : storage = .input ∨ storage = .output) : r.LaysOut storage u u.slots.length where
  places := by
    have hnd := u.nodup_slots
    refine ⟨(Equiv.subtypeEquivRight fun _ => RecordUsage.mem_slots.symm).trans (hnd.getEquiv u.slots).symm, ?_⟩
    intro slot
    unfold offset?
    rw [hrec, idxOf?_eq_some_iff hnd]
    have hmem : slot.val ∈ u.slots := RecordUsage.mem_slots.2 slot.property
    exact List.getElem?_eq_some_iff.2 ⟨List.idxOf_lt_length_iff.2 hmem, List.getElem_idxOf _⟩
  absent v location component h := by
    unfold offset?
    rw [hrec, idxOf?_eq_none_iff, RecordUsage.mem_slots]
    exact h
  listed slot offset := by
    unfold offset?
    rw [hrec, idxOf?_eq_some_iff u.nodup_slots, ← hrec]
    obtain rfl | rfl := hstor <;> simp [offsets, mem_zipIdx_iff_getElem?]
  ordered := by
    have hkind : ∀ kind, (((r.record kind).zipIdx.map (Prod.mk kind)).filter (·.1 = storage)).map (·.2.2) =
        if kind = storage then range (r.record kind).length else [] := by
      intro kind
      rw [filter_map, map_map]
      split
      · next heq =>
        rw [filter_eq_self.2 (by simp [heq]), range_eq_range', ← zipIdx_map_snd]
        rfl
      · next hne => rw [filter_eq_nil_iff.2 (by simp [hne]), map_nil]
    have hoffsets : r.offsets = (r.record .input).zipIdx.map (Prod.mk .input) ++
        (r.record .output).zipIdx.map (Prod.mk .output) := by
      simp [offsets]
    rw [hoffsets, filter_append, map_append, hkind, hkind]
    obtain rfl | rfl := hstor <;> simp [hrec]

/-- The layout of a record is dense and exact: the input record has one word for each value
that its usage holds and the output record for each that its own holds, each record has
the size that is reported for it, and neither depends on the other's usage or on whether
captures are emulated. -/
theorem ofUsage_laysOut (emulatesFeedback : Bool) (input output : RecordUsage) :
    let r := ofUsage emulatesFeedback true (some input) (some output)
    r.LaysOut .input input r.inputSize ∧ r.LaysOut .output output r.outputSize ∧
      (∀ storage ∉ [Storage.input, .output], ∀ v location component, r.offset? storage v location component = none) ∧
      ∀ (emulatesFeedback' : Bool) (other : RecordUsage),
        let before := ofUsage emulatesFeedback' true (some input) (some other)
        let behind := ofUsage emulatesFeedback' true (some other) (some output)
        (before.inputSize = r.inputSize ∧ before.offset? .input = r.offset? .input) ∧
          behind.outputSize = r.outputSize ∧ behind.offset? .output = r.offset? .output := by
  refine ⟨laysOut rfl (.inl rfl), laysOut rfl (.inr rfl), ?_, fun _ _ => ⟨⟨rfl, rfl⟩, rfl, rfl⟩⟩
  intro storage hstorage v location component
  cases storage <;> first | rfl | simp at hstorage

end Reservations

namespace Device

variable {σ : Type u} {w : World} {owns : Cell → Prop} (M : Device σ w owns)

/-- Where outputs are no arrays, an access at fixed places addresses the cell of its
slot. -/
theorem means_access {c : Config} (hc : c.guestStage.hasArrayedOutputs = false) (v : IoVariable)
    (location component : Nat) (vertex : Operand) (e : Emitter) (s : σ) :
    Forall₂ (M.Means e s) (c.accessSources .output v (.word location) vertex (.word component))
      (Slot.cell ⟨v, location, component⟩).address := by
  have hvtx : c.hasVertexIndex .output v = false := by
    unfold Config.hasVertexIndex
    simp [hc]
  unfold Config.accessSources Slot.cell
  rw [hvtx, if_neg Bool.false_ne_true, append_nil]
  refine rel_append (rel_append (.cons (M.means_word ..) .nil) ?_) ?_
  · split
    · exact .cons (M.means_word ..) .nil
    · exact .nil
  · split
    · exact .cons (M.means_word ..) .nil
    · exact .nil

end Device
end ShaderRecompiler
