import ShaderRecompiler.Compile.Join
import ShaderRecompiler.Proofs.Confinement

/-! The words of a stage interface. An access at a fixed place names one slot, and the
word of a record that stands for an access is the place of this slot in the record. -/
namespace ShaderRecompiler

open Operation IoVariable Option

variable {op : Operation} {storage : Storage}

/-- The slot of a variable at operands, of which it has a location and a component, a
component, or neither. Computed operands name none. -/
def IoVariable.slotAt? (v : IoVariable) (location component : Operand) : Option Slot :=
  if v = .userDefined then location.asNat?.bind fun l => component.asNat?.map fun k => ⟨v, l, k⟩
  else if v.isRecordArray then component.asNat?.map fun k => ⟨v, 0, k⟩
  else some ⟨v, 0, 0⟩

variable {v : IoVariable}

theorem IoVariable.io_of_slotAt? (h : v.slotAt? location component = some slot) : slot.io = v := by
  unfold slotAt? at h
  split at h
  · next huser =>
    obtain ⟨l, -, h⟩ := bind_eq_some_iff.1 h
    obtain ⟨k, -, rfl⟩ := map_eq_some_iff.1 h
    rfl
  · split at h
    · obtain ⟨k, -, rfl⟩ := map_eq_some_iff.1 h
      rfl
    · obtain rfl := Option.some.inj h
      rfl

namespace Operation

def sourceD (op : Operation) (index : Nat) : Operand := (op.source? index).getD .undefined

def slot? (op : Operation) : Option Slot :=
  op.ioVariable?.bind fun v => op.componentIndex?.bind fun last => v.slotAt? (op.sourceD 1) (op.sourceD last)

theorem place?_eq (op : Operation) (index : Nat) : op.place? index = (op.sourceD index).asNat? := by
  unfold place? sourceD
  cases op.source? index <;> rfl

theorem recordOffset?_eq (op : Operation) (r : Reservations) (storage : Storage) :
    op.recordOffset? r storage = op.slot?.bind (r.record storage).idxOf? := by
  unfold recordOffset? slot?
  cases op.ioVariable? with
  | none => rfl
  | some v =>
    cases op.componentIndex? with
    | none => rfl
    | some last =>
      simp only [bind_eq_bind, bind_some, slotAt?, place?_eq, Reservations.userOffset?, Reservations.offset?]
      generalize (op.sourceD 1).asNat? = location
      generalize (op.sourceD last).asNat? = component
      by_cases huser : v = .userDefined
      · cases location <;> cases component <;> simp [huser]
      · by_cases harr : v.isRecordArray <;> cases component <;> simp [huser, harr]

theorem recordOffset?_eq_none (hv : op.ioVariable? = some v)
    (hnone : v.isRecorded = false) (hrec : ∀ slot ∈ r.record storage, slot.io.isRecorded) :
    op.recordOffset? r storage = none := by
  rw [recordOffset?_eq, bind_eq_none_iff]
  intro slot hslot
  refine List.idxOf?_eq_none_iff.2 fun hmem => ?_
  rw [slot?, hv, bind_some] at hslot
  obtain ⟨last, -, hslot⟩ := bind_eq_some_iff.1 hslot
  have := hrec slot hmem
  rw [io_of_slotAt? hslot, hnone] at this
  cases this

theorem slot?_eq_user_iff :
    op.slot? = some ⟨.userDefined, location, component⟩ ↔ op.userSlot? = some (location, component) := by
  unfold slot? userSlot?
  cases op.ioVariable? with
  | none => simp
  | some v =>
    cases op.componentIndex? with
    | none => simp
    | some last =>
      simp only [bind_eq_bind, bind_some, slotAt?, place?_eq]
      generalize (op.sourceD 1).asNat? = l
      generalize (op.sourceD last).asNat? = k
      by_cases huser : v = .userDefined
      · cases l <;> cases k <;> simp [huser]
      · by_cases harr : v.isRecordArray <;> cases k <;> simp [huser, harr]

end Operation

/-- An access names the slot of its variable, location and component; a store has its
value behind them. -/
theorem Config.slot?_access {c : Config}
    {inst : Instruction} {dest : Option Operand} {trailing : List Operand} (hio : storage.isIo)
    (htrailing : trailing.length = if inst == .store then 1 else 0) :
    slot? ⟨inst, storage, dest, c.accessSources storage v location vertex component ++ trailing⟩ =
      v.slotAt? location component := by
  have hvar : ioVariable?
      ⟨inst, storage, dest, c.accessSources storage v location vertex component ++ trailing⟩ = some v :=
    ioVariable?_cons hio rfl
  have hlen : trailing.length + 1 ≤ (c.accessSources storage v location vertex component ++ trailing).length := by
    simp only [accessSources, List.length_append, List.length_singleton]
    omega
  have hidx : componentIndex? ⟨inst, storage, dest, c.accessSources storage v location vertex component ++ trailing⟩ =
      some ((c.accessSources storage v location vertex component).length - 1) := by
    simp only [componentIndex?]
    rw [if_pos (by split <;> simp_all), List.length_append]
    congr 1
    split <;> simp_all
  rw [slot?, hvar, bind_some, hidx, bind_some]
  by_cases huser : v = .userDefined
  · subst huser
    cases hvtx : c.hasVertexIndex storage .userDefined <;>
      simp [accessSources, hvtx, hasLocation, hasComponent, sourceD, source?]
  by_cases harr : v.isRecordArray
  · have hcomp : v.hasComponent ∧ v.hasLocation = false := by
      cases v <;> simp_all [isRecordArray, hasComponent, hasLocation]
    cases hvtx : c.hasVertexIndex storage v <;>
      simp [slotAt?, huser, harr, accessSources, hvtx, hcomp, sourceD, source?]
  · simp [slotAt?, huser, harr]

theorem Operation.AccessAt.slot?_eq (h : op.AccessAt c v location vertex component) (hio : op.storage.isIo) :
    op.slot? = v.slotAt? location component := by
  obtain ⟨trailing, hlen, hsrc⟩ := h.sources
  obtain ⟨inst, storage, dest, sources⟩ := op
  dsimp only at hsrc
  subst hsrc
  exact Config.slot?_access hio hlen

end ShaderRecompiler
