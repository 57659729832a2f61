import ShaderRecompiler.Proofs.ReadBack

/-! Outputs that a joined program starts from. Before control comes to the second
program, the first one has stored the default to every component of the position and of
the generic outputs that either program writes. The stores to slots that the second
program reads have become assignments of variables, so those outputs stay as they
were. -/
namespace ShaderRecompiler

open List Join

universe u

variable {σ : Type u}

/-- The default of an output component. -/
def Slot.default (slot : Slot) : Operand := .constant (Binary32.ofNat (if slot.component = 3 then 1 else 0))

/-- Before step `k` a store of the default to an output was performed. -/
def Flat.HasDefined (I : Interpretation σ) (ops : List Operation) (t : σ) (k : Nat) (slot : Slot) : Prop :=
  ∃ j < k, ∃ pc op, (after I ops t j).1 = some pc ∧ ops[pc]? = some op ∧ op.isStore .output ∧
    op.slot? = some slot ∧ op.stored = slot.default

theorem IoVariable.slotAt?_position (location : Nat) (h : component < 4) :
    slotAt? .position (.word location) (.word component) = some ⟨.position, 0, component⟩ := by
  simp [slotAt?, isRecordArray, Operand.asNat?_word (Nat.lt_trans h (by decide))]

theorem IoVariable.slotAt?_user (hloc : location < Attribute.userLocations) (hcomp : component < 4) :
    slotAt? .userDefined (.word location) (.word component) = some ⟨.userDefined, location, component⟩ := by
  simp [slotAt?, Operand.asNat?_word (Nat.lt_trans hloc (by decide)),
    Operand.asNat?_word (Nat.lt_trans hcomp (by decide))]

namespace Lowering

variable {l : Lowering}

theorem exists_initialStore (hcomp : component < 4)
    (hslot : v.slotAt? (.word location) (.word component) = some ⟨v, location, component⟩) :
    ∃ op ∈ l.initialStores v location, op.isStore .output ∧ op.slot? = some ⟨v, location, component⟩ ∧
      op.stored = Slot.default ⟨v, location, component⟩ := by
  have hval : ([0, 0, 0, 1][component], component) ∈ [0, 0, 0, 1].zipIdx :=
    mk_mem_zipIdx_iff_getElem?.2 (getElem?_eq_getElem _)
  have hmem : l.initialStore v location [0, 0, 0, 1][component] component ∈ l.initialStores v location :=
    mem_map.2 ⟨_, hval, rfl⟩
  have hdefault : [0, 0, 0, 1][component] = if component = 3 then 1 else 0 := by
    obtain rfl | rfl | rfl | rfl : component = 0 ∨ component = 1 ∨ component = 2 ∨ component = 3 := by omega
    all_goals rfl
  refine ⟨_, hmem, rfl, ?_, ?_⟩
  · rw [initialStore, Config.slot?_access rfl rfl, hslot]
  · simp [initialStore, Operation.stored, Slot.default, hdefault]

end Lowering

namespace Lowered

variable {head : Lowered} {second : List Operation} {pc : Nat}

theorem join_stays (hop : head.ops[pc]? = some store) (hstore : store.inst = .store)
    (h : ∀ slot, written? store = some slot → (Bridge.ofReads second head.ids).carrier? slot = none) :
    (head.join second).1[pc]? = some store := by
  have hnone : (written? store).bind (Bridge.ofReads second head.ids).carrier? = none := by
    cases hwr : written? store with
    | none => rfl
    | some slot => exact h slot hwr
  rw [join_first hop, carryStore_of_none hnone, continueAt_of_isStraight (by rw [hstore]; rfl)]

theorem written?_ne_of_carrier (hslot : slot ∈ second.filterMap read?)
    (hpc : pc ≤ head.ops.length) (hop : (head.join second).1[pc]? = some op) : written? op ≠ some slot := by
  intro hwr
  obtain hlt | rfl := Nat.lt_or_eq_of_le hpc
  · rw [join_first (getElem?_eq_getElem hlt)] at hop
    obtain rfl := Option.some.inj hop
    unfold continueAt at hwr
    split at hwr
    · cases hwr
    obtain hsame | ⟨_, _, -, -, hcopy⟩ := carryStore_cases (.ofReads second head.ids) head.ops[pc]
    · rw [hsame] at hwr
      obtain ⟨o, ho⟩ := Option.isSome_iff_exists.1 (Bridge.isSome_carrier?.2 hslot)
      rw [carryStore_of_carrier hwr ho] at hsame
      rw [← hsame] at hwr
      cases hwr
    · rw [hcopy] at hwr
      cases hwr
  · rw [join_mark] at hop
    obtain rfl := Option.some.inj hop
    cases hwr

theorem hasDefined_of_initial {t : σ} (hini : initial <+: head.ops) (hstores : ∀ op ∈ initial, op.inst = .store)
    (hplc : (Flat.after I (head.join second).1 t k).1 = some pc) (hpc : head.ops.length ≤ pc)
    (hstore : store ∈ initial) (hslot : store.slot? = some slot) (hout : store.isStore .output)
    (hdefault : store.stored = slot.default)
    (hstays : ∀ slot, written? store = some slot → (Bridge.ofReads second head.ids).carrier? slot = none) :
    Flat.HasDefined I (head.join second).1 t k slot := by
  have hfst : ∀ (q : Nat) (hq : q < initial.length), head.ops[q]? = some initial[q] :=
    prefix_iff_getElem?.1 hini
  have hstr : ∀ q < initial.length, ∃ op, (head.join second).1[q]? = some op ∧ op.inst.isStraight := by
    intro q hq
    apply isStraight_first (hfst q hq)
    rw [hstores _ (getElem_mem hq)]
    rfl
  have hle : initial.length ≤ k := Flat.le_of_after hstr hplc (Nat.le_trans hini.length_le hpc)
  obtain ⟨q, hq, rfl⟩ := getElem_of_mem hstore
  refine ⟨q, Nat.lt_of_lt_of_le hq hle, q, initial[q], Flat.after_of_straight hstr (Nat.le_of_lt hq), ?_,
    hout, hslot, hdefault⟩
  exact join_stays (hfst q hq) (hstores _ hstore) hstays

end Lowered

namespace StageContext

variable {s first : StageContext} {emulated : Bool} {head tail : Lowered}

/-- Where control comes to the second program, every component of the position has been
given its default, and so has every component of the generic outputs of the second
program that it does not read. A component that it reads is not stored to by the
first program at all. -/
theorem join_defines_outputs (hstage : first.config.guestStage = .vertex)
    (hpass : first.config.geometryPassthrough = false) (h : LoweredTogether s first emulated head tail)
    (I : Interpretation σ) (t : σ) {k : Nat}
    (hplace : (Flat.after I (head.join tail.ops).1 t k).1 = some (head.ops.length + 1)) :
    (∀ component < 4, Flat.HasDefined I (head.join tail.ops).1 t k ⟨.position, 0, component⟩) ∧
      ∀ location ∈ Mask.below s.usage.attributes.outputs Attribute.userLocations, ∀ component < 4,
        if (location, component) ∈ tail.ops.filterMap Join.read? then
          ∀ pc ≤ head.ops.length, ∀ op, (head.join tail.ops).1[pc]? = some op →
            Join.written? op ≠ some (location, component)
        else Flat.HasDefined I (head.join tail.ops).1 t k ⟨.userDefined, location, component⟩ := by
  have hdefines : ((first.feeding s).surroundings emulated
      ((first.feeding s).beginLocalMemory tail.resources)).config.definesOutputs = true := by
    have : first.config.definesOutputs = true := by
      rw [Config.definesOutputs, hstage, hpass]
      rfl
    cases emulated <;> exact this
  have hinitial := Guest.Program.exists_initialOps (lower_ok h.head_eq) rfl hdefines
  constructor
  · intro component hcomponent
    obtain ⟨store, hstore, houtput, hslot, hdefault⟩ := Lowering.exists_initialStore hcomponent
      (IoVariable.slotAt?_position 0 hcomponent)
    apply Lowered.hasDefined_of_initial hinitial Lowering.inst_initialOps hplace (Nat.le_succ _)
      (List.mem_append_left _ hstore) hslot houtput hdefault
    intro slot hwritten
    have huser := Operation.slot?_eq_user_iff.2 (Join.written?_eq_some_iff.1 hwritten).2
    rw [hslot] at huser
    cases huser
  · intro location hlocation component hcomponent
    obtain ⟨hlt, htest⟩ := Mask.mem_below.1 hlocation
    split
    · next hread => exact fun pc hpc op hop => Lowered.written?_ne_of_carrier hread hpc hop
    · next hread =>
      obtain ⟨store, hstore, houtput, hslot, hdefault⟩ := Lowering.exists_initialStore hcomponent
        (IoVariable.slotAt?_user hlt hcomponent)
      have hfed : location ∈ Mask.below (first.feeding s).usage.attributes.outputs Attribute.userLocations := by
        refine Mask.mem_below.2 ⟨hlt, ?_⟩
        unfold Mask.test at htest ⊢
        simp [feeding, mergeOutputs, AttributeUsage.mergeOutputs, hpass, htest]
      apply Lowered.hasDefined_of_initial hinitial Lowering.inst_initialOps hplace (Nat.le_succ _)
        (List.mem_append_right _ (List.mem_flatMap.2 ⟨location, hfed, hstore⟩)) hslot houtput hdefault
      intro slot hwritten
      have huser := Operation.slot?_eq_user_iff.1 hslot
      rw [(Join.written?_eq_some_iff.1 hwritten).2] at huser
      obtain rfl := Option.some.inj huser
      exact Option.not_isSome_iff_eq_none.1 (mt Join.Bridge.isSome_carrier?.1 hread)

def exiting : StageContext := vertexStage [.exit]

/-- Loads a component of its first generic input and stores it to the same component of
its first generic output if a predicate holds. -/
def selecting : StageContext :=
  .ofProgram { blocks := [⟨0, [{ address := 0, op := .ald ⟨4⟩ 1 0x80 none none false false },
    { address := 8, guard := ⟨⟨0⟩, false⟩, op := .ast ⟨4⟩ 1 0x80 none none false }, { address := 16, op := .exit }]⟩] }
    { stage := .vertex } default {}

def selectingTail : Lowered :=
  (selecting.lower false (selecting.beginLocalMemory (selecting.resources false)) {} secondParts).toOption.get rfl

def exitingHead : Lowered :=
  ((exiting.feeding selecting).lower false ((exiting.feeding selecting).beginLocalMemory selectingTail.resources)
    selectingTail.ids firstParts).toOption.get rfl

theorem join_defines_outputs_selecting : LoweredTogether selecting exiting false exitingHead selectingTail ∧
      Flat.HasDefined zeroWorld.machine.toInterpretation (exitingHead.join selectingTail.ops).1
        (fun _ => 0, fun _ => 7) 11 ⟨.userDefined, 0, 1⟩ := by
  have htogether : LoweredTogether selecting exiting false exitingHead selectingTail := ⟨rfl, rfl⟩
  obtain ⟨-, huser⟩ := join_defines_outputs rfl rfl htogether zeroWorld.machine.toInterpretation
    (fun _ => 0, fun _ => 7) (k := 11) (by decide +kernel)
  have hdefined := huser 0 (by decide +kernel) 1 (by decide)
  rw [if_neg (by decide +kernel)] at hdefined
  exact ⟨htogether, hdefined⟩

/-- The second program names the output, yet where its store is not performed the run
ends with the output as it was before. -/
theorem selecting_leaves_undefined : 0 ∈ Mask.below selecting.usage.attributes.outputs Attribute.userLocations ∧
      (Flat.after zeroWorld.machine.toInterpretation (exitingHead.join selectingTail.ops).1
        (fun _ => 0, fun _ => 7) 20).1 = none ∧
      zeroWorld.machine.output (0, 0) (Flat.after zeroWorld.machine.toInterpretation
        (exitingHead.join selectingTail.ops).1 (fun _ => 0, fun _ => 7) 20).2 = 7 := by
  refine ⟨?_, ?_, ?_⟩ <;> decide +kernel

end StageContext
end ShaderRecompiler
