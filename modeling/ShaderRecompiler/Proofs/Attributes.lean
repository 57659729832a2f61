import Mathlib.Data.Nat.Bitwise
import ShaderRecompiler.Guest.Program
import ShaderRecompiler.Lowering.Instruction

/-! Attribute addresses, and what the scan of a program finds: the usage that it returns
holds the findings of the instructions and nothing else. -/
namespace ShaderRecompiler

open List Attribute IoVariable Lowering Mask

namespace Attribute

theorem resolve_eq_user_iff : resolve address stage isOutput perPatch = some (.user location component) ↔
    address = userBase + 16 * location + 4 * component ∧ location < userLocations ∧ component < 4 := by
  unfold resolve isUser userBase userEnd userLocations
  simp only [decide_eq_true_eq]
  split
  · simp only [reduceCtorEq, false_iff]
    omega
  · split
    · simp only [Option.ite_none_right_eq_some, Option.some.injEq, Target.user.injEq]
      omega
    · simp only [Option.map_eq_some_iff, reduceCtorEq, and_false, exists_false, false_iff]
      omega

theorem resolve_user (h : resolve address stage isOutput perPatch = some (.user location component)) :
    location < userLocations ∧ component < 4 :=
  (resolve_eq_user_iff.1 h).2

theorem resolve_user_congr (h : resolve address stage isOutput perPatch = some (.user location component)) :
    resolve address stage' isOutput' perPatch' = some (.user location component) :=
  resolve_eq_user_iff.2 (resolve_eq_user_iff.1 h)

theorem patchBuiltin?_spec (h : patchBuiltin? address = some (v, component)) :
    (v = .tessellationLevelOuter ∨ v = .tessellationLevelInner) ∧ component.getD 0 < clipDistances := by
  unfold patchBuiltin? at h
  split at h
  · cases h
    exact ⟨.inl rfl, lt_trans (Nat.mod_lt _ (by decide)) (by decide)⟩
  · split at h
    · cases h
      exact ⟨.inr rfl, lt_trans (Nat.mod_lt _ (by decide)) (by decide)⟩
    · cases h

theorem forall_mem_ite {α : Type} {P : α → Prop} [Decidable c] {a b : Option α}
    (ha : c → ∀ x ∈ a, P x) (hb : ∀ x ∈ b, P x) : ∀ x ∈ if c then a else b, P x := by
  split
  · next h => exact ha h
  · exact hb

/-- The coordinate of a fragment comes with its component; a position has four of them and
no built-in more than there are clip distances. -/
theorem builtin?_spec {component : Option Nat} (h : builtin? address stage isOutput = some (v, component)) :
    v.hasLocation = false ∧ (v = .fragmentCoord → component.isSome) ∧ (v = .position → component.getD 0 < 4) ∧
      (v = .layer ∨ v = .viewportIndex ∨ v = .pointSize → component = none) ∧ component.getD 0 < clipDistances := by
  suffices hall : ∀ found ∈ builtin? address stage isOutput, found.1.hasLocation = false ∧
      (found.1 = .fragmentCoord → found.2.isSome) ∧ (found.1 = .position → found.2.getD 0 < 4) ∧
      (found.1 = .layer ∨ found.1 = .viewportIndex ∨ found.1 = .pointSize → found.2 = none) ∧
      found.2.getD 0 < clipDistances from hall _ h
  unfold builtin? clipDistances
  repeat' apply forall_mem_ite
  all_goals first | rintro hrange _ ⟨⟩ | rintro _ ⟨⟩
  all_goals dsimp only
  -- Only the position depends on the stage.
  any_goals split
  all_goals simp [hasLocation]
  all_goals omega

theorem exists_builtin (h : resolve address stage isOutput perPatch = some (.builtin v component)) :
    (if perPatch then patchBuiltin? address else builtin? address stage isOutput) = some (v, component) := by
  unfold resolve at h
  split at h
  · cases h
  split at h
  · dsimp only at h
    split at h <;> cases h
  · obtain ⟨_, hfound, h⟩ := Option.map_eq_some_iff.1 h
    obtain ⟨rfl, rfl⟩ := Target.builtin.inj h
    exact hfound

section

variable (h : resolve address stage isOutput perPatch = some (.builtin v component))
include h

theorem resolve_builtin : v.hasLocation = false := by
  have hfound := exists_builtin h
  split at hfound
  · obtain rfl | rfl := (patchBuiltin?_spec hfound).1 <;> rfl
  · exact (builtin?_spec hfound).1

theorem resolve_component : component.getD 0 < clipDistances := by
  have hfound := exists_builtin h
  split at hfound
  · exact (patchBuiltin?_spec hfound).2
  · exact (builtin?_spec hfound).2.2.2.2

end

end Attribute

/-! Findings. -/

/-- Something that a scan can find in a program. A component that is not constant has no
bit in the usage, so such a finding is never recorded. -/
inductive Guest.Finding where
  | input (location : Nat)
  | component (location : Nat) (component : Option Nat)
  | output (location : Nat)
  | patchInput (location : Nat)
  | patchOutput (location : Nat)
  | indexedInput
  | indexedOutput
  | layer
  | viewportIndex
  | pointSize
  | clipDistance (n : Option Nat)
  | instanceId
  | fragCoordXY
  | localMemory
  | sharedMemory
deriving DecidableEq, Repr

open Guest (Finding)

/-- The finding is recorded. -/
def Guest.Usage.holds (u : Guest.Usage) : Finding → Bool
  | .input location => test u.attributes.inputs location
  | .component location component => component.any (u.attributes.inputComponents location).testBit
  | .output location => test u.attributes.outputs location
  | .patchInput location => u.attributes.patchInputs.contains location
  | .patchOutput location => u.attributes.patchOutputs.contains location
  | .indexedInput => u.features.inputIndexing
  | .indexedOutput => u.features.outputIndexing
  | .layer => u.features.layer
  | .viewportIndex => u.features.viewportIndex
  | .pointSize => u.features.pointSize
  | .clipDistance n => n.any (test u.clipDistances)
  | .instanceId => u.features.instanceId
  | .fragCoordXY => u.features.fragCoordXY
  | .localMemory => u.features.localMemory
  | .sharedMemory => u.features.sharedMemory

/-- What an access to the variable has to be found as, given its location and component
where they are constant. -/
def IoVariable.findings (v : IoVariable) (storage : Storage) (location component : Option Nat) : List Finding :=
  match v with
  | userDefined =>
    match location, storage with
    | some l, .input => [.input l, .component l component]
    | some l, .output => [.output l]
    | some l, .inputPerPatch => [.patchInput l]
    | some l, .outputPerPatch => [.patchOutput l]
    | some _, _ => []
    | none, _ => if storage.isOutput then [.indexedOutput] else [.indexedInput]
  | layer => if storage = .output then [.layer] else []
  | viewportIndex => if storage = .output then [.viewportIndex] else []
  | pointSize => if storage = .output then [.pointSize] else []
  | clipDistance => if storage = .output then [.clipDistance component] else []
  | instanceId => if storage = .input then [.instanceId] else []
  | fragmentCoord => if storage = .input ∧ component.all (· < 2) then [.fragCoordXY] else []
  | _ => []

/-- What an access to the target has to be found as. -/
def Attribute.Target.findings (storage : Storage) : Attribute.Target → List Finding
  | .user location component => IoVariable.findings .userDefined storage (some location) (some component)
  | .builtin v component => v.findings storage (some 0) (some (component.getD 0))

theorem Mask.test_insert (mask : UInt32) (h : n < 32) (k : Nat) :
    test (insert mask n) k = (test mask k || decide (k = n)) := by
  have hsingle : (single n).toNat = 2 ^ n := by
    rw [single, Nat.one_shiftLeft]
    exact UInt32.toNat_ofNat_of_lt' (Nat.pow_lt_pow_right (by decide) h)
  simp [test, insert, hsingle, Nat.testBit_two_pow, decide_eq_decide.2 eq_comm]

theorem AttributeUsage.testBit_inputComponents (u : AttributeUsage) (location component : Nat) :
    (u.inputComponents location).testBit component =
      (decide (component < 4) && u.components.testBit (location * 4 + component)) := by
  rw [inputComponents, show 16 = 2 ^ 4 from rfl, Nat.testBit_mod_two_pow, Nat.testBit_shiftRight]

namespace Guest

/-- What the words at an address have to be found as. -/
def addressFindings (stage : Stage) (storage : Storage) (address : Nat) : List Finding :=
  (resolve address stage storage.isOutput storage.isPerPatch).elim [] (Attribute.Target.findings storage)

theorem addressFindings_eq (h : resolve address stage storage.isOutput storage.isPerPatch = some target) :
    addressFindings stage storage address = target.findings storage := by
  rw [addressFindings, h]
  rfl

theorem addressFindings_attributeStorage (stage : Stage) (output perPatch : Bool) (address : Nat) :
    addressFindings stage (attributeStorage output perPatch) address = (resolve address stage output perPatch).elim []
        (Attribute.Target.findings (attributeStorage output perPatch)) := by
  cases output <;> cases perPatch <;> rfl

def Space.findings : Space → List Finding
  | localMemory => [.localMemory]
  | sharedMemory => [.sharedMemory]
  | global _ => []

/-- What the scan finds at an instruction. The base of an index is looked at too. -/
def Op.scanned (stage : Stage) : Op → List Finding
  | ald _ count address _ offset perPatch output =>
    let storage := attributeStorage output perPatch
    (if offset.isSome then findings .userDefined storage none none else []) ++
      (Usage.words address count).flatMap (addressFindings stage storage)
  | ast _ count address _ offset perPatch =>
    let storage := attributeStorage true perPatch
    (if offset.isSome then findings .userDefined storage none none else []) ++
      (Usage.words address count).flatMap (addressFindings stage storage)
  | ipa _ address offset =>
    (if offset.isSome then findings .userDefined .input none none else []) ++ addressFindings stage .input address
  | ld _ _ space _ _ | st _ _ space _ _ => space.findings
  | _ => []

namespace Usage

def Extends (u u' : Usage) (added : List Finding) : Prop := ∀ f, u'.holds f ↔ u.holds f ∨ f ∈ added

namespace Extends

variable {u : Usage}

theorem refl (u : Usage) : u.Extends u [] := by simp [Extends]

theorem trans (h : u.Extends u' added) (h' : u'.Extends u'' added') : u.Extends u'' (added ++ added') := by
  intro f
  rw [h' f, h f, mem_append, or_assoc]

theorem foldl {α : Type} {step : Usage → α → Usage} {g : α → List Finding} {xs : List α}
    (h : ∀ u, ∀ x ∈ xs, Extends u (step u x) (g x)) (u : Usage) : u.Extends (xs.foldl step u) (xs.flatMap g) := by
  induction xs generalizing u with
  | nil => exact .refl u
  | cons x xs ih => exact (h u x mem_cons_self).trans (ih (fun u y hy => h u y (mem_cons_of_mem _ hy)) _)

end Extends

theorem extends_readInput (u : Usage) (hl : location < userLocations) (hk : component < 4) :
    u.Extends { u with attributes := u.attributes.readInput location component }
      [.input location, .component location (some component)] := by
  have hword : location < 32 := lt_trans hl (by decide)
  intro f
  rw [AttributeUsage.readInput, if_pos hl]
  cases f with
  | input l => simp [holds, test_insert _ hword]
  | component l k =>
    cases k with
    | none => simp [holds]
    | some k =>
    simp only [holds, Option.any_some, AttributeUsage.testBit_inputComponents, Nat.testBit_or, Nat.one_shiftLeft,
      Nat.testBit_two_pow, Nat.mod_eq_of_lt hk]
    have hplc : k < 4 ∧ location * 4 + component = l * 4 + k ↔ l = location ∧ k = component := by omega
    simp only [Bool.and_or_distrib_left, Bool.or_eq_true, Bool.and_eq_true, decide_eq_true_eq, hplc]
    simp
  | _ => simp [holds]

theorem extends_recordInput (u : Usage) (stage : Stage) (perPatch : Bool) (address : Nat) :
    u.Extends (u.recordInput stage perPatch address)
      (addressFindings stage (Lowering.attributeStorage false perPatch) address) := by
  rw [addressFindings_attributeStorage, recordInput]
  cases htgt : Attribute.resolve address stage false perPatch with
  | none => exact .refl u
  | some target =>
    cases target with
    | user location component =>
      obtain ⟨hl, hk⟩ := Attribute.resolve_user htgt
      cases perPatch with
      | false => exact extends_readInput u hl hk
      | true =>
        intro f
        cases f <;> simp [holds, AttributeUsage.readPatchInput, Ascending.mem_insert, Attribute.Target.findings,
          IoVariable.findings, Lowering.attributeStorage, AttributeUsage.inputComponents, or_comm]
    | builtin v component =>
      cases perPatch with
      | true =>
        obtain rfl | rfl := (Attribute.patchBuiltin?_spec (Attribute.exists_builtin htgt)).1 <;> exact .refl u
      | false =>
        cases v with
        | instanceId =>
          intro f
          cases f <;> simp [holds, Attribute.Target.findings, IoVariable.findings, Lowering.attributeStorage]
        | fragmentCoord =>
          obtain ⟨k, rfl⟩ := Option.isSome_iff_exists.1
            ((Attribute.builtin?_spec (Attribute.exists_builtin htgt)).2.1 rfl)
          have hfinds : Attribute.Target.findings .input (.builtin .fragmentCoord (some k)) =
              if k < 2 then [.fragCoordXY] else [] := by
            simp only [Attribute.Target.findings, IoVariable.findings, Option.all_some, decide_eq_true_eq, true_and,
              Option.getD_some]
          simp only [Lowering.attributeStorage, Option.elim_some, hfinds]
          by_cases hk : k < 2
          · intro f
            rw [if_pos hk, if_pos hk]
            cases f <;> simp [holds]
          · rw [if_neg hk, if_neg hk]
            exact .refl u
        | userDefined => cases Attribute.resolve_builtin htgt
        | _ => exact .refl u

theorem extends_recordOutput (u : Usage) (stage : Stage) (perPatch : Bool) (address : Nat) :
    u.Extends (u.recordOutput stage perPatch address)
      (addressFindings stage (Lowering.attributeStorage true perPatch) address) := by
  rw [addressFindings_attributeStorage, recordOutput]
  cases htgt : Attribute.resolve address stage true perPatch with
  | none => exact .refl u
  | some target =>
    cases target with
    | user location component =>
      have hl := (Attribute.resolve_user htgt).1
      have hword : location < 32 := Nat.lt_trans hl (by decide)
      intro f
      cases perPatch <;> cases f <;> simp [holds, AttributeUsage.writeOutput, AttributeUsage.writePatchOutput, hl,
        Mask.test_insert _ hword, Ascending.mem_insert, Attribute.Target.findings, IoVariable.findings,
        Lowering.attributeStorage, AttributeUsage.inputComponents, or_comm]
    | builtin v component =>
      cases perPatch with
      | true => obtain rfl | rfl := (Attribute.patchBuiltin?_spec (Attribute.exists_builtin htgt)).1 <;> exact .refl u
      | false =>
        cases v with
        | layer | viewportIndex | pointSize =>
          intro f
          cases f <;> simp [holds, Attribute.Target.findings, IoVariable.findings, Lowering.attributeStorage]
        | clipDistance =>
          have hword : component.getD 0 < 32 := Nat.lt_trans (Attribute.resolve_component htgt) (by decide)
          intro f
          cases f with
          | clipDistance n =>
            cases n <;> simp [holds, Attribute.Target.findings, IoVariable.findings, Lowering.attributeStorage,
              Mask.test_insert _ hword]
          | _ => simp [holds, Attribute.Target.findings, IoVariable.findings, Lowering.attributeStorage]
        | userDefined => cases Attribute.resolve_builtin htgt
        | _ => exact .refl u

theorem extends_record (u : Usage) (stage : Stage) (op : Op) : u.Extends (record stage u op) (op.scanned stage) := by
  have hinp : ∀ (offset : Option Register) (perPatch : Bool), u.Extends (u.indexInput offset) (if offset.isSome then
        findings .userDefined (attributeStorage false perPatch) none none else []) := by
    intro offset perPatch f
    cases offset <;> cases perPatch <;> cases f <;>
      simp [holds, indexInput, findings, attributeStorage, Storage.isOutput]
  have hout : ∀ (offset : Option Register) (perPatch : Bool), u.Extends (u.indexOutput offset) (if offset.isSome then
        findings .userDefined (attributeStorage true perPatch) none none else []) := by
    intro offset perPatch f
    cases offset <;> cases perPatch <;> cases f <;>
      simp [holds, indexOutput, findings, attributeStorage, Storage.isOutput]
  cases op with
  | ald dest count address vertex offset perPatch output =>
    cases output with
    | false => exact (hinp offset perPatch).trans (.foldl (fun u word _ => extends_recordInput u stage perPatch word) _)
    | true => exact (hout offset perPatch).trans (.foldl (fun u word _ => extends_recordOutput u stage perPatch word) _)
  | ast _ count address vertex offset perPatch =>
    exact (hout offset perPatch).trans (.foldl (fun u word _ => extends_recordOutput u stage perPatch word) _)
  | ipa dest address offset => exact (hinp offset false).trans (extends_recordInput _ stage false address)
  | ld _ _ space | st _ _ space =>
    intro f
    cases space <;> cases f <;> simp [holds, record, recordSpace, Op.scanned, Space.findings]
  | _ => exact .refl u

end Usage

theorem Program.usage_holds_iff (p : Program) (stage : Stage) (f : Finding) :
    (p.usage stage).holds f ↔ ∃ op ∈ p.ops, f ∈ op.scanned stage := by
  have hext : Usage.Extends {} (p.usage stage) (p.ops.flatMap (Op.scanned stage)) :=
    .foldl (fun u op _ => u.extends_record stage op) {}
  have hemp : Usage.holds {} f = false := by
    cases f with
    | component l k => cases k <;> simp [Usage.holds, AttributeUsage.testBit_inputComponents]
    | clipDistance n => cases n <;> simp [Usage.holds, test]
    | _ => simp [Usage.holds, test]
  simpa [hemp] using hext f

/-- The addresses of inputs that are read without an index. -/
def Op.inputWords : Op → List Nat
  | ald _ count address _ none false false => Usage.words address count
  | ipa _ address none => [address]
  | _ => []

/-- The addresses of outputs that are accessed without an index. -/
def Op.outputWords : Op → List Nat
  | ald _ count address _ none false true | ast _ count address _ none false => Usage.words address count
  | _ => []

variable {op : Op}

theorem Op.mem_scanned_inputs (ha : address ∈ op.inputWords) (hf : f ∈ addressFindings stage .input address) :
    f ∈ op.scanned stage := by
  unfold inputWords at ha
  split at ha
  · exact mem_append_right _ (mem_flatMap.2 ⟨address, ha, hf⟩)
  · exact mem_append_right _ (mem_singleton.1 ha ▸ hf)
  · cases ha

theorem Op.mem_scanned_outputs (ha : address ∈ op.outputWords) (hf : f ∈ addressFindings stage .output address) :
    f ∈ op.scanned stage := by
  unfold outputWords at ha
  split at ha
  · exact mem_append_right _ (mem_flatMap.2 ⟨address, ha, hf⟩)
  · exact mem_append_right _ (mem_flatMap.2 ⟨address, ha, hf⟩)
  · cases ha

theorem Program.mem_inputs {p : Program} (hop : op ∈ p.ops) (ha : address ∈ op.inputWords)
    (h : Attribute.resolve address stage' isOutput perPatch = some (.user location component)) (stage : Stage) :
    location ∈ below (p.usage stage).attributes.inputs userLocations := by
  refine mem_below.2 ⟨(Attribute.resolve_user h).1, ?_⟩
  refine (p.usage_holds_iff stage (.input location)).2 ⟨op, hop, Op.mem_scanned_inputs ha ?_⟩
  rw [addressFindings_eq (resolve_user_congr h)]
  exact List.mem_cons_self

end Guest
end ShaderRecompiler
