import ShaderRecompiler.Proofs.ControlFlow
import ShaderRecompiler.Proofs.Outputs
import ShaderRecompiler.Proofs.Usage

/-! Code that a stage has without its program asking for it: outputs are initialized, a
passthrough stage forwards its layer, and where captured outputs are written by hand they
are read back. The interface is fixed by scanning the program, so what this code accesses
is compared with it here. -/
namespace ShaderRecompiler

open Emit List Operation Attribute IoVariable
open Guest (Finding)

variable {u : AttributeUsage} {f : Finding} {v : IoVariable} {l : Lowering} {op : Operation} {storage : Storage}

/-- A generic location that is accessed at a fixed place is part of the interface. -/
def AttributeUsage.declares (u : AttributeUsage) : Finding → Bool
  | .input location => Mask.test u.inputs location || Mask.test u.passthrough location
  | .output location => Mask.test u.outputs location
  | .patchInput _ | .patchOutput _ | .indexedInput | .indexedOutput => false
  | _ => true

namespace Operation

theorem findings_of_ne (hload : op.inst ≠ .load) (hstore : op.inst ≠ .store) : op.findings = [] := by
  simp [findings, isAccess, hload, hstore]

theorem declares_of_isIo (hio : op.storage.isIo = false) (hf : f ∈ op.findings) : u.declares f := by
  have hnone : op.ioVariable? = none := by simp [ioVariable?, hio]
  unfold findings at hf
  split at hf
  · split at hf
    · exact mem_singleton.1 hf ▸ rfl
    · exact mem_singleton.1 hf ▸ rfl
    · simp [hnone] at hf
  · cases hf

end Operation

theorem IoVariable.declares_of_ne (hv : v ≠ .userDefined)
    {location component : Option Nat} (hf : f ∈ v.findings storage location component) :
    u.declares f := by
  have hall : ∀ {p : Prop} {_ : Decidable p} {found : Finding}, u.declares found →
      f ∈ (if p then [found] else []) → u.declares f := by
    intro p _ found hfound hmem
    split at hmem
    · exact mem_singleton.1 hmem ▸ hfound
    · cases hmem
  cases v with
  | userDefined => exact absurd rfl hv
  | layer | viewportIndex | pointSize | clipDistance | instanceId | fragmentCoord => exact hall rfl hf
  | _ => cases hf

/-- Generic locations that a program's surroundings name, whatever the program does. -/
inductive Lowering.Names (l : Lowering) : Finding → Prop
  | layer {address : Nat} (hstage : l.config.guestStage = .geometry) (hpass : l.config.geometryPassthrough)
    (haddress : l.layerInput = some address) : Names l (.input ((address - userBase) / 16 % UInt32.size))
  | captured {buffer : FeedbackBuffer} {word location component : Nat} (hcaptures : l.capturesInEpilogue)
    (hbuffer : buffer ∈ l.config.feedback.take maxFeedbackBuffers) (hword : word ∈ buffer.words)
    (hhole : word ≠ FeedbackBuffer.hole)
    (ht : resolve (word * 4) l.config.guestStage true false = some (.user location component)) :
    Names l (.output location)

namespace Lowering

/-- What is put around a program accesses declared locations, and those that are named. -/
def Confines (l : Lowering) (u : AttributeUsage) (op : Operation) : Prop :=
  ∀ f ∈ op.findings, u.declares f ∨ l.Names f

theorem Confines.of_ne (hload : op.inst ≠ .load) (hstore : op.inst ≠ .store) : l.Confines u op := by
  intro f hf
  rw [findings_of_ne hload hstore] at hf
  cases hf

theorem Touches.names (hu : u.outputs = l.outputs) {inst : Instruction}
    {location : Operand} (h : l.Touches (· = none) inst storage v location vertex component)
    (hf : f ∈ v.findings storage location.asNat? component.asNat?) : u.declares f ∨ l.Names f := by
  cases h with
  | builtin hv =>
    refine .inl (declares_of_ne ?_ hf)
    rintro rfl
    cases hv
  | initial hv =>
    obtain ⟨rfl, rfl⟩ | ⟨rfl, hloc⟩ := hv
    · exact .inl (declares_of_ne (by simp) hf)
    · obtain ⟨hlt, htest⟩ := Mask.mem_below.1 hloc
      rw [Operand.asNat?_word (Nat.lt_trans hlt (by decide))] at hf
      obtain rfl := mem_singleton.1 hf
      left
      rwa [AttributeUsage.declares, hu]
  | forwarded haddr hstg hpass =>
    obtain rfl | hf := mem_cons.1 hf
    · exact .inr (.layer hstg hpass haddr)
    · exact .inl (mem_singleton.1 hf ▸ rfl)
  | layer => exact .inl (declares_of_ne (by simp) hf)
  | fragment hv => exact .inl (declares_of_ne (by obtain rfl | rfl := hv <;> simp) hf)
  | @captured buffer word target _ hcaps hbuf hword hhole ht =>
    cases target with
    | user location component =>
      rw [Attribute.Target.location, Operand.asNat?_word (Nat.lt_trans (resolve_user ht).1 (by decide))] at hf
      obtain rfl := mem_singleton.1 hf
      exact .inr (.captured hcaps hbuf hword hhole ht)
    | builtin v component =>
      refine .inl (declares_of_ne ?_ hf)
      rintro rfl
      cases resolve_builtin ht
  | fixed hop | indexed hop => cases hop

theorem Emitted.confines (hu : u.outputs = l.outputs) (h : l.Emitted (· = none) C op) : l.Confines u op := by
  cases h with
  | compute hinst | act hinst => exact .of_ne (by rintro rfl; cases hinst) (by rintro rfl; cases hinst)
  | labelling _ hs => exact .of_ne (by rintro rfl; cases hs) (by rintro rfl; cases hs)
  | fetch h => exact fun f hf => .inl (declares_of_isIo h.isIo hf)
  | keep h => exact fun f hf => .inl (declares_of_isIo h.isIo hf)
  | load h =>
    intro f hf
    rw [← append_nil (l.config.accessSources ..), Config.findings_access (.inl ⟨rfl, rfl⟩) h.isIo] at hf
    exact h.names hu hf
  | store h =>
    intro f hf
    rw [Config.findings_access (.inr ⟨rfl, _, rfl⟩) h.isIo] at hf
    exact h.names hu hf
  | _ => exact .of_ne (by simp) (by simp)

theorem confines_ending (hu : u.outputs = l.outputs) (h : l.Ending code) : ∀ op ∈ code, l.Confines u op := by
  obtain ⟨epilogue, hepi, rfl⟩ := h
  have hscp : l.Emits (· = none) (fun _ => True) {} [] [] l.epilogue := scopes_epilogue rfl fun _ _ => trivial
  obtain ⟨_, _, hem⟩ := hepi.emission hscp
  refine forall_mem_append.2 ⟨fun op hop => (hem.all op hop).confines hu, ?_⟩
  exact forall_mem_singleton.2 (.of_ne (by simp [returning]) (by simp [returning]))

end Lowering

namespace Guest.Program

/-- The operations of a program's exits, which are the end of the stage. -/
def exitOps (p : Program) (blocks : List (List Piece × Nat)) : List Operation :=
  (p.blocks.zip blocks).flatMap fun b =>
    (b.1.body.zip b.2.1).flatMap fun i => if i.1.op = .exit then i.2.ops else []

variable {p : Program} {blocks : List (List Piece × Nat)}

theorem confines_exitOps (hu : u.outputs = l.outputs)
    (h : Forall₂ l.LowersBlock p.blocks blocks) : ∀ op ∈ p.exitOps blocks, l.Confines u op := by
  intro op hop f hf
  obtain ⟨b, hb, hop⟩ := mem_flatMap.1 hop
  obtain ⟨i, hi, hop⟩ := mem_flatMap.1 hop
  split at hop
  · next hexit =>
    have hlowers := (forall₂_iff_zip.1 ((forall₂_iff_zip.1 h).2 hb).2).2 hi
    simp only [Piece.ops, mem_append] at hop
    obtain hop | hop | hop := hop
    · rw [hlowers.silent op (mem_append_left _ hop)] at hf
      cases hf
    · exact Lowering.confines_ending hu (hlowers.ending hexit) op hop f hf
    · rw [hlowers.silent op (mem_append_right _ hop)] at hf
      cases hf
  · cases hop

end Guest.Program

namespace StageContext

variable {s : StageContext} {emulated : Bool} {resources : Resources} {ids : Ids} {parts : Parts} {lowered : Lowered}

/-- What stands before the program and where it ends keeps to the interface of the stage,
apart from the input that is forwarded as the layer and the outputs that are captured. -/
theorem implicit_declared (h : s.lower emulated resources ids parts = .ok lowered) :
    let l := s.program.lowering (s.surroundings emulated resources) parts (s.program.blockLabels ids)
    ∃ front blocks closing, lowered.ops = front ++ (blocks.flatMap Piece.blockOps ++ closing) ∧
      front.length = lowered.bodyStart ∧ List.Forall₂ l.LowersBlock s.program.blocks blocks ∧
      (closing = [] ∨ l.Ending closing) ∧
      ∀ op ∈ front ++ (s.program.exitOps blocks ++ closing), ∀ f ∈ op.findings,
        s.usage.attributes.declares f = true ∨ l.Names f := by
  intro l
  obtain ⟨front, blocks, closing, hops, hfront, hlowers, hcloses, -, -, hstart⟩ :=
    Guest.Program.exists_pieces (lower_ok h)
  have hu : s.usage.attributes.outputs = l.outputs := rfl
  refine ⟨front, blocks, closing, hops, hstart, hlowers, hcloses, ?_⟩
  refine List.forall_mem_append.2 ⟨?_, List.forall_mem_append.2 ⟨Guest.Program.confines_exitOps hu hlowers, ?_⟩⟩
  · have hscopes : l.Emits (· = none) (fun _ => True) {} [] [] (l.front parts) :=
      Lowering.scopes_front (by rfl) (fun _ => trivial) parts
    obtain ⟨added, hadded, hscoped⟩ := hscopes.run (s.program.started ids)
    obtain rfl : front = added := hfront.symm.trans hadded
    exact fun op hop => (hscoped.emission.all op hop).confines hu
  · obtain rfl | hending := hcloses
    · simp
    · exact Lowering.confines_ending hu hending

/-- A vertex stage that writes out the first word of its first generic output by hand. -/
def capturing (ops : List Guest.Op) : StageContext :=
  .ofProgram { blocks := [⟨0, ops.map fun op => { address := 0, op }⟩] }
    { stage := .vertex, lastBeforeRaster := true, feedback := [⟨16, [0x20, FeedbackBuffer.hole]⟩] }
    { capabilities := { transformFeedback := false }, transformFeedbackEnabled := true } {}

def capturingStored : StageContext := capturing [.ast ⟨0⟩ 1 0x80 none none false, .exit]

def capturingStoredLowered : Lowered :=
  (capturingStored.lower true (capturingStored.prepared true) {} {}).toOption.get (by decide +kernel)

/-- The interface of a stage that stores to the output holds all that is put around it. -/
theorem implicit_declared_capturingStored :
    ∃ front blocks closing, capturingStoredLowered.ops = front ++ (blocks.flatMap Piece.blockOps ++ closing) ∧
      (∃ op ∈ front ++ (capturingStored.program.exitOps blocks ++ closing), .output 0 ∈ op.findings) ∧
      ∀ op ∈ front ++ (capturingStored.program.exitOps blocks ++ closing), ∀ f ∈ op.findings,
        capturingStored.usage.attributes.declares f = true := by
  obtain ⟨front, blocks, closing, hops, hstart, -, -, hdeclared⟩ :=
    @implicit_declared capturingStored true (capturingStored.prepared true) {} {} capturingStoredLowered (eq_ok_get _)
  have hresolve : Attribute.resolve (0x20 * 4) .vertex true false = some (.user 0 0) := by decide
  have hfront : front = capturingStoredLowered.ops.take capturingStoredLowered.bodyStart := by
    rw [hops, ← hstart, List.take_left]
  have hinitial : ∃ op ∈ front, .output 0 ∈ op.findings := by
    rw [hfront]
    decide +kernel
  refine ⟨front, blocks, closing, hops, ?_, fun op hop f hf => ?_⟩
  · obtain ⟨op, hop, hf⟩ := hinitial
    exact ⟨op, List.mem_append_left _ hop, hf⟩
  · obtain hf | hnames := hdeclared op hop f hf
    · exact hf
    · cases hnames with
      | layer hstage => cases hstage
      | captured _ hbuffer hword hhole ht =>
        obtain rfl := List.mem_singleton.1 hbuffer
        obtain rfl | hword := List.mem_cons.1 hword
        · cases hresolve.symm.trans ht
          decide
        · exact absurd (List.mem_singleton.1 hword) hhole

def capturingAlone : StageContext := capturing [.exit]

def capturingAloneLowered : Lowered :=
  (capturingAlone.lower true (capturingAlone.prepared true) {} {}).toOption.get (by decide +kernel)

/-- Without the store nothing declares the output, and it is read all the same. -/
theorem capturingAlone_reads_undeclared :
    capturingAlone.lower true (capturingAlone.prepared true) {} {} = .ok capturingAloneLowered ∧
      (∃ op ∈ capturingAloneLowered.ops, op.inst = .load ∧ .output 0 ∈ op.findings) ∧
      capturingAlone.usage.attributes.declares (.output 0) = false ∧
      ∀ component, capturingAlone.reservations.userOffset? .output 0 component = none := by
  refine ⟨eq_ok_get _, by decide +kernel, by decide, fun component => List.idxOf?_eq_none_iff.2 ?_⟩
  have hslots : capturingAlone.reservations.record .output = Slot.row .position 0 4 := by decide
  rw [hslots]
  simp [Slot.row]

end StageContext
end ShaderRecompiler
