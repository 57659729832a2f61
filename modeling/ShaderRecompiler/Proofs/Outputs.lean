import ShaderRecompiler.Compile.Stage
import ShaderRecompiler.Proofs.Listing
import ShaderRecompiler.Proofs.Slots

/-! Generic outputs that are defined from the start. The last stages before
rasterization store a default to every component of every generic output that their
usage names, and whatever was set up around a program, its usage names the outputs
that the program accesses at fixed places. -/
namespace ShaderRecompiler

open List Attribute Mask

variable {op : Guest.Op}

/-- The stage starts from defined outputs. -/
def Config.definesOutputs (c : Config) : Bool :=
  c.guestStage.isPreRaster && c.guestStage != .tessControl && !c.geometryPassthrough

/-- Accesses to generic outputs at fixed places keep to slots in `S`. -/
def Operation.Keeps (S : Nat × Nat → Prop) (op : Operation) : Prop :=
  op.inst.isStraight → op.storage = .output → ∀ slot ∈ op.userSlot?, S slot

/-- Generic outputs at fixed places only in `S`. -/
def Places.generic (S : Nat × Nat → Prop) : Places := fun _ v location component =>
  v = .userDefined → ∀ l ∈ location.asNat?, ∀ k ∈ component.asNat?, S (l, k)

theorem Operation.Sound.keeps {op : Operation} (h : op.Sound c (.generic S) B) : op.Keeps S := by
  rintro - hstor ⟨l, k⟩ hslot
  have hio : op.storage.isIo := by rw [hstor]; rfl
  obtain ⟨v, location, vertex, component, hacc, hplc, -⟩ := h.access hio
  have hat := (hacc.slot?_eq hio).symm.trans (Operation.slot?_eq_user_iff.2 hslot)
  unfold IoVariable.slotAt? at hat
  split at hat
  · next hv =>
    obtain ⟨l', hl, hat⟩ := Option.bind_eq_some_iff.1 hat
    obtain ⟨k', hk, hat⟩ := Option.map_eq_some_iff.1 hat
    cases hat
    exact hplc hstor hv l hl k hk
  · next hv =>
    split at hat
    · obtain ⟨_, -, hat⟩ := Option.map_eq_some_iff.1 hat
      exact absurd (congrArg Slot.io hat) hv
    · exact absurd (congrArg Slot.io (Option.some.inj hat)) hv

theorem Places.generic_word (hloc : location < userLocations) (hcomp : component < 4) (h : S (location, component))
    (inst : Instruction) (v : IoVariable) : Places.generic S inst v (.word location) (.word component) := by
  intro _
  rw [Operand.asNat?_word (Nat.lt_trans hloc (by decide)), Operand.asNat?_word (Nat.lt_trans hcomp (by decide))]
  rintro _ ⟨⟩ _ ⟨⟩
  exact h

/-- An instruction is permitted the generic outputs that it accesses at fixed places. -/
theorem Guest.Op.permitted_generic (h : ∀ word ∈ op.outputWords, ∀ location component,
      resolve word l.config.guestStage true false = some (.user location component) →
        S (location, component)) : op.Permitted l (.generic S) fun _ => True where
  outputs word hword target htgt := by
    cases target with
    | user location component =>
      obtain ⟨hloc, hcomp⟩ := resolve_user htgt
      exact fun inst => Places.generic_word hloc hcomp (h word hword location component htgt) inst _
    | builtin v component =>
      rintro inst rfl
      exact absurd (resolve_builtin htgt) (by decide)
  indexed _ inst location component hloc _ l hl := by simp [hloc] at hl
  stores _ _ _ _ _ _ := trivial

namespace Lowering

variable {l : Lowering}

def Initial (l : Lowering) (slot : Nat × Nat) : Prop :=
  slot.1 ∈ below l.outputs userLocations ∧ slot.2 < 4

theorem permits_initial (hwrites : l.writesEpilogue = false) : l.Permits (.generic l.Initial) fun _ => True where
  other v hv _ _ _ huser := by simp [huser, IoVariable.isRecorded] at hv
  initial component hcomp := by
    refine ⟨fun hv => absurd hv (by decide), fun _ hloc => ?_⟩
    exact Places.generic_word (mem_below.1 hloc).1 hcomp ⟨hloc, hcomp⟩ _ _
  layer _ hv := absurd hv (by decide)
  captured h := by simp [hwrites] at h
  memory _ _ _ _ := trivial

def initialStore (l : Lowering) (v : IoVariable) (location value component : Nat) : Operation where
  inst := .store
  storage := .output
  dest := none
  sources := l.config.accessSources .output v (.word location) (.word 0) (.word component) ++
    [.constant (Binary32.ofNat value)]

def initialStores (l : Lowering) (v : IoVariable) (location : Nat) : List Operation :=
  [0, 0, 0, 1].zipIdx.map fun (value, component) => l.initialStore v location value component

/-- What a stage with defined outputs starts with. -/
def initialOps (l : Lowering) : List Operation :=
  l.initialStores .position 0 ++ (below l.outputs userLocations).flatMap (l.initialStores .userDefined)

theorem ops_initializeOutput (l : Lowering) (v : IoVariable) (location : Nat) (e : Emitter) :
    ((l.initializeOutput v location).run e).2.ops.toList = e.ops.toList ++ l.initialStores v location := by
  change (Array.push (Array.push (Array.push (Array.push e.ops _) _) _) _).toList = _
  simp [initialStores, initialStore]

theorem ops_initializeOutputs (h : l.config.definesOutputs) (e : Emitter) :
    (l.initializeOutputs.run e).2.ops.toList = e.ops.toList ++ l.initialOps := by
  have hrun : l.initializeOutputs = (do
      l.initializeOutput .position 0
      (below l.outputs userLocations).forM (l.initializeOutput .userDefined)) := by
    exact if_pos h
  obtain ⟨locations, hsame, hlocs⟩ := exists_forM (R := Eq)
    (fun location (_ : location ∈ below l.outputs userLocations) e =>
      ⟨location, rfl, l.ops_initializeOutput .userDefined location e⟩)
    ((l.initializeOutput .position 0).run e).2
  obtain rfl := forall₂_eq_eq_eq ▸ hsame
  rw [hrun, initialOps, ← append_assoc, ← ops_initializeOutput]
  exact hlocs

theorem inst_initialOps : ∀ op ∈ l.initialOps, op.inst = .store := by
  intro op hop
  have hone : ∀ v location, op ∈ l.initialStores v location → op.inst = .store := by
    intro v location hmem
    obtain ⟨_, -, rfl⟩ := mem_map.1 hmem
    rfl
  obtain hop | hop := mem_append.1 hop
  · exact hone _ _ hop
  · obtain ⟨location, -, hop⟩ := mem_flatMap.1 hop
    exact hone _ _ hop

theorem exists_written (h : l.Initial slot) : ∃ op ∈ l.initialOps, Join.written? op = some slot := by
  obtain ⟨location, component⟩ := slot
  obtain ⟨hloc, hcomp⟩ : location ∈ below l.outputs userLocations ∧ component < 4 := h
  have hval : ([0, 0, 0, 1][component], component) ∈ [0, 0, 0, 1].zipIdx :=
    mk_mem_zipIdx_iff_getElem?.2 (getElem?_eq_getElem _)
  have hmem : l.initialStore .userDefined location [0, 0, 0, 1][component] component ∈
      l.initialStores .userDefined location :=
    mem_map.2 ⟨_, hval, rfl⟩
  refine ⟨_, mem_append_right _ (mem_flatMap.2 ⟨location, hloc, hmem⟩), ?_⟩
  have hlt := (mem_below.1 hloc).1
  have hstore : (l.initialStore .userDefined location [0, 0, 0, 1][component] component).isStore .output := rfl
  rw [Join.written?, if_pos hstore]
  refine Operation.slot?_eq_user_iff.1 ((Config.slot?_access rfl rfl).trans ?_)
  rw [IoVariable.slotAt?, if_pos rfl, Operand.asNat?_word (Nat.lt_trans hlt (by decide)),
    Operand.asNat?_word (Nat.lt_trans hcomp (by decide))]
  rfl

end Lowering

namespace Guest.Program

variable {p : Program}

theorem exists_initialOps (h : p.lower s ids parts = .ok lowered) (hparts : parts.initialOutputs)
    (hdefines : s.config.definesOutputs) :
    (p.lowering s parts (p.blockLabels ids)).initialOps <+: lowered.ops := by
  obtain ⟨hops, -, -⟩ := lower_eq h
  let l := p.lowering s parts (p.blockLabels ids)
  let rest : Parts := { parts with initialOutputs := false }
  have hspl : l.whole parts p.blocks = (do l.initializeOutputs; l.whole rest p.blocks) := by
    obtain ⟨initialOutputs, prologue, epilogue⟩ := parts
    cases hparts
    rfl
  obtain ⟨added, hadd, -⟩ := (@scopes_program p s ids rest).run (l.initializeOutputs.run (p.started ids)).2
  refine ⟨added, ?_⟩
  rw [hops]
  change _ = ((l.whole parts p.blocks).run (p.started ids)).2.ops.toList
  rw [hspl]
  refine Eq.trans ?_ hadd.symm
  rw [Lowering.ops_initializeOutputs hdefines]
  rfl

end Guest.Program

/-- The program starts with stores to every generic output that it accesses at a fixed
place. -/
structure Lowered.Opens (lowered : Lowered) (initial : List Operation) : Prop where
  starts : initial <+: lowered.ops
  stores : ∀ op ∈ initial, op.inst = .store
  covers : ∀ op ∈ lowered.ops, op.Keeps fun slot => ∃ store ∈ initial, Join.written? store = some slot

namespace StageContext

variable {s : StageContext} {resources : Resources}

/-- Made from a program; facts about neighbours may have been added, and it may have
been compiled. -/
inductive Configured : StageContext → Prop
  | ofProgram (program : Guest.Program) (config : Config) (host : Host) (options : Options) :
    Configured (.ofProgram program config host options)
  | setNext {s : StageContext} (h : Configured s) (next : StageContext) : Configured (s.setNext next)
  | mergeOutputs {s : StageContext} (h : Configured s) (mask : UInt32) (perPatch : List Nat) :
    Configured (s.mergeOutputs mask perPatch)
  | setLast {s : StageContext} (h : Configured s) : Configured s.setLast
  | setLayerOutput {s : StageContext} (h : Configured s) (address : Nat) : Configured (s.setLayerOutput address)
  | setLayerInput {s : StageContext} (h : Configured s) (address : Nat) : Configured (s.setLayerInput address)
  | setVertex {s : StageContext} (h : Configured s) (vertex : StageContext) : Configured (s.setVertex vertex)
  | progress {s : StageContext} (h : Configured s) (progress : Progress) : Configured { s with progress }

theorem holds_mergeOutputs {u : Guest.Usage} (h : u.holds f) (geometryPassthrough : Bool)
    (mask : UInt32) (patches : List Nat) :
    Guest.Usage.holds { u with attributes := u.attributes.mergeOutputs geometryPassthrough mask patches } f := by
  unfold AttributeUsage.mergeOutputs
  cases f with
  | output => cases geometryPassthrough <;> simp_all [Guest.Usage.holds, test]
  | patchOutput => cases geometryPassthrough <;> simp_all [Guest.Usage.holds, Ascending.mem_union]
  | _ => cases geometryPassthrough <;> exact h

/-- Whatever the scan found stays part of the usage. -/
theorem Configured.holds (h : s.Configured) (hf : (s.program.usage s.config.stage).holds f) : s.usage.holds f := by
  induction h with
  | ofProgram => exact hf
  | setNext _ next ih =>
    have hmerged := holds_mergeOutputs (ih hf)
    exact hmerged _ next.usage.attributes.inputs next.usage.attributes.patchInputs
  | mergeOutputs _ mask perPatch ih => exact holds_mergeOutputs (ih hf) _ _ _
  | setLayerInput _ _ ih =>
    have hheld := ih hf
    cases f <;> first | exact hheld | rfl
  | setLast _ ih | setLayerOutput _ _ ih | setVertex _ _ ih | progress _ _ ih => exact ih hf

theorem Configured.holds_output (h : s.Configured) (hop : op ∈ s.program.ops) (hword : word ∈ op.outputWords)
    (hf : f ∈ Guest.addressFindings s.config.stage .output word) : s.usage.holds f :=
  h.holds ((s.program.usage_holds_iff _ f).2 ⟨op, hop, Guest.Op.mem_scanned_outputs hword hf⟩)

/-- The usage names the generic outputs that an instruction accesses at fixed places. -/
theorem Configured.mem_outputs (h : s.Configured) (hop : op ∈ s.program.ops) (hword : word ∈ op.outputWords)
    (hresolve : resolve word stage true false = some (.user location component)) :
    location ∈ Mask.below s.usage.attributes.outputs userLocations ∧ component < 4 := by
  obtain ⟨hloc, hcomp⟩ := resolve_user hresolve
  have hfound : .output location ∈ Guest.addressFindings s.config.stage .output word := by
    rw [Guest.addressFindings_eq (resolve_user_congr hresolve)]
    exact List.mem_cons_self
  exact ⟨Mask.mem_below.2 ⟨hloc, h.holds_output hop hword hfound⟩, hcomp⟩

theorem lower_ok (h : s.lower emulated resources ids parts = .ok lowered) :
    s.program.lower (s.surroundings emulated resources) ids parts = .ok lowered := by
  unfold lower at h
  cases hlow : s.program.lower (s.surroundings emulated resources) ids parts with
  | error e =>
    rw [hlow] at h
    cases h
  | ok l =>
    rw [hlow] at h
    exact congrArg _ (Except.ok.inj h)

theorem eq_ok_get {ε α : Type} {m : Except ε α} (h : m.toOption.isSome) : m = .ok (m.toOption.get h) := by
  cases m with
  | error => cases h
  | ok => rfl

theorem resources_of_lower (h : s.lower emulated resources ids parts = .ok lowered) :
    lowered.resources = s.program.declare resources :=
  Guest.Program.resources_of_lower (lower_ok h)

/-- A program that does not write its epilogue starts with stores to the generic
outputs it accesses. -/
theorem Configured.opens (hs : s.Configured) (hdefines : s.config.definesOutputs)
    (h : s.lower emulated resources ids firstParts = .ok lowered) : ∃ initial, lowered.Opens initial := by
  have hconfig : (s.surroundings emulated resources).config.definesOutputs := by
    cases emulated <;> exact hdefines
  have hsound := Guest.Program.sound_lower (lower_ok h) (Lowering.permits_initial rfl) fun op hop =>
    Guest.Op.permitted_generic fun _ hword _ _ => hs.mem_outputs hop hword
  refine ⟨_, Guest.Program.exists_initialOps (lower_ok h) rfl hconfig, Lowering.inst_initialOps, ?_⟩
  intro op hop hstr hstor slot hslot
  exact Lowering.exists_written ((hsound op hop).keeps hstr hstor slot hslot)

end StageContext
end ShaderRecompiler
