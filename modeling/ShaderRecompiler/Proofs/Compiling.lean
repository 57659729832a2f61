import ShaderRecompiler.Proofs.Lowered
import ShaderRecompiler.Proofs.Outputs
import ShaderRecompiler.Proofs.Passes
import ShaderRecompiler.Proofs.Printing

/-! Compiling a stage. Once its program is lowered, the operations form a routine,
pass the check before and after the passes, and have a text: what remains to fail
is the structure of the flow, an access that a strict compilation refuses, and a
per-patch attribute whose location is computed. -/
namespace ShaderRecompiler

open Operation

variable {op : Operation} {r : Routine}

/-- What compiling a stage for the first time can fail with. -/
inductive CompileError.Expected (strict : Bool) (indexesPatch : Prop) : CompileError → Prop
  | lowering (e : Guest.Error) : Expected strict indexesPatch (.lowering e)
  | structuring (e : StructureError) : Expected strict indexesPatch (.structuring e)
  | unresolved (access : Unresolved) : strict → Expected strict indexesPatch (.unresolved access)
  | patchLocation : indexesPatch → Expected strict indexesPatch (.glsl (.unsupportedIo .dynamicPatchLocation))

theorem FailsOnly.mapError {ε ε' α : Type} {E : ε' → Prop} {m : Except ε α} {f : ε → ε'}
    (h : FailsOnly (fun e => E (f e)) m) : FailsOnly E (m.mapError f) := by
  cases m with
  | ok a => exact .ok a
  | error e => exact .error (h e rfl)

theorem Operation.Dispatches.fits (h : op.Dispatches) (x : Setting) (r : Resources) :
    op.Fits x ∧ ∀ o ∈ op.operands, o.ConstantDeclared r := by
  cases h with
  | compare =>
    refine ⟨.plain rfl rfl rfl ?_ ?_, ?_⟩
    · rintro _ ⟨⟩
      rfl
    · exact List.forall_mem_cons.2 ⟨rfl, by simp⟩
    · simp [operands, Operand.ConstantDeclared, Operand.word]
  | branchIfTrue label => exact ⟨.conditional rfl label rfl, by simp [operands, Operand.ConstantDeclared]⟩
  | copy =>
    refine ⟨.plain rfl rfl rfl ?_ ?_, ?_⟩
    · rintro _ ⟨⟩
      rfl
    · simp
    · simp [operands, Operand.ConstantDeclared, Operand.word]
  | branch label => exact ⟨.branch label, by simp [operands, Operand.ConstantDeclared]⟩

theorem Operation.Dispatches.prints (h : op.Dispatches) (s : Glsl.Scope) (E : Glsl.Error → Prop) : s.Prints E op := by
  have hfits := h.fits ⟨s.context.config, s.resources, 0, False, fun _ => False⟩ s.resources
  exact Glsl.Scope.prints_of_fits ⟨rfl, .refl _⟩ ⟨False.elim, fun _ => False.elim⟩ hfits.1 hfits.2

namespace Routine

variable {r' : Routine} {structured : Structured} {c : Glsl.Context}

theorem WellLinked.failsOnly_source (hlink : r.WellLinked) (hstruct : r.structured = .ok (structured, r'))
    (hprints : ∀ b, ∀ op ∈ r.code b, ∀ s : Glsl.Scope, s.context = c → s.Prints E op) :
    FailsOnly E (Glsl.source c r' structured) := by
  refine .bind (.bind ?_ fun _ => .ok _) fun _ => .ok _
  by_cases hemp : r.blocks.size = 0
  · unfold Routine.structured at hstruct
    rw [if_pos (by simpa using hemp)] at hstruct
    obtain ⟨rfl, rfl⟩ := Prod.mk.inj (Except.ok.inj hstruct)
    exact .ok _
  · obtain ⟨loops, body, n, hroute, hwrites, hbody, -⟩ := structured_eq (Nat.pos_of_ne_zero hemp) hstruct
    have hholds : r.Holds fun op => ∀ s : Glsl.Scope, s.context = c → s.Prints E op :=
      (holds_iff hlink).2 hprints
    obtain ⟨hlink, hholds⟩ := hholds.singleExitLoops (fun op hop s _ => hop.prints s E) hlink hroute
    rw [hbody]
    exact Glsl.Scope.failsOnly_written (fun b op hop => (holds_iff hlink).1 hholds b op hop _ rfl) hwrites _

theorem Obeys.failsOnly_source (h : r.Fits x) (hstruct : r.structured = .ok (structured, r'))
    (hE : x.Admits E) (hconfig : c.config = x.config)
    (hrsc : c.resources = Compilation.declareConstants x.resources r) :
    FailsOnly E (Glsl.source c r' structured) := by
  obtain ⟨hext, hdecl⟩ := Compilation.declareConstants_spec h.linked x.resources
  rw [← hrsc] at hext hdecl
  refine h.linked.failsOnly_source hstruct fun b op hop _ hs => ?_
  subst hs
  exact Glsl.Scope.prints_of_fits ⟨hconfig, hext⟩ hE (h.holds b op hop) (hdecl b op hop)

end Routine

namespace Compilation

/-- What compiling operations that fit may fail with. -/
structure Admits (E : CompileError → Prop) (strict : Bool) (x : Setting) : Prop where
  structuring : ∀ e, E (.structuring e)
  unresolved : strict → ∀ access, E (.unresolved access)
  glsl : x.Admits fun e => E (.glsl e)

theorem admits_expected (strict : Bool) (config : Config) (resources : Resources) (inputs : UInt32) (D : Prop) :
    Admits (CompileError.Expected strict D) strict ⟨config, resources, inputs, D, fun _ => False⟩ :=
  ⟨.structuring, fun h access => .unresolved access h, .patchLocation, fun _ h => h.elim⟩

variable (c : Compilation) {inputs : UInt32} {D : Prop} {U : Nat → Prop} {E : CompileError → Prop}

/-- What the operations of a compilation have to fit. -/
abbrev setting (inputs : UInt32) (D : Prop) (U : Nat → Prop) : Setting := ⟨c.config, c.resources, inputs, D, U⟩

variable {c}

theorem checked_eq_ok (h : r.Fits (c.setting inputs D U)) (phase : Phase) : c.checked phase r = .ok () := by
  unfold checked
  rw [(h.mono fun _ hop => hop.toChecked).check_eq_ok]
  rfl

theorem exists_routine (hne : ops ≠ [])
    (h : Emission (Fits (c.setting inputs D U)) [] [] first last ops) (phase : Phase) (ids : Ids) :
    ∃ r, c.routine phase ops ids = .ok r ∧ r.Fits (c.setting inputs D U) := by
  obtain ⟨own, hnd, -, hperm⟩ := h.marks
  obtain ⟨r, hr⟩ := Routine.exists_ofOperations hne (fun op hop => (h.all op hop).labelled)
    (hperm.nodup_iff.2 hnd) (fun l hl => (h.targets l hl).resolve_right (by simp)) ids
  have hfits : r.Fits (c.setting inputs D U) := .ofOperations hr h.all
  refine ⟨r, ?_, hfits⟩
  unfold routine
  rw [hr]
  dsimp only [Except.mapError, bind, Except.bind]
  rw [checked_eq_ok hfits]
  rfl

theorem failsOnly_write (h : r.Fits (c.setting inputs D U))
    (hE : Admits E c.options.strict (c.setting inputs D U)) (features : Features) :
    FailsOnly E (c.write r features) := by
  unfold write
  cases hstruct : r.structured with
  | error e => exact .error (hE.structuring e)
  | ok result =>
    obtain ⟨structured, r'⟩ := result
    have hsrc : ∀ context : Glsl.Context, context.config = c.config →
        context.resources = declareConstants c.resources r →
        FailsOnly (fun e => E (.glsl e)) (Glsl.source context r' structured) :=
      fun _ => h.failsOnly_source hstruct hE.glsl
    change FailsOnly _ ((Glsl.source _ r' structured).mapError CompileError.glsl >>= fun _ => _)
    exact .bind (.mapError (hsrc _ rfl rfl)) fun _ => .ok _

theorem failsOnly_finish {p : Passed} (h : p.routine.Fits (c.setting inputs D U))
    (hE : Admits E c.options.strict (c.setting inputs D U)) : FailsOnly E (c.finish p) := by
  refine .bind ?_ fun _ => ?_
  · cases p.unresolved with
    | nil => exact .ok _
    | cons access rest =>
      unfold resolved
      dsimp only
      split
      · next hstrict => exact .error (hE.unresolved hstrict access)
      · exact .ok _
  · rw [checked_eq_ok h]
    exact failsOnly_write h hE p.features

theorem failsOnly_compile (hp : c.resources.Provides fetched) (hfetch : (c.setting inputs D U).Fetches) (hne : ops ≠ [])
    (h : Emission (Fits (c.setting inputs D U)) [] [] first last ops)
    (hE : Admits E c.options.strict (c.setting inputs D U)) (ids : Ids) (features : Features) :
    FailsOnly E (c.compile ops ids features).result := by
  obtain ⟨r, hr, hfits⟩ := exists_routine hne h .construction ids
  unfold compile
  rw [hr]
  exact failsOnly_finish
    (Routine.Obeys.runPasses (c := ⟨c.config, c.resources, c.host⟩) hp (Setting.stable_fits hfetch) hfits features) hE

end Compilation

namespace StageContext

variable {s : StageContext} {emulated : Bool} {resources : Resources} {parts : Parts} {lowered : Lowered}

theorem failsOnly_lower {E : CompileError → Prop} (hE : ∀ e, E (.lowering e)) :
    FailsOnly E (s.lower emulated resources ids parts) :=
  .mapError fun e _ => hE e

theorem fits_lower (hp : resources.Prepared fetched) (h : s.lower emulated resources ids parts = .ok lowered)
    (hinps : s.usage.attributes.inputs = (s.program.usage stage).attributes.inputs)
    (hnd : s.program.addresses.Nodup) (hcoord : ∀ op ∈ s.program.ops, op.hasCoordinates)
    (hpat : ∀ op ∈ s.program.ops, op.indexesPatch → D)
    (hfit : ∀ b ∈ lowered.resources.storageBuffers, b.binding < 2 ^ 32) :
    lowered.resources.Provides fetched ∧ lowered.ops ≠ [] ∧
      Emission (Fits ⟨s.configFor emulated, lowered.resources, s.usage.attributes.inputs, D, fun _ => False⟩)
        [] [] ids.labels lowered.ids.labels lowered.ops := by
  have hlow := lower_ok h
  have hrsc : lowered.resources = s.program.declare resources := resources_of_lower h
  rw [hrsc] at hfit ⊢
  have hprep : (s.surroundings emulated resources).resources.Prepared fetched := hp
  have hsuits := Guest.Program.suits hprep hfit (Guest.Program.error?_of_lower hlow) hcoord hpat hinps
  have hprov := (hprep.declare s.program).1.toProvides
  exact ⟨hprov, Guest.Program.lower_spec hprov hnd hsuits hlow⟩

theorem failsOnly_compileAlone (s : StageContext) (emulated : Bool)
    (hinps : s.usage.attributes.inputs = (s.program.usage stage).attributes.inputs)
    (hnd : s.program.addresses.Nodup) (hcoord : ∀ op ∈ s.program.ops, op.hasCoordinates)
    (hfit : ∀ b ∈ (s.program.declare (s.prepared emulated)).storageBuffers, b.binding < 2 ^ 32) :
    FailsOnly (CompileError.Expected s.options.strict (∃ op ∈ s.program.ops, op.indexesPatch))
      (s.compileAlone emulated).result := by
  unfold compileAlone
  dsimp only
  rw [← prepared]
  cases hlow : s.lower emulated (s.prepared emulated) {} {} with
  | error e => exact .error (failsOnly_lower .lowering e hlow)
  | ok lowered =>
    rw [← resources_of_lower hlow] at hfit
    obtain ⟨hprov, hne, hem⟩ := fits_lower (D := ∃ op ∈ s.program.ops, op.indexesPatch)
      (s.prepared_prepared emulated) hlow hinps hnd hcoord (fun op hop hpat => ⟨op, hop, hpat⟩) hfit
    exact Compilation.failsOnly_compile hprov (fun d v i he l hl => .inl (hprov.fetch d v i he l hl)) hne
      hem (Compilation.admits_expected ..) _ _

/-- A stage compiled for the first time fails only as expected. -/
theorem compile_failsOnly_expected (p : Guest.Program) (config : Config) (host : Host) (options : Options)
    (emulated : Bool) (hnodup : p.addresses.Nodup) (hcoordinates : ∀ op ∈ p.ops, op.hasCoordinates = true)
    (hfit : ∀ b ∈ (p.declare ((ofProgram p config host options).prepared emulated)).storageBuffers,
      b.binding < 2 ^ 32) :
    FailsOnly (CompileError.Expected options.strict (∃ op ∈ p.ops, op.indexesPatch = true))
      ((ofProgram p config host options).compile emulated).1.result :=
  failsOnly_compileAlone (ofProgram p config host options) emulated rfl hnodup hcoordinates hfit

/-- Samples a texture at what it loads from a computed place of the patch. -/
def indexedPatch : StageContext :=
  let program : Guest.Program :=
    { blocks := [⟨0, [⟨0, {}, .ald ⟨0⟩ 2 0 none (some ⟨4⟩) true false⟩,
        ⟨8, {}, .tex ⟨2⟩ 3 8 .twoD [⟨0⟩, ⟨1⟩] none false⟩, ⟨16, {}, .exit⟩]⟩] }
  ofProgram program { stage := .tessEvaluation } {} {}

theorem compile_failsOnly_expected_indexedPatch :
    (indexedPatch.compile false).1.result = .error (.glsl (.unsupportedIo .dynamicPatchLocation)) ∧
      CompileError.Expected false (∃ op ∈ indexedPatch.program.ops, op.indexesPatch = true)
        (.glsl (.unsupportedIo .dynamicPatchLocation)) := by
  have hfails : (match (indexedPatch.compile false).1.result with
      | .error (.glsl (.unsupportedIo .dynamicPatchLocation)) => true
      | _ => false) = true := by decide +kernel
  split at hfails
  · next hresult =>
    exact ⟨hresult, compile_failsOnly_expected indexedPatch.program { stage := .tessEvaluation } {} {} false
      (by decide) (by decide) (by decide) _ hresult⟩
  · cases hfails

end StageContext
end ShaderRecompiler
