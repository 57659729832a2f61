import ShaderRecompiler.Proofs.Compiling
import ShaderRecompiler.Proofs.Irreducibility

/-! The check is sound for what comes after it. A routine that it accepts has the condition of
every branch, so structuring never misses one. Its text has the operands, results and
declarations that it asks for, and fails only where the check does not look: at what an operand
or a destination is, at textures, images and the constant buffers of operands, and at accesses
to the stage interface that GLSL lacks. -/
namespace ShaderRecompiler

open Instruction

variable {op : Operation}

theorem IoVariable.number_of_ofNumber? (h : ofNumber? n = some v) : v.number = n := by
  have hall : ∀ i : Fin all.length, (all.get i).number = i := by decide
  obtain ⟨hn, rfl⟩ := List.getElem?_eq_some_iff.1 h
  exact hall ⟨n, hn⟩

theorem Operand.eq_word_of_asNat? {o : Operand} (h : o.asNat? = some n) : o = .word n := by
  cases o with
  | constant w =>
    obtain rfl : w.toNat = n := Option.some.inj h
    rw [word, UInt32.ofNat_toNat]
  | _ => cases h

theorem exists_optional (p : Bool) (xs : List Operand) (h : p.toNat ≤ xs.length) :
    ∃ o rest, xs = (if p then [o] else []) ++ rest ∧ xs.length = p.toNat + rest.length := by
  cases p with
  | false => exact ⟨.undefined, xs, rfl, (Nat.zero_add _).symm⟩
  | true =>
    cases xs with
    | nil => cases h
    | cons o rest => exact ⟨o, rest, rfl, Nat.add_comm ..⟩

namespace Operation

/-- An accepted access names a variable and has the operands that it takes. -/
theorem Checked.accessSources (h : op.Checked c r) (hacc : op.inst = .load ∨ op.inst = .store)
    (hio : op.storage.isIo) : ∃ v location vertex component rest,
      op.sources = c.accessSources op.storage v location vertex component ++ rest := by
  obtain ⟨n, hn, hlen⟩ : ∃ n, Check.ioSources c op = .ok n ∧ n ≤ op.sources.length := by
    rw [← Check.elementSources_of_isIo hio]
    obtain hi | hi := hacc
    · exact ⟨_, h.elementSources_load hi, Nat.le_refl _⟩
    · obtain ⟨n, hn, hlen⟩ := h.elementSources_store hi
      exact ⟨n, hn, by omega⟩
  unfold Check.ioSources at hn
  cases hv : op.ioVariable? with
  | none =>
    rw [hv] at hn
    cases hn
  | some v =>
    rw [hv] at hn
    obtain rfl := Except.ok.inj hn
    rw [ioVariable?, if_pos hio] at hv
    obtain ⟨number, hplc, hnum⟩ := Option.bind_eq_some_iff.1 hv
    obtain ⟨first, hfst, hnat⟩ := Option.bind_eq_some_iff.1 hplc
    obtain rfl : first = v.operand := by
      rw [IoVariable.operand, IoVariable.number_of_ofNumber? hnum]
      exact Operand.eq_word_of_asNat? hnat
    obtain ⟨xs, hxs⟩ : ∃ xs, op.sources = v.operand :: xs := by
      unfold source? at hfst
      cases hop : op.sources with
      | nil =>
        rw [hop] at hfst
        cases hfst
      | cons o xs =>
        rw [hop] at hfst
        exact ⟨xs, congrArg (· :: xs) (Option.some.inj hfst)⟩
    rw [hxs, List.length_cons] at hlen
    obtain ⟨location, xs₁, rfl, h₁⟩ := exists_optional v.hasLocation xs (by omega)
    obtain ⟨vertex, xs₂, rfl, h₂⟩ := exists_optional (c.hasVertexIndex op.storage v) xs₁ (by omega)
    obtain ⟨component, rest, rfl, -⟩ := exists_optional v.hasComponent xs₂ (by omega)
    refine ⟨v, location, vertex, component, rest, hxs.trans ?_⟩
    simp only [Config.accessSources, List.cons_append, List.nil_append, List.append_assoc]

end Operation

namespace Glsl

/-- What the check leaves open in the text of operations, each with its cause. -/
inductive Error.Unchecked (r : Resources) (ops : List Operation) : Error → Prop
  | invalidDestination {op : Operation} {dest : Operand} :
    op ∈ ops → op.dest = some dest → dest.isWritable = false → Unchecked r ops (.invalidDestination op.inst dest)
  | labelAsValue {op : Operation} {label : Nat} : op ∈ ops → .label label ∈ op.values → Unchecked r ops .labelAsValue
  | unsupportedIo {op : Operation} (access : UnsupportedAccess) :
    op ∈ ops → op.inst = .load ∨ op.inst = .store → op.storage.isIo → Unchecked r ops (.unsupportedIo access)
  | texture {op : Operation} {t : TextureOp} : op ∈ ops → op.inst = .textureSample t → r.texture? t.binding = none →
      Unchecked r ops (.undeclared .texture t.binding)
  | image {op : Operation} {i : ImageOp} :
    op ∈ ops → op.inst = .imageLoad i ∨ op.inst = .imageStore i → r.image? i.binding = none →
      Unchecked r ops (.undeclared .image i.binding)
  | constantBuffer {op : Operation} {slot offset : Nat} : op ∈ ops → .constantBuffer slot offset ∈ op.values →
      r.constantBuffer? (r.reservations.constantBuffers + slot) = none →
        Unchecked r ops (.undeclared .constantBuffer slot)

namespace Scope

variable {s : Scope}

theorem expressible_of_unsupported (h : ∀ access, E (.unsupportedIo access)) (storage : Storage) (v : IoVariable)
    (location component : Operand) : Expressible E storage v location component where
  color _ _ := h _
  patch _ _ _ := h _
  output _ _ n _ run := by
    cases hidx : component.asNat? with
    | none =>
      simp only [capturedOutput, hidx]
      exact .error (h _)
    | some index =>
      simp only [capturedOutput, hidx, pure_bind]
      cases swizzles[index]? with
      | none => exact .error (h _)
      | some name => exact .ok _

theorem prints_of_checked (h : op.Checked s.context.config s.resources) (hmem : op ∈ ops) :
    s.Prints (Error.Unchecked s.resources ops) op where
  toChecked := h
  writes d hd := by
    cases hw : d.isWritable with
    | true => exact .inl rfl
    | false => exact .inr (.invalidDestination hmem hd hw)
  reads o ho := by
    cases o with
    | constantBuffer slot offset =>
      rw [operand]
      cases hbuf : s.resources.constantBuffer? (s.resources.reservations.constantBuffers + slot) with
      | none => exact .error (.constantBuffer hmem ho hbuf)
      | some buffer => exact .ok _
    | label l => exact .error (.labelAsValue hmem ho)
    | _ => exact .ok _
  access hacc hio := by
    obtain ⟨v, location, vertex, component, rest, hsrc⟩ := h.accessSources hacc hio
    exact ⟨v, location, vertex, component, rest, hsrc,
      expressible_of_unsupported (fun access => .unsupportedIo access hmem hacc hio) ..⟩
  texture t ht := by
    cases htex : s.resources.texture? t.binding with
    | none => exact .inr (.texture hmem ht htex)
    | some texture => exact .inl rfl
  image i hi := by
    cases himg : s.resources.image? i.binding with
    | none => exact .inr (.image hmem hi himg)
    | some image => exact .inl rfl

end Scope
end Glsl

namespace Routine

variable {r r' : Routine} {ops : List Operation} {ids : Ids} {c : Config} {resources : Resources}

theorem Obeys.conditioned (h : r.Obeys (Operation.Checked c resources)) : r.Conditioned := by
  refine (holds_iff h.linked).2 fun b op hop hcond => ?_
  have hlen : op.sources.length = 2 := by
    rw [(h.holds b op hop).length_eq (by rintro hi; simp [hi, isConditionalBranch] at hcond)
      (by rintro hi; simp [hi, isConditionalBranch] at hcond)]
    revert hcond
    cases op.inst <;> simp [isConditionalBranch, arity]
  rw [Operation.source?, List.getElem?_eq_getElem (by omega)]
  rfl

theorem singleExitLoops_ne_missingCondition :
    singleExitLoops exit rounds r landings ≠ .error (.missingCondition b) := by
  induction rounds generalizing r landings with
  | zero => simp [singleExitLoops]
  | succ rounds ih =>
    unfold singleExitLoops
    split
    · next e hloops =>
      obtain ⟨u, v, rfl, -⟩ := Digraph.loops_eq_error hloops
      simp
    · split
      · simp
      · exact ih

theorem Conditioned.structured_ne (h : r.Conditioned) (hlink : r.WellLinked) (b : Nat) :
    r.structured ≠ .error (.missingCondition b) := by
  by_cases hemp : r.blocks.size = 0
  · unfold structured
    rw [if_pos (by simpa using hemp)]
    simp
  cases hroute : Routine.singleExitLoops r.exitBlock (r.blocks.size + 1) r [] with
  | error e =>
    unfold structured
    rw [if_neg (by simpa using hemp)]
    dsimp only
    rw [hroute]
    intro he
    have he : e = .missingCondition b := Except.error.inj he
    exact singleExitLoops_ne_missingCondition (he ▸ hroute)
  | ok result =>
    obtain ⟨r', loops⟩ := result
    obtain ⟨hlink, hcond⟩ := h.singleExitLoops hlink hroute
    intro he
    obtain he | ⟨b, hlv⟩ := structured_eq_error_of_routed (Nat.pos_of_ne_zero hemp) hroute he
    · cases he
    · obtain ⟨leave, hok⟩ := hcond.leave (s := r'.layout r.exitBlock loops) hlink b
      rw [hok] at hlv
      cases hlv

/-- Structuring a routine that the check accepts never misses a condition, and what it is
structured to has a text, but for what the check leaves open in its operations. -/
theorem check_sound (hr : ofOperations ops ids = .ok r) (hcheck : r.check c resources = .ok ()) :
    (∀ b, r.structured ≠ .error (.missingCondition b)) ∧
      ∀ p r', r.structured = .ok (p, r') → ∀ x : Glsl.Context, x.config = c → x.resources = resources →
        FailsOnly (Glsl.Error.Unchecked resources ops) (Glsl.source x r' p) := by
  have hlinked : r.WellLinked := .ofOperations hr
  have hobeys := hlinked.obeys_of_check hcheck
  refine ⟨hobeys.conditioned.structured_ne hlinked, fun p r' hstructured x hconfig hresources => ?_⟩
  subst hconfig hresources
  refine hlinked.failsOnly_source hstructured fun b op hop s hs => ?_
  subst hs
  exact Glsl.Scope.prints_of_checked (hobeys.holds b op hop) (mem_code_ofOperations hr hop)

/-- A vertex stage that captures no outputs. -/
def plainContext : Glsl.Context where
  config := { stage := .vertex }
  resources := (StageContext.ofProgram { blocks := [] } { stage := .vertex } {} {}).resources false
  usage := {}
  features := {}
  capabilities := {}
  api := .vulkan
  debug := false

/-- Copies an input to a constant where it is not zero. -/
def misdirected : List Operation :=
  [⟨.load, .input, some (.temp 0), [IoVariable.userDefined.operand, .word 0, .word 1]⟩,
    ⟨.branchIfFalse, .none, none, [.label 0, .temp 0]⟩,
    ⟨.copy, .none, some (.constant 7), [.temp 0]⟩,
    ⟨.markLabel, .none, none, [.label 0]⟩,
    ⟨.ret, .none, none, []⟩]

theorem check_sound_misdirected : ∃ r p r', ofOperations misdirected { temps := 1, labels := 1 } = .ok r ∧
    r.check plainContext.config plainContext.resources = .ok () ∧ r.structured = .ok (p, r') ∧
    Glsl.source plainContext r' p = .error (.invalidDestination .copy (.constant 7)) ∧
    Glsl.Error.Unchecked plainContext.resources misdirected (.invalidDestination .copy (.constant 7)) := by
  have hok : (ofOperations misdirected { temps := 1, labels := 1 }).toOption.any (fun r =>
      decide (r.check plainContext.config plainContext.resources = .ok ()) &&
        r.structured.toOption.any fun result => decide (Glsl.source plainContext result.2 result.1 =
          .error (.invalidDestination .copy (.constant 7)))) = true := by
    decide +kernel
  cases hr : ofOperations misdirected { temps := 1, labels := 1 } with
  | error e => simp [hr, Except.toOption] at hok
  | ok r =>
    simp only [hr, Except.toOption, Option.any_some, Bool.and_eq_true, decide_eq_true_eq] at hok
    obtain ⟨hcheck, hok⟩ := hok
    cases hs : r.structured with
    | error e => simp [hs] at hok
    | ok result =>
      simp only [hs, Option.any_some, decide_eq_true_eq] at hok
      exact ⟨r, result.1, result.2, rfl, hcheck, hs, hok,
        (check_sound hr hcheck).2 result.1 result.2 hs plainContext rfl rfl _ hok⟩

end Routine
end ShaderRecompiler
