import ShaderRecompiler.Proofs.Fitting
import ShaderRecompiler.Proofs.Structuring

/-! Writing operations as text. What the check accepts fails only at what the check does not
look at: an operand or destination without a text, and a texture, image or access that the
program cannot have. Operations that fit have a text, but for per-patch attributes whose
location is computed. -/
namespace ShaderRecompiler

open List Operation Instruction Stmt Check

variable {v : IoVariable} {i : Nat} {component location : Operand} {storage : Storage}

theorem exists_of_bind_eq_ok {ε α β : Type} {m : Except ε α} {f : α → Except ε β} {b : β} (h : (m >>= f) = .ok b) :
    ∃ a, m = .ok a ∧ f a = .ok b := by
  cases m with
  | error e => cases h
  | ok a => exact ⟨a, rfl, h⟩

/-- Every failure of `m` has a cause as in `E`. -/
def FailsOnly {ε α : Type} (E : ε → Prop) (m : Except ε α) : Prop := ∀ e, m = .error e → E e

namespace FailsOnly

theorem ok (a : α) : FailsOnly E (.ok a) := nofun

theorem error (h : E e) : FailsOnly (α := α) E (.error e) := by
  rintro _ ⟨⟩
  exact h

theorem bind {f : α → Except ε β} (hm : FailsOnly E m) (hf : ∀ a, FailsOnly E (f a)) :
    FailsOnly E (m >>= f) := by
  cases m with
  | ok a => exact hf a
  | error e => exact error (hm e rfl)

theorem map (hm : FailsOnly E m) : FailsOnly E (m.map f) := by
  cases m with
  | ok a => exact ok _
  | error e => exact error (hm e rfl)

theorem ite {_ : Decidable p} (hm : FailsOnly E m) (hm' : FailsOnly E m') :
    FailsOnly E (if p then m else m') := by
  split <;> assumption

theorem mapM {xs : List α} (h : ∀ x ∈ xs, FailsOnly E (f x)) :
    FailsOnly E (xs.mapM f) := by
  induction xs with
  | nil => exact ok []
  | cons x xs ih =>
    obtain ⟨hx, hxs⟩ := forall_mem_cons.1 h
    rw [mapM_cons]
    exact bind hx fun _ => bind (ih hxs) fun _ => ok _

end FailsOnly

/-- The constant buffer that an operand reads is declared. -/
def Operand.ConstantDeclared (r : Resources) (o : Operand) : Prop :=
  ∀ slot offset, o = .constantBuffer slot offset →
    (r.constantBuffer? (r.reservations.constantBuffers + slot)).isSome

theorem Operand.ConstantDeclared.mono {r : Resources} (h : r.Extends r') {o : Operand}
    (ho : o.ConstantDeclared r) : o.ConstantDeclared r' := by
  intro slot offset heq
  obtain ⟨b, hb⟩ := Option.isSome_iff_exists.1 (ho slot offset heq)
  rw [h.reservations, h.constantBuffer hb]
  rfl

namespace Glsl.Scope

variable {s : Scope} {E : Error → Prop} {op : Operation} {o : Operand}

/-- An operand that has a text. -/
structure Reads (s : Scope) (o : Operand) : Prop where
  isLabel : o.isLabel = false
  constantDeclared : o.ConstantDeclared s.resources

theorem Reads.operand (h : s.Reads o) : FailsOnly E (s.operand o) := by
  cases o with
  | constantBuffer slot offset =>
    obtain ⟨b, hb⟩ := Option.isSome_iff_exists.1 (h.constantDeclared slot offset rfl)
    rw [Scope.operand, hb]
    exact .ok _
  | label => cases h.isLabel
  | _ => exact .ok _

theorem failsOnly_operandAs (h : FailsOnly E (s.operand o)) (type : ValueType) :
    FailsOnly E (s.operandAs type o) := by
  unfold Scope.operandAs
  split
  · exact .ok _
  · exact .map h

section Sources

variable (h : ∀ o ∈ op.sources, FailsOnly E (s.operand o))

include h

theorem failsOnly_sourceAs (hi : i < op.sources.length) (type : ValueType) :
    FailsOnly E (s.sourceAs op type i) := by
  have hsrc : op.source? i = some op.sources[i] := getElem?_eq_getElem hi
  rw [sourceAs, hsrc]
  exact failsOnly_operandAs (h _ (getElem_mem hi)) type

theorem failsOnly_sourcesAs {count : Nat} (hcount : first + count ≤ op.sources.length)
    (type : ValueType) : FailsOnly E (s.sourcesAs op type first count) :=
  .mapM fun _ hi => by
    have := mem_range.1 hi
    exact failsOnly_sourceAs h (by omega) type

theorem failsOnly_indices {stop : Nat} (hstop : first ≤ stop ∧ stop ≤ op.sources.length ∨ stop ≤ first) :
    FailsOnly E (s.indices op first stop) := by
  refine .bind (.mapM fun _ hi => ?_) fun _ => .ok _
  have := mem_range.1 hi
  exact failsOnly_sourceAs h (by omega) .u32

theorem failsOnly_binary (hlen : 2 ≤ op.sources.length) (symbol : String) (left right : ValueType) :
    FailsOnly E (s.binary op symbol left right) :=
  .bind (failsOnly_sourceAs h (by omega) left) fun _ =>
    .bind (failsOnly_sourceAs h (by omega) right) fun _ => .ok _

theorem failsOnly_call {types : List ValueType} (hlen : types.length ≤ op.sources.length) (name : String) :
    FailsOnly E (s.call op name types) := by
  refine .bind (.mapM fun ⟨type, i⟩ hi => ?_) fun _ => .ok _
  have := snd_lt_of_mem_zipIdx hi
  exact failsOnly_sourceAs h (by omega) type

theorem failsOnly_coordinates {sampler : Sampler} (hlen : sampler.coordinates ≤ op.sources.length)
    (type : ValueType) : FailsOnly E (s.coordinates op sampler type) :=
  .bind (failsOnly_sourcesAs h (by omega) type) fun _ => .ok _

theorem failsOnly_textureSample {t : TextureOp}
    (ht : (s.resources.texture? t.binding).isSome ∨ E (.undeclared .texture t.binding))
    (hlen : op.sources.length = t.sampler.coordinates + t.lod.toNat) :
    FailsOnly E (s.textureSample op t) := by
  have hcoord : ∀ type, FailsOnly E (s.coordinates op t.sampler type) :=
    failsOnly_coordinates h (by omega)
  have hlod : t.lod → ∀ type, FailsOnly E (s.sourceAs op type t.sampler.coordinates) := by
    intro hl
    rw [hl] at hlen
    exact failsOnly_sourceAs h (by rw [hlen]; exact Nat.lt_succ_self _)
  unfold textureSample
  cases htex : s.resources.texture? t.binding with
  | none => exact .error (ht.resolve_left (by simp [htex]))
  | some texture => ?_
  dsimp only
  split
  · exact .bind (hcoord .s32) fun _ => .ok _
  split
  · refine .bind (hcoord .s32) fun _ => ?_
    split
    · next hl => exact .bind (hlod hl .s32) fun _ => .ok _
    · exact .ok _
  · refine .bind (hcoord .f32) fun _ => ?_
    split
    · next hl => exact .bind (hlod hl .f32) fun _ => .ok _
    · exact .ok _

end Sources

theorem failsOnly_imageName
    (hi : (s.resources.image? binding).isSome ∨ E (.undeclared .image binding)) :
    FailsOnly E (s.imageName binding) := by
  unfold imageName
  cases himg : s.resources.image? binding with
  | none => exact .error (hi.resolve_left (by simp [himg]))
  | some image => exact .ok _

theorem failsOnly_computed (h : ∀ o ∈ op.sources, FailsOnly E (s.operand o)) (hp : op.inst.isPlain)
    (hd : op.inst.hasDestination) (hcopy : op.inst ≠ .copy) (hlen : op.sources.length = op.inst.arity) :
    FailsOnly E (s.computed op) := by
  obtain ⟨inst, storage, dest, sources⟩ := op
  have hsrc : ∀ i < inst.arity, ∀ type, FailsOnly E (s.sourceAs ⟨inst, storage, dest, sources⟩ type i) :=
    fun i hi => failsOnly_sourceAs h (Nat.lt_of_lt_of_eq hi hlen.symm)
  have hlen : inst.arity ≤ sources.length := Nat.le_of_eq hlen.symm
  cases inst with
  | add | subtract | multiply | divide | bitwiseAnd | bitwiseOr | bitwiseExclusiveOr | shiftLeft
  | shiftRightS32 | shiftRightU32 | compare | logicalAnd | logicalOr | logicalExclusiveOr =>
    exact failsOnly_binary h hlen _ _ _
  | negate | bitwiseNot | logicalNot => exact .map (hsrc 0 (by simp [arity]) _)
  | absolute type =>
    cases type with
    | u32 => exact hsrc 0 (by simp [arity]) _
    | s32 | f32 => exact failsOnly_call h (by exact hlen) _
  | minimum | maximum | fusedMultiplyAdd | bitCount | convertFP32ToS32 | convertFP32ToU32
  | convertS32ToFP32 | convertU32ToFP32 | multiplyHighS32 | multiplyHighU32 | shuffle | shuffleDown
  | shuffleUp | shuffleXor | swizzleAdd => exact failsOnly_call h (by exact hlen) _
  | conditionalSelect =>
    have hsrc : ∀ i < 3, ∀ type, FailsOnly E (s.sourceAs _ type i) := hsrc
    exact .bind (hsrc 0 (by decide) _) fun _ => .bind (hsrc 1 (by decide) _) fun _ =>
      .bind (hsrc 2 (by decide) _) fun _ => .ok _
  | copy => exact absurd rfl hcopy
  | barrier | discard | emitVertex | endPrimitive => cases hd
  | load | store | textureSample | imageLoad | imageStore | branch | branchIfTrue | branchIfFalse | markLabel
  | ret => cases hp

theorem failsOnly_assignment {inst : Instruction} {dest : Operand}
    (hw : dest.isWritable ∨ E (.invalidDestination inst dest)) (v : Value) :
    FailsOnly E (s.assignment inst dest v) := by
  cases dest with
  | temp | register | predicate | var => exact .ok _
  | constant | constantBuffer | label | undefined => exact .error (hw.resolve_left nofun)

/-! Loads and stores. -/

section Element

variable {stop n : Nat}

theorem bufferSources_ok
    (h : bufferSources op kind ((op.place? 0).bind find) = .ok n) :
    ∃ id b index field, op.place? 0 = some id ∧ find id = some b ∧ op.place? 1 = some index ∧
      b.fields[index]? = some field := by
  unfold bufferSources at h
  cases hid : op.place? 0 with
  | none => simp [hid] at h
  | some id =>
    cases hb : find id with
    | none => simp [hid, hb] at h
    | some b =>
      cases hidx : op.place? 1 with
      | none => simp [hid, hb, hidx] at h
      | some index =>
        cases hfld : b.fields[index]? with
        | none => simp [hid, hb, hidx, hfld] at h
        | some field => exact ⟨id, b, index, field, rfl, hb, rfl, hfld⟩

theorem memorySources_ok
    (h : memorySources op kind ((op.place? 0).bind find) = .ok n) :
    ∃ id m, op.place? 0 = some id ∧ find id = some m := by
  unfold memorySources at h
  cases hid : op.place? 0 with
  | none => simp [hid] at h
  | some id =>
    cases hm : find id with
    | none => simp [hid, hm] at h
    | some m => exact ⟨id, m, rfl, hm⟩

theorem place_eq (h : op.place? i = some n) : place op i = .ok n := by
  rw [place, h]

theorem failsOnly_index {o : Option Operand} (h : ∀ x, o = some x → FailsOnly E (s.operand x)) :
    FailsOnly E (s.index o) := by
  cases o with
  | none => exact .ok _
  | some o => exact .map (failsOnly_operandAs (h o rfl) .u32)

theorem failsOnly_componentSuffix {o : Option Operand} (h : ∀ x, o = some x → FailsOnly E (s.operand x)) :
    FailsOnly E (s.componentSuffix o) := by
  unfold componentSuffix
  split
  · exact .ok _
  · exact failsOnly_index h

/-- An access that GLSL can express, but for the failures in `E`. -/
structure Expressible (E : Error → Prop) (storage : Storage) (v : IoVariable) (location component : Operand) :
    Prop where
  color : v = .fragmentOutputColor → location.asNat? = none → E (.unsupportedIo .dynamicColor)
  patch : v = .userDefined → storage.isPerPatch → location.asNat? = none →
    E (.unsupportedIo .dynamicPatchLocation)
  output : v = .userDefined → storage.isOutput → ∀ n, location.asNat? = some n → ∀ run,
    FailsOnly E (capturedOutput n run (some component))

section Access

variable {a : Access}
  (hl : ∀ o, a.location = some o → FailsOnly E (s.operand o))
  (hv : ∀ o, a.vertex = some o → FailsOnly E (s.operand o))
  (hc : ∀ o, a.component = some o → FailsOnly E (s.operand o))

include hl hv hc

theorem failsOnly_userAttribute (hcap : storage.isOutput → ∀ n, a.location? = some n → ∀ run,
      FailsOnly E (capturedOutput n run a.component)) :
    FailsOnly E (s.userAttribute storage a) := by
  refine .bind (failsOnly_index hv) fun _ => .bind (failsOnly_componentSuffix hc) fun _ => ?_
  split
  · exact .bind (failsOnly_index hl) fun _ => .ok _
  · next location hloc =>
    split
    · next run hrun =>
      have houtput : storage.isOutput := by
        by_contra hout
        simp [hout] at hrun
      exact hcap houtput location (Option.filter_eq_some_iff.1 hloc).1 run
    · exact .ok _

omit hl in
theorem failsOnly_builtinAccess : FailsOnly E (s.builtinAccess storage a) := by
  exact .bind (failsOnly_index hv) fun _ =>
    .ite (.bind (failsOnly_index hc) fun _ => .ok _) (.bind (failsOnly_componentSuffix hc) fun _ => .ok _)

end Access

theorem failsOnly_access
    (ha : Expressible E storage v location component) {hasVertex : Bool}
    (hl : v.hasLocation → FailsOnly E (s.operand location))
    (hv : hasVertex → FailsOnly E (s.operand vertex))
    (hc : v.hasComponent → FailsOnly E (s.operand component)) :
    FailsOnly E (s.access storage
      { io := v
        location := if v.hasLocation then some location else none
        vertex := if hasVertex then some vertex else none
        component := if v.hasComponent then some component else none }) := by
  have hopt : ∀ {p : Bool} {o : Operand}, (p → FailsOnly E (s.operand o)) →
      ∀ y, (if p then some o else none) = some y → FailsOnly E (s.operand y) := by
    intro p o ho y hy
    cases p
    · cases hy
    · exact Option.some.inj hy ▸ ho rfl
  have hloc := hopt hl
  have hvtx := hopt hv
  have hcomp := hopt hc
  unfold access
  split
  · next hio =>
    obtain rfl : v = .userDefined := hio
    split
    · next hpat =>
      split
      · next hnone => exact .error (ha.patch rfl hpat hnone)
      · exact .map (failsOnly_componentSuffix hcomp)
    · exact failsOnly_userAttribute hloc hvtx hcomp (ha.output rfl)
  · next hio =>
    obtain rfl : v = .fragmentOutputColor := hio
    split
    · next hnone => exact .error (ha.color rfl hnone)
    · exact .map (failsOnly_componentSuffix hcomp)
  · exact failsOnly_builtinAccess hvtx hcomp

variable (hcount : elementSources s.context.config s.resources op = .ok n)
  (h : ∀ o ∈ op.sources, FailsOnly E (s.operand o)) (hstop : stop ≤ op.sources.length)

include hcount h hstop

theorem failsOnly_bufferElement (hstor : op.storage = .constantBuffer ∨ op.storage = .storageBuffer) :
    FailsOnly E (s.bufferElement op stop) := by
  have hidxs : FailsOnly E (s.indices op 2 stop) := failsOnly_indices h (by omega)
  have hcount : ∃ id b index field, op.place? 0 = some id ∧
      (if op.storage = .constantBuffer then (ResourceKind.constantBuffer, s.resources.constantBuffer? id)
        else (.storageBuffer, s.resources.storageBuffer? id)).2 = some b ∧
      op.place? 1 = some index ∧ b.fields[index]? = some field := by
    unfold elementSources at hcount
    obtain hstor | hstor := hstor <;> simp only [hstor] at hcount ⊢
    · split at hcount
      · cases hcount
      exact bufferSources_ok hcount
    · exact bufferSources_ok hcount
  obtain ⟨id, b, index, field, hid, hb, hidx, hfld⟩ := hcount
  rw [bufferElement, place_eq hid, place_eq hidx]
  dsimp only [bind, Except.bind]
  rw [hb]
  dsimp only
  rw [hfld]
  exact .bind hidxs fun _ => .ok _

theorem failsOnly_memoryElement (hstor : op.storage = .localMemory ∨ op.storage = .sharedMemory) :
    FailsOnly E (s.memoryElement op stop) := by
  have hidxs : FailsOnly E (s.indices op 1 (min stop 2)) := failsOnly_indices h (by omega)
  have hcount : ∃ id m, op.place? 0 = some id ∧
      (if op.storage = .localMemory then (ResourceKind.localMemory, s.resources.localMemory? id)
        else (.sharedMemory, s.resources.sharedMemory? id)).2 = some m := by
    unfold elementSources at hcount
    obtain hstor | hstor := hstor <;> simp only [hstor] at hcount ⊢
    · exact memorySources_ok hcount
    · exact memorySources_ok hcount
  obtain ⟨id, m, hid, hm⟩ := hcount
  rw [memoryElement, place_eq hid]
  dsimp only [bind, Except.bind]
  rw [hm]
  exact .bind hidxs fun _ => .ok _

theorem failsOnly_element (hacc : op.storage.isIo → ∃ v location vertex component rest,
      op.sources = s.context.config.accessSources op.storage v location vertex component ++ rest ∧
        Expressible E op.storage v location component) :
    FailsOnly E (s.element op stop) := by
  by_cases hio : op.storage.isIo
  · obtain ⟨v, location, vertex, component, rest, hsrc, hexpressible⟩ := hacc hio
    have hmem : ∀ o ∈ s.context.config.accessSources op.storage v location vertex component,
        FailsOnly E (s.operand o) := by
      intro o ho
      exact h o (hsrc ▸ mem_append_left _ ho)
    have helt : s.element op stop = do
        let access ← Access.ofOperation s.context.config op
        let text ← s.access op.storage access
        return ⟨text, access.type s.context op.storage⟩ := by
      unfold element
      revert hio
      cases op.storage <;> simp [Storage.isIo, Storage.isInput, Storage.isOutput]
    rw [helt, ofOperation_eq hio hsrc]
    change FailsOnly E (s.access op.storage _ >>= fun _ => _)
    refine .bind (failsOnly_access hexpressible ?_ ?_ ?_) fun _ => .ok _
    all_goals
      intro hhas
      exact hmem _ (by simp [Config.accessSources, hhas])
  · have hstor : op.storage ≠ .none := by
      intro hnone
      rw [elementSources, hnone] at hcount
      cases hcount
    unfold element
    split
    · next hbuf => exact failsOnly_bufferElement hcount h hstop (.inl hbuf)
    · next hbuf => exact failsOnly_bufferElement hcount h hstop (.inr hbuf)
    · next hmemory => exact failsOnly_memoryElement hcount h hstop (.inl hmemory)
    · next hmemory => exact failsOnly_memoryElement hcount h hstop (.inr hmemory)
    iterate 4 · next hinterface => simp [hinterface, Storage.isIo, Storage.isInput, Storage.isOutput] at hio
    · next hnone => exact absurd hnone hstor

end Element

/-- An operation that the check accepts, and that has a text but for the failures in `E`. -/
structure Prints (s : Scope) (E : Error → Prop) (op : Operation) : Prop
    extends op.Checked s.context.config s.resources where
  writes : ∀ d, op.dest = some d → d.isWritable ∨ E (.invalidDestination op.inst d)
  reads : ∀ o ∈ op.values, FailsOnly E (s.operand o)
  access : op.inst = .load ∨ op.inst = .store → op.storage.isIo → ∃ v location vertex component rest,
    op.sources = s.context.config.accessSources op.storage v location vertex component ++ rest ∧
      Expressible E op.storage v location component
  texture : ∀ t, op.inst = .textureSample t →
    (s.resources.texture? t.binding).isSome ∨ E (.undeclared .texture t.binding)
  image : ∀ i, op.inst = .imageLoad i ∨ op.inst = .imageStore i →
    (s.resources.image? i.binding).isSome ∨ E (.undeclared .image i.binding)

namespace Prints

variable (hop : s.Prints E op)

include hop

theorem sources (hstr : op.inst.isStraight) : ∀ o ∈ op.sources, FailsOnly E (s.operand o) := by
  rw [← values_of_straight hstr]
  exact hop.reads

theorem storeLine (hi : op.inst = .store) : FailsOnly E (s.storeLine op) := by
  have h := hop.sources (by rw [hi]; rfl)
  obtain ⟨n, hn, hlen⟩ := hop.elementSources_store hi
  refine .bind (failsOnly_element hn h (Nat.sub_le ..) (hop.access (.inr hi))) fun _ => ?_
  split
  · next hlast =>
    rw [getLast?_eq_none_iff.1 hlast] at hlen
    cases hlen
  · next o hlast => exact .bind (failsOnly_operandAs (h o (mem_of_getLast? hlast)) _) fun _ => .ok _

theorem imageStoreLine {i : ImageOp} (hi : op.inst = .imageStore i) : FailsOnly E (s.imageStoreLine op i) := by
  have h := hop.sources (by rw [hi]; rfl)
  have hlen : op.sources.length = i.sampler.coordinates + 4 := by
    rw [hop.length_eq (by simp [hi]) (by simp [hi]), hi]
    rfl
  exact .bind (failsOnly_imageName (hop.image i (.inr hi))) fun _ =>
    .bind (failsOnly_coordinates h (by omega) _) fun _ =>
      .bind (failsOnly_sourcesAs h (by omega) _) fun _ => .ok _

theorem value (hp : op.inst.isStraight) (hd : op.inst.hasDestination) : FailsOnly E (s.value op) := by
  have h := hop.sources hp
  have hlen : op.inst ≠ .load → op.sources.length = op.inst.arity := by
    intro hl
    exact hop.length_eq hl (by rintro hi; simp [hi, hasDestination] at hd)
  unfold Scope.value
  split
  · next hi =>
    have hone : op.sources.length = 1 := by
      rw [hlen (by simp [hi]), hi]
      rfl
    obtain ⟨o, ho⟩ := length_eq_one_iff.1 hone
    rw [source?, ho]
    exact h o (by simp [ho])
  · next hi => exact failsOnly_element (hop.elementSources_load hi) h (Nat.le_refl _) (hop.access (.inl hi))
  · next hcopy hload =>
    have hlen := hlen hload
    refine .map ?_
    by_cases hpln : op.inst.isPlain
    · exact failsOnly_computed h hpln hd hcopy hlen
    cases hi : op.inst with
    | textureSample t =>
      rw [computed, hi]
      rw [hi] at hlen
      exact failsOnly_textureSample h (hop.texture t hi) hlen
    | imageLoad i =>
      rw [computed, hi]
      rw [hi] at hlen
      exact .bind (failsOnly_imageName (hop.image i (.inl hi))) fun _ =>
        .bind (failsOnly_coordinates h (Nat.le_of_eq hlen.symm) _) fun _ => .ok _
    | load => exact absurd hi hload
    | store | imageStore => simp [hi, hasDestination] at hd
    | _ => simp [hi, isPlain, isStraight] at hp hpln

theorem operation : FailsOnly E (s.operation op) := by
  unfold Scope.operation
  split
  · next hi => exact hop.storeLine hi
  · next i hi => exact hop.imageStoreLine hi
  iterate 9 exact .ok _
  · split
    · exact .ok _
    · next dest hdest =>
      have hd : op.inst.hasDestination := by
        rw [← hop.dest, hdest]
        rfl
      have hstr : op.inst.isStraight := by
        revert hd
        cases op.inst <;> simp [hasDestination, isStraight]
      exact .bind (hop.value hstr hd) fun v => failsOnly_assignment (hop.writes dest hdest) v

end Prints

/-- A scope whose declarations extend those of a setting. -/
structure Sees (s : Scope) (x : Setting) : Prop where
  config : s.context.config = x.config
  resources : x.resources.Extends s.resources

theorem failsOnly_capturedOutput {location run : Nat} (hi : i < 4) (ho : o.asNat? = some i) :
    FailsOnly E (capturedOutput location run (some o)) := by
  have hname : swizzles[i]? = some swizzles[i] := getElem?_eq_getElem hi
  simp only [capturedOutput, ho, pure_bind, hname]
  exact .ok _

theorem expressible_of_allows {x : Setting}
    (ha : x.Allows storage v location component) (hE : x.Admits E) :
    Expressible E storage v location component where
  color hv hnone := by simpa [hnone] using ha.color hv
  patch hv hpat hnone := hE.patch ((ha.patch hv hpat).resolve_left (by simp [hnone]))
  output hv hout n hn run := by
    obtain ⟨i, hi, hnat⟩ := ha.output hv hout (by simp [hn])
    exact failsOnly_capturedOutput hi hnat

theorem prints_of_fits (hs : s.Sees x) (hE : x.Admits E) (hop : op.Fits x)
    (hdecl : ∀ o ∈ op.operands, o.ConstantDeclared s.resources) : s.Prints E op where
  toChecked := hop.toChecked.mono (congrArg _ hs.config) hs.resources
  writes d hd := .inl (hop.writable d hd)
  reads o ho := by
    have hread : s.Reads o := ⟨hop.values o ho, hdecl o (mem_append_right _ (op.values_subset ho))⟩
    exact hread.operand
  access hinst hio := by
    obtain ⟨v, location, vertex, component, rest, hsrc, ha⟩ := hop.access hinst hio
    rw [hs.config]
    exact ⟨v, location, vertex, component, rest, hsrc, expressible_of_allows ha hE⟩
  texture t ht := (hop.texture t ht).imp (Resources.isSome_texture?_mono hs.resources) (hE.texture t.binding)
  image i hi := .inl (Resources.isSome_image?_mono hs.resources (hop.image i hi))

end Glsl.Scope

/-! Statements. -/

namespace Stmt

variable {P : OpId → Prop} {T : Operand → Prop}

mutual

/-- Its operations are as in `P` and its tests as in `T`. -/
def Covered (P : OpId → Prop) (T : Operand → Prop) : Stmt → Prop
  | op id => P id
  | cond test _ thenBody elseBody => T test ∧ CoveredAll P T thenBody ∧ CoveredAll P T elseBody
  | loop body => CoveredAll P T body
  | breakLoop | continueLoop | ret => True

def CoveredAll (P : OpId → Prop) (T : Operand → Prop) : List Stmt → Prop
  | [] => True
  | stmt :: rest => Covered P T stmt ∧ CoveredAll P T rest

end

theorem coveredAll_iff : CoveredAll P T body ↔ ∀ stmt ∈ body, Covered P T stmt := by
  induction body with
  | nil => simp [CoveredAll]
  | cons stmt body ih => rw [CoveredAll, ih, forall_mem_cons]

theorem coveredAll_append :
    CoveredAll P T (xs ++ ys) ↔ CoveredAll P T xs ∧ CoveredAll P T ys := by
  simp only [coveredAll_iff, forall_mem_append]

theorem CoveredAll.dropFinal (h : CoveredAll P T body) (isFinal : Stmt → Bool) :
    CoveredAll P T (dropFinal isFinal body) := by
  obtain heq | ⟨init, last, -, rfl, heq⟩ := dropFinal_cases isFinal body
  · rwa [heq]
  · rw [heq]
    exact (coveredAll_append.1 h).1

theorem CoveredAll.branching (htest : T test)
    (hyes : CoveredAll P T yes) (hno : CoveredAll P T no) (invert meets : Bool) :
    CoveredAll P T (branching test invert meets yes no) := by
  unfold Stmt.branching
  split
  · trivial
  · simp [CoveredAll, Covered, htest, hno]
  · split <;> simp [CoveredAll, Covered, htest, hyes, hno]

end Stmt

variable {s : Layout}

theorem Layout.Writes.covered {loops : List Loop} (h : s.Writes start stop loops entering body n)
    (hP : ∀ b, ∀ id ∈ s.routine.blockOps b, P id) (hT : ∀ b cond invert, s.leave b = .ok (.test cond invert) → T cond) :
    CoveredAll P T body := by
  have hpln : ∀ b, CoveredAll P T (s.plainOps b) := by
    intro b
    refine coveredAll_iff.2 fun _ hstmt => ?_
    obtain ⟨id, hid, rfl⟩ := mem_map.1 hstmt
    exact hP b id (mem_filter.1 hid).1
  induction h with
  | nowhere | arrived => trivial
  | jump _ hjump =>
    obtain ⟨l, outer, rfl, ⟨rfl, -, -⟩ | ⟨rfl, -⟩⟩ := jump?_eq_some hjump <;> exact ⟨trivial, trivial⟩
  | loop _ _ _ _ _ ihbody ihrest => exact ⟨ihbody.dropFinal _, ihrest⟩
  | @ret b => exact coveredAll_append.2 ⟨hpln b, trivial, trivial⟩
  | @goto b _ _ _ _ _ _ _ _ _ _ _ ihrest => exact coveredAll_append.2 ⟨hpln b, ihrest⟩
  | @test b _ _ _ cond invert _ _ _ _ _ _ _ _ _ hlv _ _ _ ihyes ihno ihrest =>
    have htest := hT b cond invert hlv
    exact coveredAll_append.2
      ⟨coveredAll_append.2 ⟨hpln b, .branching htest ihyes ihno _ _⟩, ihrest⟩

theorem Layout.source_of_leave {cond : Operand} (h : s.leave b = .ok (.test cond invert)) :
    ∃ op, s.terminator? b = some op ∧ op.source? 1 = some cond := by
  unfold leave at h
  dsimp only at h
  split at h
  · cases h
  · next op hterm =>
    refine ⟨op, hterm, ?_⟩
    split at h
    · cases h
    · cases h
    · split at h
      · next hsrc =>
        obtain ⟨rfl, -⟩ := Leave.test.inj (Except.ok.inj h)
        exact hsrc
      · cases h

theorem Layout.mem_values_of_leave {cond : Operand}
    (h : s.leave b = .ok (.test cond invert)) : ∃ op ∈ s.routine.code b, cond ∈ op.values := by
  obtain ⟨op, hterm, hsrc⟩ := source_of_leave h
  obtain ⟨hmem, hterminator⟩ := mem_of_terminator? hterm
  refine ⟨op, hmem, ?_⟩
  rw [values, isStraight_of_isTerminator hterminator]
  refine mem_iff_getElem?.2 ⟨0, ?_⟩
  rw [← hsrc]
  exact getElem?_drop

namespace Glsl.Scope

variable {s : Scope} {r : Routine}

mutual

theorem failsOnly_statement (stmt : Stmt)
    (h : stmt.Covered (fun id => FailsOnly E (s.operation (r.op id))) fun o => FailsOnly E (s.operand o)) :
    FailsOnly E (s.statement r stmt) := by
  cases stmt with
  | op id => exact h
  | cond test invert yes no =>
    obtain ⟨htest, hyes, hno⟩ := h
    exact .bind (failsOnly_operandAs htest .bool) fun _ => .bind (failsOnly_statements yes hyes) fun _ =>
      .bind (failsOnly_statements no hno) fun _ => .ok _
  | loop body => exact .bind (failsOnly_statements body h) fun _ => .ok _
  | breakLoop | continueLoop | ret => exact .ok _

theorem failsOnly_statements (body : List Stmt)
    (h : CoveredAll (fun id => FailsOnly E (s.operation (r.op id))) (fun o => FailsOnly E (s.operand o)) body) :
    FailsOnly E (s.statements r body) := by
  cases body with
  | nil => exact .ok _
  | cons stmt rest =>
    exact .bind (failsOnly_statement stmt h.1) fun _ => .bind (failsOnly_statements rest h.2) fun _ => .ok _

end

theorem failsOnly_written {layout : Layout} (hops : ∀ b, ∀ op ∈ layout.routine.code b, s.Prints E op)
    (hwrites : layout.Writes (some 0) none [] false body n) (isFinal : Stmt → Bool) :
    FailsOnly E (s.statements layout.routine (dropFinal isFinal body)) := by
  refine failsOnly_statements _ (CoveredAll.dropFinal (hwrites.covered ?_ ?_) isFinal)
  · exact fun b _ hid => (hops b _ (mem_map_of_mem hid)).operation
  · intro b cond invert hlv
    obtain ⟨op, hmem, hcond⟩ := Layout.mem_values_of_leave hlv
    exact (hops b op hmem).reads cond hcond

end Glsl.Scope

/-! Constant buffers are declared last, for the operands that read them. -/

namespace Compilation

theorem useConstants_spec (r : Resources) (o : Operand) :
    r.Extends (useConstants r o) ∧ o.ConstantDeclared (useConstants r o) := by
  cases o with
  | constantBuffer slot offset =>
    refine ⟨r.extends_useConstantBuffer slot, ?_⟩
    rintro _ _ ⟨⟩
    exact Resources.isSome_find?_addNew rfl
  | _ => exact ⟨.refl r, nofun⟩

theorem foldl_useConstants_spec (os : List Operand) (r : Resources) :
    r.Extends (os.foldl useConstants r) ∧ ∀ o ∈ os, o.ConstantDeclared (os.foldl useConstants r) := by
  induction os generalizing r with
  | nil => exact ⟨.refl r, by simp⟩
  | cons o os ih =>
    obtain ⟨hext, ho⟩ := useConstants_spec r o
    obtain ⟨hrest, hos⟩ := ih (useConstants r o)
    exact ⟨hext.trans hrest, forall_mem_cons.2 ⟨ho.mono hrest, hos⟩⟩

theorem declareConstants_spec {routine : Routine} (hlink : routine.WellLinked) (r : Resources) :
    r.Extends (declareConstants r routine) ∧
      ∀ b, ∀ op ∈ routine.code b, ∀ o ∈ op.operands, o.ConstantDeclared (declareConstants r routine) := by
  obtain ⟨hext, hdecl⟩ := foldl_useConstants_spec
    (routine.allOps.flatMap fun x => (routine.op x.2).operands) r
  refine ⟨hext, ?_⟩
  rw [← Routine.holds_iff hlink]
  intro v hv op hop o ho
  obtain ⟨b, hb, rfl⟩ := Routine.mem_views.1 hv
  obtain ⟨id, hid, rfl⟩ := mem_map.1 hop
  exact hdecl o (mem_flatMap.2 ⟨(b, id), Routine.mem_allOps.2 ⟨hb, hid⟩, ho⟩)

end Compilation
end ShaderRecompiler
