import ShaderRecompiler.Proofs.Listing

/-! The scan of a program against what the program is lowered to. The scan runs before
any operation exists and sizes the stage interface; lowering walks the same instructions
again and emits the accesses. Both are described by the findings of an instruction: what
the scan adds for it, and what the operations of its piece need. -/
namespace ShaderRecompiler

open List Operation Attribute IoVariable Emit

open Guest (Finding)

namespace Operation

def isAccess (op : Operation) : Bool := op.inst == .load || op.inst == .store

/-- The constant component of an access. -/
def component? (op : Operation) : Option Nat := op.componentIndex?.bind op.place?

def findings (op : Operation) : List Finding :=
  if op.isAccess then
    match op.storage with
    | .localMemory => [.localMemory]
    | .sharedMemory => [.sharedMemory]
    | storage => op.ioVariable?.elim [] fun v => v.findings storage (op.place? 1) op.component?
  else []

end Operation

/-! What the operations of an instruction need. -/

/-- In what `m` appends `view` sees `seen`, and the result of `m` is in `Q`. -/
def Emit.Shows {α β : Type} (view : Operation → List β) (m : Emit α) (seen : List β) (Q : α → Prop) : Prop :=
  ∀ e : Emitter, Q (m.run e).1 ∧
    ∃ added, (m.run e).2.ops.toList = e.ops.toList ++ added ∧ added.flatMap view = seen

namespace Emit.Shows

variable {β : Type} {Q : α → Prop}

theorem pure {a : α} (h : Q a) : Shows view (Pure.pure a) [] Q :=
  fun _ => ⟨h, [], (append_nil _).symm, rfl⟩

theorem bind (hm : Shows view m seen Q) (hf : ∀ a, Q a → Shows view (f a) seen' R) :
    Shows view (m >>= f) (seen ++ seen') R := by
  intro e
  obtain ⟨hq, added, hops, hseen⟩ := hm e
  obtain ⟨hr, added', hops', hseen'⟩ := hf _ hq (m.run e).2
  refine ⟨hr, added ++ added', ?_, by rw [flatMap_append, hseen, hseen']⟩
  rw [← append_assoc, ← hops]
  exact hops'

theorem after (hm : Shows view m [] Q) (hf : ∀ a, Q a → Shows view (f a) seen R) : Shows view (m >>= f) seen R :=
  bind hm hf

theorem mono (h : Shows view m seen Q) {Q' : α → Prop} (hq : ∀ a, Q a → Q' a) : Shows view m seen Q' :=
  fun e => ⟨hq _ (h e).1, (h e).2⟩

theorem map (h : Shows view m seen Q) (g : α → β) (hr : ∀ a, Q a → R (g a)) : Shows view (g <$> m) seen R :=
  fun e => ⟨hr _ (h e).1, (h e).2⟩

theorem ite {m' : Emit α} {_ : Decidable p} (ht : p → Shows view m seen Q)
    (he : ¬p → Shows view m' seen Q) : Shows view (if p then m else m') seen Q := by
  split
  · next h => exact ht h
  · next h => exact he h

theorem when {m : Emit Unit} {_ : Decidable p}
    (hm : Shows view m [] fun _ => True) (hrest : Shows view (rest ()) seen R) :
    Shows view (if p then m >>= rest else rest ()) seen R :=
  ite (fun _ => after hm fun _ _ => hrest) fun _ => hrest

theorem forM {xs : List α}
    (h : ∀ x ∈ xs, Shows view (g x) (seenAt x) fun _ => True) :
    Shows view (xs.forM g) (xs.flatMap seenAt) fun _ => True := by
  induction xs with
  | nil => exact pure trivial
  | cons x xs ih => exact bind (h x mem_cons_self) fun _ _ => ih fun y hy => h y (mem_cons_of_mem _ hy)

theorem op (operation : Operation) : Shows view (op operation) (view operation) fun _ => True :=
  fun _ => ⟨trivial, [operation], Array.toList_push, by simp⟩

theorem freshTemp : Shows view freshTemp [] Operand.IsTemp :=
  fun e => ⟨⟨e.ids.temps, rfl⟩, [], (append_nil _).symm, rfl⟩

theorem of_produces {m : Emit Unit} {Q : Unit → Prop} (h : Shows view m seen Q)
    (hcode : m.Produces code) : code.flatMap view = seen := by
  obtain ⟨e, he⟩ := hcode
  obtain ⟨-, added, hadd, hseen⟩ := h e
  obtain rfl := append_cancel_left (he.symm.trans hadd)
  exact hseen

end Emit.Shows

theorem IoVariable.findings_congr {v : IoVariable} (hl : v.hasLocation → l = l')
    (hk : v.hasComponent → k = k') (storage : Storage) : v.findings storage l k = v.findings storage l' k' := by
  cases v with
  | userDefined => rw [hl rfl, hk rfl]
  | clipDistance | fragmentCoord => rw [findings, findings, hk rfl]
  | _ => rfl

namespace Config

variable {c : Config} {storage : Storage}

theorem findings_access {inst : Instruction} {dest : Option Operand}
    (hinst : inst = .load ∧ trailing = [] ∨ inst = .store ∧ ∃ value, trailing = [value])
    (hio : storage.isIo) :
    Operation.findings
      ⟨inst, storage, dest, c.accessSources storage v location vertex component ++ trailing⟩ =
      v.findings storage location.asNat? component.asNat? := by
  have hvar : ioVariable?
      ⟨inst, storage, dest, c.accessSources storage v location vertex component ++ trailing⟩ = some v :=
    ioVariable?_cons hio rfl
  have hacc : isAccess
      ⟨inst, storage, dest, c.accessSources storage v location vertex component ++ trailing⟩ := by
    obtain ⟨rfl, -⟩ | ⟨rfl, -⟩ := hinst <;> rfl
  have hfinds : ∀ op : Operation, op.isAccess → op.storage.isIo → op.ioVariable? = some v →
      op.findings = v.findings op.storage (op.place? 1) op.component? := by
    intro op hacc hio hvar
    rw [Operation.findings, if_pos hacc, hvar]
    cases hstor : op.storage <;> first | rfl | simp [hstor, Storage.isIo, Storage.isInput, Storage.isOutput] at hio
  rw [hfinds _ hacc hio hvar]
  refine findings_congr (fun hloc => ?_) (fun hcomp => ?_) storage
  · simp [accessSources, hloc, place?, source?]
  · obtain ⟨rfl, rfl⟩ | ⟨rfl, value, rfl⟩ := hinst <;> cases hloc : v.hasLocation <;>
      cases hvtx : c.hasVertexIndex storage v <;>
      simp [accessSources, hloc, hvtx, hcomp, component?, componentIndex?,
        place?, source?]

end Config

open Emit

namespace Guest

def wordFindings (stage : Stage) (storage : Storage) (offset : Option Register) (address : Nat) : List Finding :=
  if offset.isSome then findings .userDefined storage none none else addressFindings stage storage address

def Op.accessed (stage : Stage) : Op → List Finding
  | ald _ count address _ offset perPatch output =>
    (Usage.words address count).flatMap (wordFindings stage (Lowering.attributeStorage output perPatch) offset)
  | ast _ count address _ offset perPatch =>
    (Usage.words address count).flatMap (wordFindings stage (Lowering.attributeStorage true perPatch) offset)
  | ipa _ address offset => wordFindings stage .input offset address
  | ld _ count space _ _ | st _ count space _ _ => (range count).flatMap fun _ => space.findings
  | _ => []

end Guest

section Emission

variable {inst : Instruction} {sources : List Operand}

theorem findings_of_none {dest : Option Operand} : Operation.findings ⟨inst, .none, dest, sources⟩ = [] := by
  unfold Operation.findings
  split <;> rfl

theorem shows_assign (dest : Operand) : Shows findings (assign dest inst sources) [] fun _ => True :=
  findings_of_none ▸ .op _

theorem shows_effect : Shows findings (effect inst sources) [] fun _ => True := findings_of_none ▸ .op _

theorem shows_value : Shows findings (value inst sources) [] Operand.IsTemp :=
  .after .freshTemp fun dest hdest => .after (shows_assign dest) fun _ _ => .pure hdest

theorem shows_destination (r : Register) : Shows findings (destination r) [] fun _ => True :=
  .ite (fun _ => Shows.freshTemp.mono fun _ _ => trivial) fun _ => .pure trivial

theorem shows_predicateDestination (p : Predicate) :
    Shows findings (predicateDestination p) [] fun _ => True :=
  .ite (fun _ => Shows.freshTemp.mono fun _ _ => trivial) fun _ => .pure trivial

end Emission

namespace Config

variable {c : Config} {storage : Storage} {location vertex component : Operand}

theorem shows_loadInto {v : IoVariable} (hio : storage.isIo) (d : Operand) :
    Shows findings (loadInto d storage (c.accessSources storage v location vertex component))
      (v.findings storage location.asNat? component.asNat?) fun _ => True := by
  rw [← findings_access (.inl ⟨rfl, rfl⟩) hio, append_nil]
  exact .op _

theorem shows_store {v : IoVariable} (hio : storage.isIo) (value : Operand) :
    Shows findings (store storage (c.accessSources storage v location vertex component ++ [value]))
      (v.findings storage location.asNat? component.asNat?) fun _ => True := by
  rw [← findings_access (.inr ⟨rfl, value, rfl⟩) hio]
  exact .op _

theorem shows_accessVertex (vertex : Option Register) :
    Shows findings (c.accessVertex storage vertex) [] fun _ => True := by
  cases vertex with
  | some r => exact .pure trivial
  | none =>
    refine .ite (fun _ => ?_) fun _ => .pure trivial
    exact .after .freshTemp fun _ _ => .after (.op _) fun _ _ => .pure trivial

/-- Sources that make an access with these findings, or none where there are none. -/
inductive Finds (c : Config) (storage : Storage) : List Finding → Option (List Operand) → Prop
  | absent : Finds c storage [] none
  | access (v : IoVariable) (location vertex component : Operand) :
    Finds c storage (v.findings storage location.asNat? component.asNat?)
      (some (c.accessSources storage v location vertex component))

theorem shows_indexedSources (address : Nat) (vertex offset : Operand) :
    Shows findings (c.indexedSources storage address vertex offset) [] fun sources =>
      c.Finds storage (findings .userDefined storage none none) (some sources) := by
  refine .after shows_value fun _ _ => .after shows_value fun _ _ => ?_
  refine .after shows_value fun _ hloc => .after shows_value fun _ _ => ?_
  refine .after shows_value fun component _ => .pure ?_
  obtain ⟨t, rfl⟩ := hloc
  exact .access .userDefined (.temp t) vertex component

theorem finds_target {target : Target} (vertex : Operand)
    (h : resolve address c.guestStage storage.isOutput storage.isPerPatch = some target) :
    c.Finds storage (target.findings storage) (some (c.targetSources storage vertex target)) := by
  have hfinds : ∀ (v : IoVariable) {l k : Nat}, l < 2 ^ 32 → k < 2 ^ 32 →
      c.Finds storage (v.findings storage (some l) (some k))
        (some (c.accessSources storage v (.word l) vertex (.word k))) := by
    intro v l k hl hk
    rw [← Operand.asNat?_word hl, ← Operand.asNat?_word hk]
    exact .access v (.word l) vertex (.word k)
  cases target with
  | user location component =>
    obtain ⟨hl, hk⟩ := resolve_user h
    exact hfinds .userDefined (Nat.lt_trans hl (by decide)) (Nat.lt_trans hk (by decide))
  | builtin v component =>
    exact hfinds v (by decide) (Nat.lt_trans (resolve_component h) (by decide))

theorem shows_attributeSources (address : Nat) (vertex offset : Option Register) :
    Shows findings (c.attributeSources storage address vertex offset) []
      (c.Finds storage (Guest.wordFindings c.guestStage storage offset address)) := by
  refine .after (shows_accessVertex vertex) fun vertex _ => ?_
  cases offset with
  | some r => exact (shows_indexedSources address vertex r.operand).map some fun _ h => h
  | none =>
    refine .pure ?_
    rw [Guest.wordFindings, if_neg (by simp), Guest.addressFindings]
    cases htgt : resolve address c.guestStage storage.isOutput storage.isPerPatch with
    | none => exact .absent
    | some target => exact finds_target vertex htgt

end Config

namespace Lowering

variable {l : Lowering} {storage : Storage} {address : Nat} {vertex offset : Option Register}

theorem shows_loadAttribute (hio : storage.isIo) (dest : Register) :
    Shows findings (l.loadAttribute dest storage address vertex offset)
      (Guest.wordFindings l.config.guestStage storage offset address) fun _ => True := by
  refine .after (shows_destination dest) fun d _ => ?_
  refine .after (Config.shows_attributeSources address vertex offset) fun _ hfound => ?_
  generalize Guest.wordFindings _ _ _ _ = findings at hfound
  cases hfound with
  | absent => exact shows_assign d
  | access => exact Config.shows_loadInto hio d

theorem shows_storeAttribute (hio : storage.isIo) (src : Register) :
    Shows findings (l.storeAttribute src storage address vertex offset)
      (Guest.wordFindings l.config.guestStage storage offset address) fun _ => True := by
  refine .after (Config.shows_attributeSources address vertex offset) fun _ hfound => ?_
  generalize Guest.wordFindings _ _ _ _ = findings at hfound
  cases hfound with
  | absent => exact .pure trivial
  | access => exact Config.shows_store hio src.operand

theorem shows_loadSystem (dest : Register) (system : Guest.SystemRegister) :
    Shows findings (l.loadSystem dest system) [] fun _ => True := by
  have hsilent : ∀ component : Operand,
      system.ioVariable.1.findings .input (Operand.word 0).asNat? component.asNat? = [] := by
    intro
    cases system <;> rfl
  refine .after (shows_destination dest) fun d _ => ?_
  rw [← hsilent]
  exact Config.shows_loadInto rfl d

theorem shows_wordIndex (base : Register) (bytes : UInt32) :
    Shows findings (wordIndex base bytes) [] fun _ => True :=
  .ite (fun _ => .pure trivial) fun _ => .after shows_value fun _ _ => shows_value.mono fun _ _ => trivial

theorem findings_space (r : Resources) (space : Guest.Space) {inst : Instruction} (h : inst = .load ∨ inst = .store)
    (dest : Option Operand) (sources : List Operand) :
    findings ⟨inst, (spaceBlock r space).1, dest, sources⟩ = space.findings := by
  obtain rfl | rfl := h <;> cases space <;> rfl

theorem shows_loadWord (dest : Register) (space : Guest.Space) (base : Register) (bytes : Int32) (word : Nat) :
    Shows findings (l.loadWord dest space base bytes word) space.findings fun _ => True := by
  refine .after (shows_wordIndex base _) fun index _ => .after (shows_destination _) fun d _ => ?_
  rw [← findings_space l.resources space (.inl rfl) (some d) ((spaceBlock l.resources space).2 ++ [index])]
  exact .op _

theorem shows_storeWord (src : Register) (space : Guest.Space) (base : Register) (bytes : Int32) (word : Nat) :
    Shows findings (l.storeWord src space base bytes word) space.findings fun _ => True := by
  refine .after (shows_wordIndex base _) fun index _ => ?_
  rw [← findings_space l.resources space (.inr rfl) none
    ((spaceBlock l.resources space).2 ++ [index, (src.after word).operand])]
  exact .op _

theorem shows_components (dest : Register) (mask : UInt32) (inst : Nat → Instruction) (sources : List Operand) :
    Shows findings (components dest mask inst sources) [] fun _ => True := by
  rw [← flatMap_eq_nil_iff.2 fun _ _ => rfl]
  exact .forM fun _ _ => .after (shows_destination _) fun d _ => shows_assign d

theorem shows_select (dest a : Register) (b : Guest.Source) (guard : Guest.Guard) :
    Shows findings (select dest a b guard) [] fun _ => True := by
  have hrest : ∀ cond : Operand, Shows findings
      (do let d ← destination dest
          assign d (.conditionalSelect .u32) [cond, a.operand, b.operand]) [] fun _ => True :=
    fun cond => .after (shows_destination dest) fun d _ => shows_assign d
  unfold select
  exact .ite (fun _ => .after shows_value fun cond _ => hrest cond) fun _ => hrest _

theorem shows_op {op : Guest.Op} (hexit : op ≠ .exit) :
    Shows findings (l.op op) (op.accessed l.config.guestStage) fun _ => True := by
  cases op with
  | ald dest count address vertex offset perPatch output =>
    rw [Guest.Op.accessed, Guest.Usage.words, flatMap_map]
    exact .forM fun _ _ => shows_loadAttribute (isIo_attributeStorage output perPatch) _
  | ast src count address vertex offset perPatch =>
    rw [Guest.Op.accessed, Guest.Usage.words, flatMap_map]
    exact .forM fun _ _ => shows_storeAttribute (isIo_attributeStorage true perPatch) _
  | ipa dest address offset => exact shows_loadAttribute rfl dest
  | s2r dest system => exact shows_loadSystem dest system
  | ld dest count space base bytes => exact .forM fun word _ => shows_loadWord dest space base bytes word
  | st src count space base bytes => exact .forM fun word _ => shows_storeWord src space base bytes word
  | sel dest a b guard => exact shows_select dest a b guard
  | tex | suld => exact shows_components _ _ _ _
  | isetp dest | fsetp dest => exact .after (shows_predicateDestination dest) fun d _ => shows_assign d
  | sust | bar | kil => exact shows_effect
  | nop | bra => exact .pure trivial
  | out emit cut =>
    unfold Lowering.op
    exact .when shows_effect (.ite (fun _ => shows_effect) fun _ => .pure trivial)
  | exit => exact absurd rfl hexit
  | _ => exact .after (shows_destination _) fun d _ => shows_assign d

theorem Lowers.silent (h : l.Lowers i piece) :
    ∀ op ∈ piece.before ++ piece.after, op.findings = [] := by
  cases h with
  | bra =>
    refine forall_mem_singleton.2 ?_
    unfold Guest.Guard.jump
    split
    · split <;> exact findings_of_none
    · exact findings_of_none
  | plain => simp
  | guarded =>
    refine forall_mem_cons.2 ⟨?_, forall_mem_singleton.2 findings_of_none⟩
    unfold Guest.Guard.skip
    split <;> exact findings_of_none

theorem findings_of_lowers {i : Guest.Placed} (hexit : i.op ≠ .exit) (h : l.Lowers i piece) :
    piece.ops.flatMap findings = i.op.accessed l.config.guestStage := by
  obtain ⟨hbef, hafter⟩ := forall_mem_append.1 h.silent
  rw [Piece.ops, flatMap_append, flatMap_append, flatMap_eq_nil_iff.2 hbef,
    flatMap_eq_nil_iff.2 hafter, append_nil, nil_append]
  cases h with
  | bra hop =>
    rw [hop]
    rfl
  | plain _ _ hcode | guarded _ _ _ hcode => exact (shows_op hexit).of_produces hcode

end Lowering

namespace Guest

/-- No attribute is indexed, and memory is accessed by one word or more. -/
def Op.isDirect : Op → Bool
  | ald _ _ _ _ offset _ _ | ast _ _ _ _ offset _ | ipa _ _ offset => offset.isNone
  | ld _ count _ _ _ | st _ count _ _ _ => count != 0
  | _ => true

theorem Op.scanned_of_accessed {op : Op} (h : f ∈ op.accessed stage) :
    f ∈ op.scanned stage := by
  have hword : ∀ (storage : Storage) (offset : Option Register) (address : Nat),
      f ∈ wordFindings stage storage offset address →
        f ∈ (if offset.isSome then findings .userDefined storage none none else []) ∨
          f ∈ addressFindings stage storage address := by
    intro storage offset address hf
    unfold wordFindings at hf
    split at hf
    · next hoff => exact .inl (by rwa [if_pos hoff])
    · exact .inr hf
  have hwords : ∀ (storage : Storage) (offset : Option Register) (words : List Nat),
      f ∈ words.flatMap (wordFindings stage storage offset) →
        f ∈ (if offset.isSome then findings .userDefined storage none none else []) ++
          words.flatMap (addressFindings stage storage) := by
    intro storage offset words hf
    obtain ⟨word, hmem, hf⟩ := mem_flatMap.1 hf
    exact mem_append.2 ((hword _ _ _ hf).imp_right fun h => mem_flatMap.2 ⟨word, hmem, h⟩)
  cases op with
  | ald | ast => exact hwords _ _ _ h
  | ipa => exact mem_append.2 (hword _ _ _ h)
  | ld _ count space | st _ count space =>
    obtain ⟨-, -, hf⟩ := mem_flatMap.1 h
    exact hf
  | _ => exact h

theorem Op.accessed_of_scanned {op : Op} (hdirect : op.isDirect)
    (h : f ∈ op.scanned stage) : f ∈ op.accessed stage := by
  cases op with
  | ald _ _ _ _ offset | ast _ _ _ _ offset | ipa _ _ offset =>
    obtain rfl := Option.isNone_iff_eq_none.1 hdirect
    exact h
  | ld _ count | st _ count =>
    have hcnt : 0 < count := Nat.pos_of_ne_zero (by simpa [isDirect] using hdirect)
    exact mem_flatMap.2 ⟨0, mem_range.2 hcnt, h⟩
  | _ => exact h

namespace Program

variable {p : Program} {s : Surroundings} {ids : Ids} {parts : Parts} {lowered : Lowered}

/-- The operations of the instructions of a program that do not end it; an exit is
lowered to the end of the stage. -/
def bodyOps (p : Program) (blocks : List (List Piece × Nat)) : List Operation :=
  (p.blocks.zip blocks).flatMap fun b =>
    (b.1.body.zip b.2.1).flatMap fun i => if i.1.op = .exit then [] else i.2.ops

theorem flatMap_zip {α β γ : Type} {R : α → β → Prop} {g : α × β → List γ} {g' : α → List γ} {xs : List α} {ys : List β}
    (h : Forall₂ R xs ys) (hg : ∀ x y, R x y → g (x, y) = g' x) : (xs.zip ys).flatMap g = xs.flatMap g' := by
  induction h with
  | nil => rfl
  | cons hxy _ ih => rw [zip_cons_cons, flatMap_cons, flatMap_cons, hg _ _ hxy, ih]

theorem findings_bodyOps {l : Lowering} {blocks : List (List Piece × Nat)}
    (h : Forall₂ l.LowersBlock p.blocks blocks) :
    (p.bodyOps blocks).flatMap findings = p.ops.flatMap (Op.accessed l.config.guestStage) := by
  rw [bodyOps, flatMap_assoc, ops, flatMap_assoc]
  refine flatMap_zip h fun _ _ hb => ?_
  rw [flatMap_assoc, flatMap_map]
  refine flatMap_zip hb.2 fun i _ hi => ?_
  by_cases hexit : i.op = .exit
  · rw [if_pos hexit, hexit]
    rfl
  · rw [if_neg hexit]
    exact Lowering.findings_of_lowers hexit hi

/-- The scan and lowering agree. Whatever the instructions of a program access once they
are lowered is part of its usage, and without indexed attributes and empty accesses to
memory the usage holds nothing else. -/
theorem usage_agrees (hstage : s.config.guestStage = s.config.stage) (h : p.lower s ids parts = .ok lowered) :
    ∃ front blocks closing, lowered.ops = front ++ (blocks.flatMap Piece.blockOps ++ closing) ∧
      front.length = lowered.bodyStart ∧
      List.Forall₂ (p.lowering s parts (p.blockLabels ids)).LowersBlock p.blocks blocks ∧
      (closing = [] ∨ (p.lowering s parts (p.blockLabels ids)).Ending closing) ∧
      (∀ op ∈ p.bodyOps blocks, ∀ f ∈ op.findings, (p.usage s.config.stage).holds f = true) ∧
      ((∀ op ∈ p.ops, op.isDirect = true) →
        ∀ f, (p.usage s.config.stage).holds f = true → ∃ op ∈ p.bodyOps blocks, f ∈ op.findings) := by
  obtain ⟨front, blocks, closing, hops, -, hlowers, hcloses, -, -, hstart⟩ := exists_pieces h
  have hneeds : ∀ f, (∃ op ∈ p.bodyOps blocks, f ∈ op.findings) ↔ ∃ op ∈ p.ops, f ∈ op.accessed s.config.stage := by
    intro f
    rw [← List.mem_flatMap, findings_bodyOps hlowers, List.mem_flatMap, ← hstage]
    rfl
  refine ⟨front, blocks, closing, hops, hstart, hlowers, hcloses, fun op hop f hf => ?_, fun hdirect f hf => ?_⟩
  · obtain ⟨guest, hguest, hf⟩ := (hneeds f).1 ⟨op, hop, hf⟩
    exact (p.usage_holds_iff s.config.stage f).2 ⟨guest, hguest, Op.scanned_of_accessed hf⟩
  · obtain ⟨guest, hguest, hf⟩ := (p.usage_holds_iff s.config.stage f).1 hf
    exact (hneeds f).2 ⟨guest, hguest, Op.accessed_of_scanned (hdirect guest hguest) hf⟩

/-- Three words that cross into the next location, under a guard, then a clip distance that
is read back; both blocks stand at one address. -/
def crossing : Program where
  blocks :=
    [ ⟨0, [⟨0, { predicate := ⟨1⟩ }, .ald ⟨0⟩ 3 0x88 none none false false⟩]⟩,
      ⟨0, [⟨8, {}, .ald ⟨4⟩ 1 0x2c8 none none false true⟩, ⟨16, {}, .exit⟩]⟩ ]

def vertexAlone : Surroundings where
  config := { stage := .vertex }
  host := default
  resources := { stage := .vertex, api := .openGl }
  outputs := 0

theorem usage_agrees_crossing :
    vertexAlone.config.guestStage = vertexAlone.config.stage ∧ (∀ op ∈ crossing.ops, op.isDirect = true) ∧
      ∃ lowered, crossing.lower vertexAlone {} {} = .ok lowered ∧ ∃ front blocks closing,
        lowered.ops = front ++ (blocks.flatMap Piece.blockOps ++ closing) ∧
        (∀ op ∈ crossing.bodyOps blocks, ∀ f ∈ op.findings, (crossing.usage .vertex).holds f = true) ∧
        (∃ op ∈ crossing.bodyOps blocks, .component 1 (some 0) ∈ op.findings) ∧
        ∃ op ∈ crossing.bodyOps blocks, .clipDistance (some 2) ∈ op.findings := by
  obtain ⟨lowered, h⟩ : ∃ lowered, crossing.lower vertexAlone {} {} = .ok lowered := ⟨_, rfl⟩
  have hdirect : ∀ op ∈ crossing.ops, op.isDirect = true := by decide
  obtain ⟨front, blocks, closing, hops, -, -, -, hrecorded, haccessed⟩ := usage_agrees rfl h
  exact ⟨rfl, hdirect, lowered, h, front, blocks, closing, hops, hrecorded, haccessed hdirect _ (by decide),
    haccessed hdirect _ (by decide)⟩

end Program
end Guest
end ShaderRecompiler
