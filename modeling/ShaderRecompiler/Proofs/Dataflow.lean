import ShaderRecompiler.Proofs.Supply

/-! The flow of temporaries in a lowered program, and in two programs that were joined.
What comes before the program is passed straight, up to returns; each instruction of the
program, and each epilogue, reads only temporaries that it assigned itself. -/
namespace ShaderRecompiler

open Flat List Operation Join

open Guest.Program (assigning_lower)

open Operation (Alike)

variable {i : Guest.Placed} {ids : Ids} {body front ops : List Operation} {n : Nat} {op : Operation} {piece : Piece}

/-- What `m` appends has the property `P`, whatever was emitted before. -/
def Emit.Yields {α : Type} (P : List Operation → Prop) (m : Emit α) : Prop :=
  ∀ e : Emitter, ∃ added, (m.run e).2.ops.toList = e.ops.toList ++ added ∧ P added

/-- Code that can be put together. -/
class Additive (P : List Operation → Prop) : Prop where
  nil : P []
  append : ∀ {xs ys}, P xs → P ys → P (xs ++ ys)

instance : Additive Gated := ⟨.nil, .append⟩

instance : Additive Settled := ⟨.nil, .append⟩

namespace Emit.Yields

variable {P : List Operation → Prop}

theorem of_produces {m : Emit Unit} (h : Yields P m) (hcode : m.Produces code) : P code := by
  obtain ⟨e, he⟩ := hcode
  obtain ⟨added, hadd, hP⟩ := h e
  obtain rfl := append_cancel_left (he.symm.trans hadd)
  exact hP

section Additive

variable [Additive P]

theorem nop {a : α} : Yields P (pure a) := fun _ => ⟨[], (append_nil _).symm, Additive.nil⟩

theorem bind (hm : Yields P m) (hf : ∀ a, Yields P (f a)) : Yields P (m >>= f) := by
  intro e
  obtain ⟨added, hadd, hleft⟩ := hm e
  obtain ⟨added', hadd', hright⟩ := hf (m.run e).1 (m.run e).2
  refine ⟨added ++ added', ?_, Additive.append hleft hright⟩
  rw [← append_assoc, ← hadd]
  exact hadd'

omit [Additive P] in
theorem ite {m' : Emit α} {_ : Decidable p} (ht : p → Yields P m) (he : ¬p → Yields P m') :
    Yields P (if p then m else m') := by
  split
  · next h => exact ht h
  · next h => exact he h

theorem when {m : Emit Unit} {_ : Decidable p} (hm : p → Yields P m)
    (hrest : Yields P (rest ())) : Yields P (if p then m >>= rest else rest ()) :=
  ite (fun h => bind (hm h) fun _ => hrest) fun _ => hrest

theorem forM {xs : List α} (h : ∀ x, Yields P (g x)) : Yields P (xs.forM g) := by
  induction xs with
  | nil => exact nop
  | cons x xs ih => exact bind (h x) fun _ => ih

end Additive

theorem store (storage : Storage) (sources : List Operand) : Yields Gated (Emit.store storage sources) :=
  fun _ => ⟨[_], Array.toList_push, .straight rfl .nil⟩

theorem value {inst : Instruction} (hinst : inst.isStraight = true) (sources : List Operand) :
    Yields Gated (Emit.value inst sources) :=
  fun _ => ⟨[_], Array.toList_push, .straight hinst .nil⟩

theorem load (storage : Storage) (sources : List Operand) : Yields Gated (Emit.load storage sources) :=
  fun _ => ⟨[_], Array.toList_push, .straight rfl .nil⟩

theorem settled (h : Scopes (fun op => op.inst.isStraight = true) {} [] [] [] [] m (fun _ => []) fun _ => True) :
    Yields Settled m := by
  intro e
  obtain ⟨added, hadd, hscoped⟩ := h.run e
  exact ⟨added, hadd, .of_straight hscoped.assigning hscoped.emission.all⟩

end Emit.Yields

namespace Lowering

open Emit (Yields)

variable {l : Lowering} {code : List Operation}

/-! What comes before the program. -/

theorem gated_returnUnlessBelow (value limit : Operand) : Yields Gated (returnUnlessBelow value limit) := by
  refine .bind (.value rfl _) fun outside e => ?_
  exact ⟨_, @Array.toList_append _ _ #[_, _, _], .gate e.ids.labels outside .nil⟩

theorem gated_bounded {f : Operand → Emit Unit} (hf : ∀ value, Yields Gated (f value)) :
    Yields Gated (do
      let value ← Emit.globalInvocationId dimension
      let limit ← l.vertexInfo field component
      returnUnlessBelow value limit
      f value) := by
  refine .bind (.load _ _) fun value => ?_
  refine .bind (.load _ _) fun limit => ?_
  exact .bind (gated_returnUnlessBelow value limit) fun _ => hf value

theorem gated_vertexPrologue (vertexRate instanceRate : Nat) :
    Yields Gated (l.vertexPrologue vertexRate instanceRate) := by
  refine gated_bounded fun _ => gated_bounded fun _ => ?_
  refine .bind (.load _ _) fun _ => ?_
  refine .bind (.value rfl _) fun _ => ?_
  refine .bind (.load _ _) fun _ => ?_
  refine .bind (.value rfl _) fun _ => ?_
  refine .bind (.value rfl _) fun _ => ?_
  refine .bind (.value rfl _) fun _ => ?_
  exact .bind (.store _ _) fun _ => .store _ _

theorem gated_geometryPrologue (topologyRemap vertexCounter indexCounter : Nat) :
    Yields Gated (l.geometryPrologue topologyRemap vertexCounter indexCounter) := by
  refine gated_bounded fun _ => gated_bounded fun _ => ?_
  refine .bind (.value rfl _) fun _ => ?_
  refine .bind (.forM fun _ => ?_) fun _ => ?_
  · refine .bind (.value rfl _) fun _ => ?_
    exact .bind (.value rfl _) fun _ => .store _ _
  · exact .bind (.store _ _) fun _ => .store _ _

theorem gated_initializeOutputs : Yields Gated l.initializeOutputs := by
  have hone : ∀ v location, Yields Gated (l.initializeOutput v location) :=
    fun v location => .forM fun _ => .store _ _
  refine .ite (fun _ => ?_) fun _ => .nop
  exact .bind (hone _ _) fun _ => .forM (hone _)

theorem gated_prologue : Yields Gated l.prologue := by
  have hemu : Yields Gated l.emulationPrologue := by
    unfold emulationPrologue
    split
    · exact gated_vertexPrologue _ _
    · exact gated_geometryPrologue _ _ _
    · exact .nop
  refine .when (fun _ => hemu) (.ite (fun _ => ?_) fun _ => .nop)
  cases l.layerInput with
  | some address => exact .bind (.load _ _) fun _ => .store _ _
  | none => exact .nop

theorem gated_front (parts : Parts) : Yields Gated (l.front parts) := by
  refine .when (fun _ => gated_initializeOutputs) ?_
  exact .ite (fun _ => gated_prologue) fun _ => .nop

/-! The program. -/

theorem settled_geometryEpilogue (hm : l.resources.emulation = some (.geometry data remap vertices indexCounter)) :
    Yields Settled (l.geometryEpilogue indexCounter) := by
  intro e
  have hscp : l.Emits (fun _ => True) (fun _ => True) {} [] [] (l.geometryEpilogue indexCounter) :=
    scopes_geometryEpilogue trivial (fun _ _ => trivial) hm
  obtain ⟨added, hadd, hscoped⟩ := hscp.run e
  refine ⟨added, hadd, ?_⟩
  obtain rfl := append_cancel_left (hadd.symm.trans (l.run_geometryEpilogue indexCounter e))
  exact settled_looping hscoped.assigning (by simp [padTest, Instruction.isStraight])
    (by simp [padLoad, padEntry, Instruction.isStraight])

theorem settled_epilogue : Yields Settled l.epilogue := by
  have hstr : ∀ op, l.Emitted (fun _ => True) (fun _ => False) op → op.inst.isStraight = true :=
    fun _ h => h.isStraight
  have hemu : Yields Settled l.emulationEpilogue := by
    unfold emulationEpilogue
    split
    · next hm => exact .settled ((scopes_vertexEpilogue trivial hm).imp hstr)
    · next hm => exact settled_geometryEpilogue hm
    · exact .nop
  refine .ite (fun hwrites => ?_) fun _ => .nop
  refine .when (fun _ => hemu) (.when (fun hcaps => ?_) ?_)
  · exact .settled ((scopes_feedbackEpilogue trivial hwrites hcaps).imp hstr)
  · refine .ite (fun _ => ?_) fun _ => .nop
    exact .settled (scopes_fragmentEpilogue.imp hstr)

theorem settled_ending (h : l.Ending code) : Settled code := by
  obtain ⟨epilogue, hepi, rfl⟩ := h
  exact (settled_epilogue.of_produces hepi).append (.of_reads (by simp [returning, reads]))

theorem settled_op (op : Guest.Op) (h : (l.op op).Produces code) : Settled code := by
  by_cases hexit : op = .exit
  · rw [hexit] at h
    exact settled_ending (ending_of_produces h)
  · have hscp : l.Emits (· = some op) (fun _ => False) {} [] [] (l.op op) :=
      scopes_op hexit rfl
    exact (Yields.settled (hscp.imp fun _ h => h.isStraight)).of_produces h

theorem reads_skip (g : Guest.Guard) (n : Nat) : (g.skip n).reads = [] := by
  simp [Guest.Guard.skip, reads]

theorem reads_jump (g : Guest.Guard) (n : Nat) : (g.jump n).reads = [] := by
  unfold Guest.Guard.jump
  split <;> simp [reads]

theorem Lowers.settled (h : l.Lowers i piece) : Settled piece.ops := by
  cases h with
  | bra => exact .append (.of_reads (by simp [reads_jump])) (.append .nil .nil)
  | plain _ _ hcode => exact .append .nil (.append (settled_op _ hcode) .nil)
  | guarded n _ _ hcode =>
    refine .append (.of_reads (by simp [reads_skip])) (.append (settled_op _ hcode) (.of_reads ?_))
    simp [marking, reads]

theorem LowersBlock.settled {block : List Piece × Nat} (h : l.LowersBlock b block) :
    Settled (Piece.blockOps block) := by
  have hmark : Settled [.marking block.2] := .of_reads (by simp [marking, reads])
  exact hmark.append (.flatMap h.2 fun _ _ => Lowers.settled)

theorem targets_ending (h : l.Ending code) : ∀ n ∈ code.flatMap targets, n ∈ code.flatMap marks := by
  obtain ⟨epilogue, hepi, rfl⟩ := h
  intro n hn
  rw [flatMap_append] at hn ⊢
  obtain hn | hn := mem_append.1 hn
  · exact mem_append_left _ ((epilogue_of_produces hepi).2 n hn)
  · cases hn

theorem targets_op {op : Guest.Op} (h : (l.op op).Produces code) :
    ∀ n ∈ code.flatMap targets, n ∈ code.flatMap marks := by
  by_cases hexit : op = .exit
  · rw [hexit] at h
    exact targets_ending (ending_of_produces h)
  · intro n hn
    obtain ⟨x, hx, htgt⟩ := mem_flatMap.1 hn
    rw [targets_eq_nil (isStraight_of_produces hexit h x hx)] at htgt
    cases htgt

theorem Lowers.targets (h : l.Lowers i piece) (hn : n ∈ piece.ops.flatMap targets) :
    n ∈ piece.ops.flatMap marks ∨ ∃ target, i.op = .bra target ∧ l.label? target = some (.label n) := by
  cases h with
  | @bra target n' hop hlab =>
    obtain rfl : n = n' := by simpa [Piece.ops, Guest.Guard.targets_jump] using hn
    exact .inr ⟨target, hop, hlab⟩
  | plain _ _ hcode =>
    simp only [Piece.ops, nil_append, append_nil] at hn ⊢
    exact .inl (targets_op hcode n hn)
  | guarded n' _ _ hcode =>
    simp only [Piece.ops, flatMap_append, flatMap_singleton, Guest.Guard.targets_skip, mem_append,
      mem_singleton] at hn ⊢
    obtain rfl | hn | hn := hn
    · exact .inl (.inr (.inr (mem_singleton_self _)))
    · exact .inl (.inr (.inl (targets_op hcode n hn)))
    · cases hn

end Lowering

/-- What the operations of `front` and of `body` behind it read is there. -/
structure Flat.Supplied (front body : List Operation) : Prop where
  gated : Gated front
  ordered : ∀ (pc : Nat) (op : Operation), front[pc]? = some op → ∀ t ∈ op.reads,
    ∃ d < pc, ∃ x : Operation, front[d]? = some x ∧ t ∈ x.assigned
  settled : Settled body
  inner : ∀ n ∈ body.flatMap targets, n ∈ body.flatMap marks

namespace Guest.Program

variable {p : Program} {s : Surroundings}

theorem targets_blocks {l : Lowering} {blocks : List (List Piece × Nat)}
    (hlowers : Forall₂ l.LowersBlock p.blocks blocks)
    (htgts : ∀ i ∈ p.placed, ∀ target, i.op = .bra target → target ∈ p.addresses) :
    ∀ n ∈ (blocks.flatMap Piece.blockOps).flatMap targets,
      n ∈ (blocks.flatMap Piece.blockOps).flatMap marks := by
  intro n hn
  rw [flatMap_assoc] at hn ⊢
  obtain ⟨block, hblk, hn⟩ := mem_flatMap.1 hn
  obtain ⟨b, hb, rfl⟩ := getElem_of_mem hblk
  have hb' : b < p.blocks.length := hlowers.length_eq ▸ hb
  obtain ⟨-, hpcs⟩ : l.LowersBlock p.blocks[b] blocks[b] := hlowers.get hb' hb
  have hmem : n ∈ (blocks[b].1.flatMap Piece.ops).flatMap targets := hn
  rw [flatMap_assoc] at hmem
  obtain ⟨piece, hpiece, hn⟩ := mem_flatMap.1 hmem
  obtain ⟨i, hi, rfl⟩ := getElem_of_mem hpiece
  have hi' : i < p.blocks[b].body.length := hpcs.length_eq ▸ hi
  obtain hown | ⟨target, hop, hlab⟩ := (hpcs.get hi' hi).targets hn
  · refine mem_flatMap.2 ⟨_, hblk, mem_flatMap.2 ?_⟩
    obtain ⟨op, hop, hmarks⟩ := mem_flatMap.1 hown
    exact ⟨op, mem_cons_of_mem _ (mem_flatMap.2 ⟨_, hpiece, hop⟩), hmarks⟩
  · have hplaced : p.blocks[b].body[i] ∈ p.placed :=
      mem_flatMap.2 ⟨_, getElem_mem hb', getElem_mem hi'⟩
    obtain ⟨b', hb', haddr⟩ := mem_map.1 (htgts _ hplaced target hop)
    obtain ⟨c, hc, rfl⟩ := getElem_of_mem hb'
    have hc' : c < blocks.length := hlowers.length_eq ▸ hc
    obtain ⟨hown, -⟩ : l.LowersBlock p.blocks[c] blocks[c] := hlowers.get hc hc'
    rw [haddr, hlab] at hown
    obtain rfl : n = blocks[c].2 := Operand.label.inj (Option.some.inj hown)
    exact mem_flatMap.2 ⟨_, getElem_mem hc', mem_flatMap.2 ⟨_, mem_cons_self, mem_cons_self⟩⟩

theorem exists_supplied (h : p.lower s ids parts = .ok lowered) :
    ∃ front body, lowered.ops = front ++ body ∧ front.length = lowered.bodyStart ∧
      (((p.lowering s parts (p.blockLabels ids)).front parts).run (p.started ids)).2.ops.toList = front ∧
      Supplied front body := by
  obtain ⟨front, blocks, closing, hops, hfront, hlowers, hcloses, -, -, hstart⟩ := exists_pieces h
  refine ⟨front, _, hops, hstart, hfront, ?_, fun _ _ hop _ ht => ?_, ?_, ?_⟩
  · obtain ⟨added, hadd, hgated⟩ := Lowering.gated_front parts (p.started ids)
    obtain rfl : front = added := hfront.symm.trans hadd
    exact hgated
  · let l := p.lowering s parts (p.blockLabels ids)
    have hscp : l.Emits (fun _ => True) (fun _ => True) {} [] [] (l.front parts) :=
      Lowering.scopes_front trivial (fun _ => trivial) parts
    obtain ⟨added, hadd, hscoped⟩ := hscp.run (p.started ids)
    obtain rfl : front = added := hfront.symm.trans hadd
    obtain ⟨d, hlt, x, hx, hassigned, -⟩ := hscoped.assigning.exists_assigned hop ht
    exact ⟨d, hlt, x, hx, hassigned⟩
  · refine (Settled.flatMap hlowers fun _ _ => Lowering.LowersBlock.settled).append ?_
    obtain rfl | hending := hcloses
    · exact .nil
    · exact Lowering.settled_ending hending
  · intro n hn
    rw [flatMap_append] at hn ⊢
    obtain hn | hn := mem_append.1 hn
    · exact mem_append_left _ (targets_blocks hlowers (mem_addresses_of_lower h) n hn)
    · obtain rfl | hending := hcloses
      · cases hn
      · exact mem_append_right _ (Lowering.targets_ending hending n hn)

end Guest.Program

namespace Join

variable {b : Bridge}

theorem alike_copy {dest : Option Operand} {source : Operand} (hop : op.inst.isStraight = true)
    (hassigned : assigned ⟨.copy, .none, dest, [source]⟩ = op.assigned)
    (hreads : ∀ t, .temp t = source → t ∈ op.reads) : op.Alike ⟨.copy, .none, dest, [source]⟩ where
  straight _ := rfl
  terminates h := by
    rw [Instruction.isTerminator_of_isStraight hop] at h
    cases h
  branches h := by
    rw [h] at hop
    cases hop
  marks := (marks_eq_nil hop).symm
  computes _ _ := rfl
  assigned := hassigned
  reads t ht := hreads t (mem_singleton.1 (mem_reads.1 ht))

theorem alike_carryStore (hop : op.Computes) : op.Alike (carryStore b op) := by
  obtain hsame | ⟨slot, o, hslot, hcarr, hcopy⟩ := carryStore_cases b op
  · rw [hsame]
    exact .refl op
  · obtain ⟨hinst, -⟩ := inst_of_written? hslot
    obtain ⟨n, rfl⟩ := Bridge.exists_var hcarr
    have hassigned : op.assigned = [] := hop.assigned_eq_nil (by rw [hinst]; rfl)
    rw [hcopy]
    refine alike_copy (by rw [hinst]; rfl) hassigned.symm fun _ ht => ?_
    unfold stored at ht
    cases hlast : op.sources.getLast? with
    | none =>
      rw [hlast] at ht
      cases ht
    | some o =>
      rw [hlast] at ht
      exact mem_reads.2 (ht ▸ mem_of_getLast? hlast)

theorem alike_continueAt (hop : op.Computes) (n bodyStart index : Nat) :
    op.Alike (continueAt (.label n) bodyStart index op) := by
  unfold continueAt
  split
  · next h =>
    have hinst := h.1
    have hassigned : op.assigned = [] := hop.assigned_eq_nil (by rw [hinst]; rfl)
    refine ⟨fun h => ?_, fun _ => rfl, fun h => ?_, ?_, fun _ => computes_of_dest rfl, hassigned.symm,
      fun _ ht => by simp [reads] at ht⟩
    · rw [hinst] at h
      cases h
    · rw [hinst] at h
      cases h
    · unfold marks
      rw [hinst]
      rfl
  · exact .refl op

theorem alike_carryLoad (b : Bridge) (stored : List (Nat × Nat)) (op : Operation) :
    op.Alike (carryLoad b stored op) := by
  obtain hsame | ⟨hload, n, hcopy⟩ := carryLoad_cases b stored op
  · rw [hsame]
    exact .refl op
  · rw [hcopy]
    exact alike_copy (by rw [hload]; rfl) rfl fun _ ht => by cases ht

theorem targets_carryLoad {stored : List (Nat × Nat)} (h : n ∈ (carryLoad b stored op).targets) : n ∈ op.targets := by
  unfold carryLoad at h
  split at h
  · cases h
  · exact h

end Join

namespace Flat

theorem flatMap_marks_of_alike (h : Forall₂ Alike xs ys) : ys.flatMap marks = xs.flatMap marks := by
  induction h with
  | nil => rfl
  | cons hxy _ ih => rw [flatMap_cons, flatMap_cons, hxy.marks, ih]

theorem flatMap_assigned_of_alike (h : Forall₂ Alike xs ys) : ys.flatMap assigned = xs.flatMap assigned := by
  induction h with
  | nil => rfl
  | cons hxy _ ih => rw [flatMap_cons, flatMap_cons, hxy.assigned, ih]

theorem computes_of_alike (h : Forall₂ Alike xs ys) (hxs : ∀ op ∈ xs, op.Computes) : ∀ op ∈ ys, op.Computes := by
  induction h with
  | nil => exact hxs
  | cons hxy _ ih =>
    obtain ⟨hx, hxs⟩ := forall_mem_cons.1 hxs
    exact forall_mem_cons.2 ⟨hxy.computes hx, ih hxs⟩

theorem alike_zipIdx (h : ∀ x ∈ xs, ∀ i, x.Alike (f (x, i))) (k : Nat) : Forall₂ Alike xs ((xs.zipIdx k).map f) := by
  induction xs generalizing k with
  | nil => exact .nil
  | cons x xs ih =>
    obtain ⟨hx, hxs⟩ := forall_mem_cons.1 h
    exact .cons (hx k) (ih hxs (k + 1))

theorem Gated.carryStore (h : Gated ops) (b : Bridge) : Gated (ops.map (carryStore b)) := by
  induction h with
  | nil => exact .nil
  | straight hop _ ih => exact .straight (isStraight_carryStore hop) ih
  | gate n condition _ ih => exact .gate n condition ih

end Flat

namespace Lowered

variable {head : Lowered} {second : List Operation}

section Join

variable (head second)

/-- What stands for an operation of the first program. -/
def continued (x : Operation × Nat) : Operation :=
  continueAt (.label head.ids.labels) head.bodyStart x.2 (carryStore (.ofReads second head.ids) x.1)

/-- What stands for an operation of the second program. -/
def resumed (op : Operation) : Operation :=
  carryLoad (.ofReads second head.ids) (head.ops.filterMap written?) op

theorem join_eq : (head.join second).1 =
    (head.ops.zipIdx.map (continued head second)) ++ .marking head.ids.labels :: second.map (resumed head second) :=
  rfl

variable {second}

theorem alike_continued (hop : op.Computes) (i : Nat) : op.Alike (continued head second (op, i)) :=
  have halike := alike_carryStore hop
  halike.trans (alike_continueAt (halike.computes hop) _ _ _)

theorem targets_continued {i : Nat} (h : n ∈ (continued head second (op, i)).targets) :
    n ∈ op.targets ∨ n = head.ids.labels := by
  unfold continued continueAt at h
  split at h
  · exact .inr (mem_singleton.1 h)
  · obtain hsame | ⟨_, _, -, -, hcopy⟩ := carryStore_cases (.ofReads second head.ids) op
    · rw [hsame] at h
      exact .inl h
    · rw [hcopy] at h
      cases h

theorem alike_join (hcomp : ∀ op ∈ head.ops, op.Computes) :
    Forall₂ Alike (head.ops ++ .marking head.ids.labels :: second) (head.join second).1 := by
  refine rel_append (alike_zipIdx (fun op hop => alike_continued head (hcomp op hop)) 0) (.cons (.refl _) ?_)
  exact forall₂_map_right_iff.2 (forall₂_same.2 fun op _ => alike_carryLoad _ _ op)

end Join

/-- The parts of two programs that were joined, the second one without a prologue. -/
theorem exists_supplied_join (hops : head.ops = front ++ body) (hstart : front.length = head.bodyStart)
    (hcomp : ∀ op ∈ head.ops, op.Computes) (hhead : Supplied front body) (htail : Supplied [] second) :
    ∃ front' body', (head.join second).1 = front' ++ body' ∧ Supplied front' body' := by
  have hfront : front.zipIdx.map (continued head second) = front.map (carryStore (.ofReads second head.ids)) := by
    refine ext_getElem (by simp) fun i h₁ _ => ?_
    have hi : i < head.bodyStart := by simpa [hstart] using h₁
    simp [continued, continueAt, hi]
  have halike : ∀ op ∈ front ++ body, ∀ i, op.Alike (continued head second (op, i)) :=
    fun op hop => alike_continued head (hcomp op (hops ▸ hop))
  have hbef := alike_zipIdx (fun op hop => halike op (mem_append_left body hop)) 0
  have hbody := alike_zipIdx (fun op hop => halike op (mem_append_right front hop)) front.length
  have hsnd : Forall₂ Alike second (second.map (resumed head second)) :=
    forall₂_map_right_iff.2 (forall₂_same.2 fun op _ => alike_carryLoad _ _ op)
  refine ⟨front.zipIdx.map (continued head second), (body.zipIdx front.length).map (continued head second) ++
    ([.marking head.ids.labels] ++ second.map (resumed head second)), ?_, ?_, fun pc op hop t ht => ?_, ?_, ?_⟩
  · rw [join_eq, hops, zipIdx_append, map_append, append_assoc, Nat.zero_add]
    rfl
  · rw [hfront]
    exact hhead.gated.carryStore _
  · obtain ⟨hlt, rfl⟩ := List.getElem?_eq_some_iff.1 hop
    have hlt' : pc < front.length := hbef.length_eq ▸ hlt
    obtain ⟨d, hd, x, hx, hassigned⟩ :=
      hhead.ordered pc front[pc] (getElem?_eq_getElem hlt') t ((hbef.get hlt' hlt).reads t ht)
    obtain ⟨y, hy, hxy⟩ := alike_map hbef d x hx
    rw [Nat.zero_add] at hy
    exact ⟨d, hd, y, hy, hxy.assigned ▸ hassigned⟩
  · have hmark : Settled [.marking head.ids.labels] := .of_reads (by simp [marking, reads])
    exact (hhead.settled.map hbody).append (hmark.append (htail.settled.map hsnd))
  · intro n hn
    rw [flatMap_append, flatMap_append, flatMap_marks_of_alike hbody, flatMap_marks_of_alike hsnd]
    rw [flatMap_append, flatMap_append, mem_append, mem_append] at hn
    obtain hn | hn | hn := hn
    · obtain ⟨y, hy, hn⟩ := mem_flatMap.1 hn
      obtain ⟨x, hx, rfl⟩ := mem_map.1 hy
      obtain hn | rfl := targets_continued head hn
      · have hx' : x.1 ∈ body := fst_mem_of_mem_zipIdx hx
        exact mem_append_left _ (hhead.inner n (mem_flatMap.2 ⟨_, hx', hn⟩))
      · exact mem_append_right _ (mem_append_left _ (mem_singleton_self _))
    · cases hn
    · obtain ⟨y, hy, hn⟩ := mem_flatMap.1 hn
      obtain ⟨x, hx, rfl⟩ := mem_map.1 hy
      refine mem_append_right _ (mem_append_right _ (htail.inner n (mem_flatMap.2 ⟨x, hx, ?_⟩)))
      exact targets_carryLoad hn

end Lowered

/-- What is assembled into a routine: a program that was lowered, or two of them joined,
the second of which was lowered first. -/
inductive Assembled : List Operation → Ids → Prop
  | alone {p : Guest.Program} {s : Surroundings} {ids : Ids} {parts : Parts} {lowered : Lowered}
    (h : p.lower s ids parts = .ok lowered) : Assembled lowered.ops lowered.ids
  | joined {p q : Guest.Program} {s s' : Surroundings} {ids : Ids} {head tail : Lowered}
    (htail : q.lower s' ids StageContext.secondParts = .ok tail)
    (hhead : p.lower s tail.ids StageContext.firstParts = .ok head) :
    Assembled (head.join tail.ops).1 (head.join tail.ops).2

namespace Assembled

theorem exists_supplied (h : Assembled ops ids) : ∃ front body, ops = front ++ body ∧ Supplied front body := by
  cases h with
  | alone h =>
    obtain ⟨front, body, hops, -, -, hsupplied⟩ := Guest.Program.exists_supplied h
    exact ⟨front, body, hops, hsupplied⟩
  | joined htail hhead =>
    obtain ⟨front, body, hops, hstart, -, hfst⟩ := Guest.Program.exists_supplied hhead
    obtain ⟨before, second, hops', -, hbef, hsnd⟩ := Guest.Program.exists_supplied htail
    obtain rfl : before = [] := hbef.symm
    rw [hops', nil_append]
    exact Lowered.exists_supplied_join hops hstart (assigning_lower hhead).computes hfst hsnd

theorem computes (h : Assembled ops ids) : ∀ op ∈ ops, op.Computes := by
  cases h with
  | alone h => exact (assigning_lower h).computes
  | joined htail hhead =>
    have hfst := (assigning_lower hhead).computes
    refine computes_of_alike (Lowered.alike_join _ hfst) (forall_mem_append.2 ⟨hfst, ?_⟩)
    exact forall_mem_cons.2 ⟨computes_of_dest rfl, (assigning_lower htail).computes⟩

theorem assigned (h : Assembled ops ids) :
    (ops.flatMap assigned).Nodup ∧ ∀ t ∈ ops.flatMap assigned, t < ids.temps := by
  cases h with
  | alone h =>
    have hassigning := assigning_lower h
    exact ⟨hassigning.nodup, fun t ht => (hassigning.within t ht).2⟩
  | @joined p q s s' ids head tail htail hhead =>
    have hfst := assigning_lower hhead
    have hsnd := assigning_lower htail
    have hle := hfst.le
    have hmark : (marking head.ids.labels).assigned = [] := rfl
    rw [flatMap_assigned_of_alike (Lowered.alike_join _ hfst.computes), flatMap_append, flatMap_cons,
      hmark, nil_append]
    refine ⟨nodup_append.2 ⟨hfst.nodup, hsnd.nodup, ?_⟩, fun t ht => ?_⟩
    · rintro t ht _ ht' rfl
      have := (hfst.within t ht).1
      have := (hsnd.within t ht').2
      omega
    · change t < head.ids.temps
      obtain ht | ht := mem_append.1 ht
      · exact (hfst.within t ht).2
      · have := (hsnd.within t ht).2
        omega

end Assembled
end ShaderRecompiler
