import ShaderRecompiler.Proofs.Assembly
import ShaderRecompiler.Proofs.Flat

/-! A lowered program, piece by piece. Every instruction has a piece of the list: the
branch that skips it or that it is, its own operations, and the mark that a skip
leads to. Blocks are their label followed by their pieces, and the list is what
comes before the program, the blocks in order, and what closes it. -/
namespace ShaderRecompiler

open List Operation

variable {m : Emit Unit}

/-- What `m` can append. -/
def Emit.Produces (m : Emit Unit) (code : List Operation) : Prop :=
  ∃ e : Emitter, (m.run e).2.ops.toList = e.ops.toList ++ code

theorem Emit.Produces.emission (h : m.Produces code) {l : Lowering} (hscp : l.Emits G C {} [] [] m) :
    ∃ first last, Emission (l.Emitted G C) [] [] first last code := by
  obtain ⟨e, he⟩ := h
  obtain ⟨added, hadd, hscoped⟩ := hscp.run e
  obtain rfl := append_cancel_left (he.symm.trans hadd)
  exact ⟨_, _, hscoped.emission⟩

namespace Operation

def marking (n : Nat) : Operation := ⟨.markLabel, .none, none, [.label n]⟩

def returning : Operation := ⟨.ret, .none, none, []⟩

@[simp] theorem marks_marking (n : Nat) : (marking n).marks = [n] := rfl

end Operation

namespace Guest.Guard

def skip (g : Guard) (n : Nat) : Operation :=
  ⟨if g.inverted then .branchIfTrue else .branchIfFalse, .none, none, [.label n, g.predicate.operand]⟩

def jump (g : Guard) (n : Nat) : Operation :=
  if g.isConditional then
    ⟨if g.inverted then .branchIfFalse else .branchIfTrue, .none, none, [.label n, g.predicate.operand]⟩
  else ⟨.branch, .none, none, [.label n]⟩

theorem targets_skip (g : Guard) (n : Nat) : (g.skip n).targets = [n] := by
  unfold skip
  cases g.inverted <;> rfl

theorem targets_jump (g : Guard) (n : Nat) : (g.jump n).targets = [n] := by
  unfold jump
  cases g.inverted <;> cases g.isConditional <;> rfl

end Guest.Guard

/-- The operations of one instruction. -/
structure Piece where
  before : List Operation := []
  code : List Operation := []
  after : List Operation := []
deriving Inhabited

def Piece.ops (piece : Piece) : List Operation := piece.before ++ (piece.code ++ piece.after)

/-- The label of a block and the pieces of its instructions. -/
def Piece.blockOps (block : List Piece × Nat) : List Operation :=
  .marking block.2 :: block.1.flatMap Piece.ops

namespace Lowering

variable {l : Lowering}

/-- How an instruction is laid out. -/
inductive Lowers (l : Lowering) (i : Guest.Placed) : Piece → Prop
  | bra {target n : Nat} (hop : i.op = .bra target) (hlabel : l.label? target = some (.label n)) :
    Lowers l i { before := [i.guard.jump n] }
  | plain {code : List Operation} (hop : ∀ target, i.op ≠ .bra target) (hguard : i.guard.isConditional = false)
    (hcode : (l.op i.op).Produces code) : Lowers l i { code }
  | guarded {code : List Operation} (n : Nat) (hop : ∀ target, i.op ≠ .bra target)
    (hguard : i.guard.isConditional) (hcode : (l.op i.op).Produces code) :
    Lowers l i { before := [i.guard.skip n], code, after := [.marking n] }

theorem exists_op (l : Lowering) (op : Guest.Op) (e : Emitter) :
    ∃ code, ((l.op op).run e).2.ops.toList = e.ops.toList ++ code := by
  have hscp : l.Emits (fun _ => True) (fun _ => True) {} [] [] (l.op op) :=
    scopes_op_or_exit (fun _ => trivial) trivial trivial
  obtain ⟨code, hcode, -⟩ := hscp.run e
  exact ⟨code, hcode⟩

theorem isStraight_of_produces {op : Guest.Op} (hexit : op ≠ .exit) (h : (l.op op).Produces code) :
    ∀ op ∈ code, op.inst.isStraight := by
  have hscp : l.Emits (· = some op) (fun _ => False) {} [] [] (l.op op) := scopes_op hexit rfl
  obtain ⟨_, _, hem⟩ := h.emission hscp
  exact fun op hop => (hem.all op hop).isStraight

theorem epilogue_of_produces (h : l.epilogue.Produces code) :
    (∀ op ∈ code, op.inst ≠ .ret) ∧ ∀ n ∈ code.flatMap targets, n ∈ code.flatMap marks := by
  have hscp : l.Emits (· = none) (· ≠ .ret) {} [] [] l.epilogue := scopes_epilogue rfl fun _ hne => hne
  obtain ⟨_, _, hem⟩ := h.emission hscp
  refine ⟨fun op hop hret => ?_, fun n hn => (hem.targets n hn).resolve_right not_mem_nil⟩
  obtain hstr | hne := (hem.all op hop).isStraight_or
  · rw [hret] at hstr
    cases hstr
  · exact hne hret

/-- An epilogue followed by a return. -/
def Ending (l : Lowering) (code : List Operation) : Prop :=
  ∃ epilogue, l.epilogue.Produces epilogue ∧ code = epilogue ++ [.returning]

theorem exists_epilogue (l : Lowering) (e : Emitter) :
    ∃ code, ((do l.epilogue; Emit.ret : Emit Unit).run e).2.ops.toList = e.ops.toList ++ code ∧ l.Ending code := by
  have hscp : l.Emits (· = none) (fun _ => True) {} [] [] l.epilogue :=
    scopes_epilogue rfl fun _ _ => trivial
  obtain ⟨added, hadd, -⟩ := hscp.run e
  refine ⟨added ++ [.returning], ?_, added, ⟨e, hadd⟩, rfl⟩
  rw [← append_assoc, ← hadd]
  exact Array.toList_push

theorem ending_of_produces (h : (l.op .exit).Produces code) : l.Ending code := by
  obtain ⟨e, he⟩ := h
  obtain ⟨added, hadd, hending⟩ := l.exists_epilogue e
  obtain rfl := append_cancel_left (he.symm.trans hadd)
  exact hending

theorem exists_piece (hbra : ∀ target, i.op = .bra target → ∃ n, l.label? target = some (.label n)) (e : Emitter) :
    ∃ piece, l.Lowers i piece ∧ ((l.placed i).run e).2.ops.toList = e.ops.toList ++ piece.ops := by
  by_cases hop : ∃ target, i.op = .bra target
  · obtain ⟨target, hop⟩ := hop
    obtain ⟨n, hn⟩ := hbra target hop
    refine ⟨_, .bra hop hn, ?_⟩
    have hplaced : l.placed i = branch i.guard (.label n) := by
      unfold placed
      rw [hop]
      dsimp only
      rw [hn]
    rw [hplaced, branch, Guest.Guard.jump]
    split
    · split <;> exact Array.toList_push
    · exact Array.toList_push
  · push Not at hop
    have hplaced : l.placed i = guarded i.guard (l.op i.op) := by
      unfold placed
      split
      · next target htgt => exact absurd htgt (hop target)
      · rfl
    rw [hplaced, guarded]
    split
    · next hguard =>
      let skipped : Emitter :=
        { ops := e.ops.push (i.guard.skip e.ids.labels)
          ids := { e.ids with labels := e.ids.labels + 1 } }
      obtain ⟨code, hcode⟩ := l.exists_op i.op skipped
      refine ⟨_, .guarded e.ids.labels hop hguard ⟨skipped, hcode⟩, ?_⟩
      have hrun : ∀ m : Emit Unit, ((do
            let skip ← Emit.freshLabel
            let cond := i.guard.predicate.operand
            if i.guard.inverted then Emit.branchIfTrue skip cond else Emit.branchIfFalse skip cond
            m
            Emit.markLabel skip : Emit Unit).run e).2.ops =
          (m.run skipped).2.ops.push (.marking e.ids.labels) := by
        intro m
        simp only [skipped, Guest.Guard.skip]
        cases i.guard.inverted <;> rfl
      rw [hrun, Array.toList_push, hcode, Array.toList_push, Piece.ops, append_assoc, append_assoc]
    · next hguard =>
      obtain ⟨code, hcode⟩ := l.exists_op i.op e
      refine ⟨_, .plain hop (Bool.not_eq_true _ ▸ hguard) ⟨e, hcode⟩, ?_⟩
      rw [hcode, Piece.ops, append_nil, nil_append]

theorem exists_forM {α β : Type} {f : α → Emit Unit} {R : α → β → Prop} {g : β → List Operation} {xs : List α}
    (h : ∀ x ∈ xs, ∀ e : Emitter, ∃ y, R x y ∧ ((f x).run e).2.ops.toList = e.ops.toList ++ g y) (e : Emitter) :
    ∃ ys, Forall₂ R xs ys ∧ ((xs.forM f).run e).2.ops.toList = e.ops.toList ++ ys.flatMap g := by
  induction xs generalizing e with
  | nil => exact ⟨[], .nil, (append_nil _).symm⟩
  | cons x xs ih =>
    obtain ⟨y, hy, hrun⟩ := h x mem_cons_self e
    obtain ⟨ys, hys, hrest⟩ := ih (fun x hx => h x (mem_cons_of_mem _ hx)) ((f x).run e).2
    refine ⟨y :: ys, .cons hy hys, ?_⟩
    rw [flatMap_cons, ← append_assoc, ← hrun]
    exact hrest

def LowersBlock (l : Lowering) (b : Guest.Block) (block : List Piece × Nat) : Prop :=
  l.label? b.address = some (.label block.2) ∧ Forall₂ l.Lowers b.body block.1

theorem exists_block (hlab : l.label? b.address = some (.label n))
    (hbra : ∀ i ∈ b.body, ∀ target, i.op = .bra target → ∃ n, l.label? target = some (.label n)) (e : Emitter) :
    ∃ block, l.LowersBlock b block ∧
      ((l.block b).run e).2.ops.toList = e.ops.toList ++ Piece.blockOps block := by
  obtain ⟨pieces, hpcs, hrun⟩ :=
    exists_forM (fun i hi e => exists_piece (hbra i hi) e) ((Emit.markLabel (.label n)).run e).2
  refine ⟨(pieces, n), ⟨hlab, hpcs⟩, ?_⟩
  have hblk : l.block b = (do Emit.markLabel (.label n); b.body.forM l.placed) := by
    unfold block
    rw [hlab]
  rw [hblk]
  refine hrun.trans ?_
  change (e.ops.push (.marking n)).toList ++ _ = _
  rw [Array.toList_push, append_assoc]
  rfl

/-! What comes before the program does not end in a jump. -/

/-- Whatever was emitted before, control goes on behind `m`. -/
def Lands {α : Type} (m : Emit α) : Prop := ∀ e : Emitter, (m.run e).2.endsInJump = false

theorem Lands.bind {m : Emit α} {f : α → Emit β} (h : ∀ a, Lands (f a)) : Lands (m >>= f) :=
  fun e => h (m.run e).1 (m.run e).2

theorem Lands.store (storage : Storage) (sources : List Operand) : Lands (Emit.store storage sources) := by
  intro e
  change (e.ops.push _).back?.any _ = false
  rw [Array.back?_push]
  rfl

/-- Control goes on behind `m` if it did before. -/
def Settles (m : Emit Unit) : Prop := ∀ e : Emitter, e.endsInJump = false → (m.run e).2.endsInJump = false

theorem Lands.settles (h : Lands m) : Settles m := fun e _ => h e

theorem Settles.nop : Settles (pure ()) := fun _ h => h

theorem Settles.ite [Decidable c] (hm : Settles m) (hm' : Settles m') : Settles (if c then m else m') := by
  split
  · exact hm
  · exact hm'

theorem Settles.bind (hm : Settles m) (hm' : Settles m') : Settles (do m; m') :=
  fun e h => hm' _ (hm e h)

theorem Settles.forM {α : Type} {f : α → Emit Unit} (h : ∀ x, Settles (f x)) (xs : List α) : Settles (xs.forM f) := by
  induction xs with
  | nil => exact .nop
  | cons x xs ih => exact .bind (h x) ih

theorem settles_initializeOutputs (l : Lowering) : Settles l.initializeOutputs := by
  have hone : ∀ v location, Settles (l.initializeOutput v location) := fun v location =>
    .forM (fun _ => (Lands.store _ _).settles) _
  exact .ite (.bind (hone _ _) (.forM (fun _ => hone _ _) _)) .nop

theorem settles_prologue (l : Lowering) : Settles l.prologue := by
  have hvtx : ∀ a b, Lands (l.vertexPrologue a b) := by
    intro a b
    unfold vertexPrologue
    iterate 13 refine .bind fun _ => ?_
    exact .store _ _
  have hgeo : ∀ a b c, Lands (l.geometryPrologue a b c) := by
    intro a b c
    unfold geometryPrologue
    iterate 9 refine .bind fun _ => ?_
    exact .store _ _
  have hemu : Settles l.emulationPrologue := by
    unfold emulationPrologue
    split
    · exact (hvtx _ _).settles
    · exact (hgeo _ _ _).settles
    · exact .nop
  have hlay : ∀ address, Settles (l.forwardLayer address) :=
    fun _ => Lands.settles (.bind fun _ => .store _ _)
  unfold prologue
  by_cases h : l.config.emulated
  · rw [if_pos h]
    refine .bind hemu (.ite ?_ .nop)
    split
    · exact hlay _
    · exact .nop
  · rw [if_neg h]
    refine .ite ?_ .nop
    split
    · exact hlay _
    · exact .nop

theorem settles_front (l : Lowering) (parts : Parts) : Settles (l.front parts) := by
  unfold front
  by_cases h : parts.initialOutputs
  · rw [if_pos h]
    exact .bind l.settles_initializeOutputs (.ite l.settles_prologue .nop)
  · rw [if_neg h]
    exact .ite l.settles_prologue .nop

/-! The loop at the end of an emulated geometry stage. -/

section Padding

variable (l : Lowering) (counter head temp : Nat)

/-- The number of entries is compared with that of the range. -/
def padTest : List Operation :=
  [⟨.load, .localMemory, some (.temp temp), [.word counter]⟩,
    ⟨.compare .greaterOrEqual .u32, .none, some (.temp (temp + 1)), [.temp temp, .word l.config.indexStride]⟩]

def padLoad : Operation :=
  ⟨.load, .input, some (.temp (temp + 2)), [IoVariable.operand .primitiveId]⟩

def padEntry : List Operation :=
  [⟨.multiply .u32, .none, some (.temp (temp + 3)), [.temp (temp + 2), .word l.config.indexStride]⟩,
    ⟨.add .u32, .none, some (.temp (temp + 4)), [.temp (temp + 3), .temp temp]⟩,
    ⟨.store, .storageBuffer, none,
      [.word l.reservations.geometryIndexOutput, .word 0, .temp (temp + 4), .constant 0xffffffff]⟩,
    ⟨.add .u32, .none, some (.temp (temp + 5)), [.temp temp, .word 1]⟩,
    ⟨.store, .localMemory, none, [.word counter, .temp (temp + 5)]⟩]

def padding : List Operation :=
  [.marking head] ++ (l.padTest counter temp ++ (⟨.branchIfTrue, .none, none, [.label (head + 1), .temp (temp + 1)]⟩ ::
      (padLoad temp :: l.padEntry counter temp ++ [⟨.branch, .none, none, [.label head]⟩, .marking (head + 1)])))

theorem run_geometryEpilogue (e : Emitter) : ((l.geometryEpilogue counter).run e).2.ops.toList =
    e.ops.toList ++ l.padding counter e.ids.labels e.ids.temps := by
  have hrun : ((l.geometryEpilogue counter).run e).2.ops =
      e.ops ++ (l.padding counter e.ids.labels e.ids.temps).toArray := rfl
  rw [hrun, Array.toList_append]

end Padding
end Lowering

namespace Guest.Program

variable {p : Program}

/-- A list of operations as the pieces of a program. -/
structure Listing (p : Program) (l : Lowering) (ops : List Operation) where
  front : List Operation
  /-- The pieces of each block, with the label of the block. -/
  blocks : List (List Piece × Nat)
  closing : List Operation
  ops_eq : ops = front ++ (blocks.flatMap Piece.blockOps ++ closing)
  lowers : Forall₂ l.LowersBlock p.blocks blocks
  closes : closing = [] ∨ l.Ending closing
  targets : ∀ i ∈ p.placed, ∀ target, i.op = .bra target → target ∈ p.addresses
  nodup : (ops.flatMap marks).Nodup
  jumps : ∃ last ∈ ops.getLast?, last.inst.isJump
  enters : front.length < ops.length

theorem exists_label (h : address ∈ p.addresses) (s : Surroundings) (parts : Parts) (ids : Ids) :
    ∃ n, (p.lowering s parts (p.blockLabels ids)).label? address = some (.label n) := by
  have hlabs : (p.lowering s parts (p.blockLabels ids)).Labels (p.numbers ids.labels) := rfl
  rw [hlabs.label?_eq]
  cases hlookup : (p.numbers ids.labels).lookup address with
  | some n => exact ⟨n, rfl⟩
  | none =>
    have hmem : address ∈ (p.numbers ids.labels).map Prod.fst := by
      rw [map_fst_numbers]
      exact mem_reverse.2 h
    obtain ⟨q, hq, rfl⟩ := mem_map.1 hmem
    have := lookup_eq_none_iff.1 hlookup q hq
    simp at this

theorem mem_addresses_of_lower (h : p.lower s ids parts = .ok lowered) :
    ∀ i ∈ p.placed, ∀ target, i.op = .bra target → target ∈ p.addresses := by
  intro i hi target hop
  have hfault := findSome?_eq_none_iff.1 (error?_of_lower h) i hi
  rw [Option.map_eq_none_iff, hop, Op.fault?] at hfault
  by_contra hmem
  rw [if_neg (by simpa using hmem)] at hfault
  cases hfault

theorem nodup_marks (hnd : p.addresses.Nodup) (h : p.lower s ids parts = .ok lowered) :
    (lowered.ops.flatMap marks).Nodup := by
  obtain ⟨own, hown, -, hperm⟩ := (emission_lower hnd h).marks
  exact hperm.nodup_iff.2 hown

theorem exists_close (l : Lowering) (e : Emitter) : ∃ closing, (l.close.run e).2.ops.toList = e.ops.toList ++ closing ∧
      (closing = [] ∨ l.Ending closing) ∧ (e.endsInJump = false → closing ≠ []) := by
  have hclose : l.close.run e = (if (!e.endsInJump) then do l.epilogue; Emit.ret else pure ()).run e := rfl
  rw [hclose]
  cases hjump : e.endsInJump with
  | true => exact ⟨[], (append_nil _).symm, .inl rfl, nofun⟩
  | false =>
    obtain ⟨code, hcode, hending⟩ := l.exists_epilogue e
    refine ⟨code, hcode, .inr hending, ?_⟩
    obtain ⟨epilogue, -, rfl⟩ := hending
    simp

/-- What lowering gives is made of the pieces of the program, whatever the addresses of its
blocks are. -/
theorem exists_pieces (h : p.lower s ids parts = .ok lowered) :
    ∃ front blocks closing, lowered.ops = front ++ (blocks.flatMap Piece.blockOps ++ closing) ∧
      (((p.lowering s parts (p.blockLabels ids)).front parts).run (p.started ids)).2.ops.toList = front ∧
      Forall₂ (p.lowering s parts (p.blockLabels ids)).LowersBlock p.blocks blocks ∧
      (closing = [] ∨ (p.lowering s parts (p.blockLabels ids)).Ending closing) ∧
      (∃ last ∈ lowered.ops.getLast?, last.inst.isJump) ∧ front.length < lowered.ops.length ∧
      front.length = lowered.bodyStart := by
  obtain ⟨hops, -, hstart⟩ := lower_eq h
  have htgts := mem_addresses_of_lower h
  let l := p.lowering s parts (p.blockLabels ids)
  let body := ((l.front parts).run (p.started ids)).2
  have hblk : ∀ b ∈ p.blocks, ∀ e, ∃ block, l.LowersBlock b block ∧
      ((l.block b).run e).2.ops.toList = e.ops.toList ++ Piece.blockOps block := by
    intro b hb e
    obtain ⟨n, hn⟩ := exists_label (mem_map_of_mem hb) s parts ids
    refine Lowering.exists_block hn (fun i hi target hop => ?_) e
    exact exists_label (htgts i (mem_flatMap.2 ⟨b, hb, hi⟩) target hop) s parts ids
  obtain ⟨blocks, hblks, hrun⟩ := Lowering.exists_forM hblk body
  obtain ⟨closing, hclosing, hcloses, hnonempty⟩ := exists_close l ((p.blocks.forM l.block).run body).2
  have hwhole : lowered.ops = body.ops.toList ++ (blocks.flatMap Piece.blockOps ++ closing) := by
    rw [hops, ← append_assoc, ← hrun]
    exact hclosing
  have hjumps := exists_last_of_lower h
  have henters : body.ops.toList.length < lowered.ops.length := by
    rw [hwhole, length_append]
    cases blocks with
    | nil =>
      have hnone : p.blocks = [] := forall₂_nil_right_iff.1 hblks
      rw [hnone] at hnonempty
      have hpos := length_pos_of_ne_nil (hnonempty (l.settles_front parts (p.started ids) rfl))
      rw [flatMap_nil, nil_append]
      omega
    | cons => simp [Piece.blockOps]
  exact ⟨_, blocks, closing, hwhole, rfl, hblks, hcloses, hjumps, henters, hstart.symm⟩

theorem exists_listing (hnd : p.addresses.Nodup) (h : p.lower s ids parts = .ok lowered) :
    ∃ listing : p.Listing (p.lowering s parts (p.blockLabels ids)) lowered.ops,
      listing.front.length = lowered.bodyStart := by
  obtain ⟨front, blocks, closing, hops, -, hlowers, hcloses, hjumps, henters, hstart⟩ := exists_pieces h
  exact ⟨⟨front, blocks, closing, hops, hlowers, hcloses, mem_addresses_of_lower h, nodup_marks hnd h, hjumps,
    henters⟩, hstart⟩

end Guest.Program
end ShaderRecompiler
