import ShaderRecompiler.Proofs.Listing
import ShaderRecompiler.Proofs.Splicing

/-! The course of control through a lowered program. Behind what comes before the program,
control passes operations one at a time until it gets to an ending; branches lead to
where it can be between two operations, never into the middle of an ending. -/
namespace ShaderRecompiler

open List Operation Instruction

universe u

namespace Flat

/-- Where control goes: to a label that the operation names, or on from what is no jump. -/
theorem follow_targets {σ : Type u} {next : Nat} {I : Interpretation σ} {s : σ} (h : follow I ops pc op s = some next) :
    (∃ n ∈ op.targets, mark? ops n = some next) ∨ (next = pc + 1 ∧ op.inst.isJump = false) := by
  cases hterm : op.inst.isTerminator with
  | true =>
    refine (follow_cases h).imp_left fun htgt => ?_
    obtain ⟨n, hn, hmark⟩ := Option.bind_eq_some_iff.1 htgt
    exact ⟨n, by simp [targets, hterm, label, hn], hmark⟩
  | false =>
    have hon : follow I ops pc op s = some (pc + 1) := by
      unfold follow
      revert hterm
      cases op.inst <;> simp [isTerminator]
    refine .inr ⟨Option.some.inj (h.symm.trans hon), ?_⟩
    revert hterm
    cases op.inst <;> simp [isTerminator, isJump]

end Flat

namespace Guest.Guard

theorem isStraight_skip (g : Guard) (n : Nat) : (g.skip n).inst.isStraight = false := by
  unfold skip
  cases g.inverted <;> rfl

theorem isStraight_jump (g : Guard) (n : Nat) : (g.jump n).inst.isStraight = false := by
  unfold jump
  cases g.inverted <;> cases g.isConditional <;> rfl

end Guest.Guard

namespace Piece

/-- What control passes at a time: an exit as a whole, everything else operation by
operation. -/
def chunks (i : Guest.Placed) (piece : Piece) : List (List Operation) :=
  piece.before.map ([·]) ++ ((if i.op = .exit then [piece.code] else piece.code.map ([·])) ++ piece.after.map ([·]))

def blockChunks (b : Guest.Block) (block : List Piece × Nat) : List (List Operation) :=
  [.marking block.2] :: (b.body.zip block.1).flatMap fun x => x.2.chunks x.1

theorem flatten_chunks (i : Guest.Placed) (piece : Piece) : (piece.chunks i).flatten = piece.ops := by
  have hsingle : ∀ ops : List Operation, (ops.map ([·])).flatten = ops := flatMap_singleton'
  unfold chunks ops
  split <;> simp [hsingle]

theorem flatten_zip {α β γ : Type} {R : α → β → Prop} {f : α × β → List (List γ)} {g : β → List γ} {xs : List α}
    {ys : List β} (h : Forall₂ R xs ys) (hf : ∀ x y, R x y → (f (x, y)).flatten = g y) :
    ((xs.zip ys).flatMap f).flatten = ys.flatMap g := by
  induction h with
  | nil => rfl
  | cons hxy _ ih =>
    rw [zip_cons_cons, flatMap_cons, flatten_append, flatMap_cons, hf _ _ hxy, ih]

theorem flatten_blockChunks {l : Lowering} {b : Guest.Block} {block : List Piece × Nat} (h : l.LowersBlock b block) :
    (blockChunks b block).flatten = blockOps block := by
  rw [blockChunks, flatten_cons, flatten_zip h.2 fun i piece _ => flatten_chunks i piece]
  rfl

end Piece

namespace Lowering

variable {l : Lowering} {P : Operation → Prop} {ops : List Operation} {start : Nat}

/-- Control passes the operation and gets to one of the labels in `opens` or goes on. -/
structure Passes (P : Operation → Prop) (opens : Nat → Prop) (op : Operation) : Prop where
  straight : op.inst.isStraight → P op
  targets : ∀ n ∈ op.targets, opens n

theorem passes_marking (n : Nat) : Passes P opens (.marking n) := by
  refine ⟨fun h => absurd h Bool.false_ne_true, fun _ hm => ?_⟩
  rw [targets, if_neg (by simp [marking, isTerminator])] at hm
  cases hm

theorem Passes.mono {opens' : Nat → Prop} {op : Operation} (h : Passes P opens op)
    (hopens : ∀ n, opens n → opens' n) : Passes P opens' op :=
  ⟨h.straight, fun n hn => hopens n (h.targets n hn)⟩

/-- A list that from `start` on is made of single operations and endings. -/
structure Course (l : Lowering) (P : Operation → Prop) (ops : List Operation) (start : Nat) where
  chunks : List (List Operation)
  drop_eq : ops.drop start = chunks.flatten
  cases : ∀ chunk ∈ chunks, (∃ op, chunk = [op] ∧ Passes P (fun n => [.marking n] ∈ chunks) op) ∨ l.Ending chunk
  nodup : (ops.flatMap marks).Nodup
  jumps : ∃ last ∈ ops.getLast?, last.inst.isJump
  enters : start < ops.length

namespace Course

variable (C : l.Course P ops start)

def place (i : Nat) : Nat := start + (C.chunks.take i).flatten.length

/-- Control can be here before a chunk. -/
def Open (pc : Nat) : Prop := ∃ i < C.chunks.length, pc = C.place i

variable {C} in
theorem le_of_open (h : C.Open pc) : start ≤ pc := by
  obtain ⟨i, -, rfl⟩ := h
  exact Nat.le_add_right _ _

theorem stands (h : C.chunks[i]? = some chunk) : Flat.Stands ops (C.place i) chunk := by
  have hwhole : Flat.Stands ops start (C.chunks.flatMap id) := by
    rw [flatMap_id, ← C.drop_eq]
    exact prefix_rfl
  have hst := hwhole.flatMap h
  rwa [flatMap_id] at hst

theorem place_succ (h : C.chunks[i]? = some chunk) : C.place (i + 1) = C.place i + chunk.length := by
  rw [place, place, take_add_one, h, flatten_append, length_append, Nat.add_assoc]
  simp

theorem open_start : C.Open start := by
  refine ⟨0, length_pos_of_ne_nil fun hnil => ?_, by simp [place]⟩
  have hdrop := C.drop_eq
  rw [hnil] at hdrop
  exact absurd C.enters (Nat.not_lt.2 (drop_eq_nil_iff.1 hdrop))

theorem open_mark (h : [.marking n] ∈ C.chunks) (hmark : Flat.mark? ops n = some pc) : C.Open pc := by
  obtain ⟨i, hi, hchunk⟩ := List.getElem_of_mem h
  refine ⟨i, hi, Option.some.inj (hmark.symm.trans ?_)⟩
  exact Flat.mark?_eq C.nodup (C.stands (List.getElem?_eq_some_iff.2 ⟨hi, hchunk⟩)).head (by simp)

/-- Before a chunk control passes an operation, and is then before another chunk, or
stands at an ending. -/
theorem open_cases {pc : Nat} (h : C.Open pc) :
    (∃ op, ops[pc]? = some op ∧ (op.inst.isStraight = true → P op) ∧ ∀ {σ : Type u} (I : Interpretation σ) (s : σ) next,
      Flat.follow I ops pc op s = some next → C.Open next) ∨ ∃ code, l.Ending code ∧ Flat.Stands ops pc code := by
  obtain ⟨i, hi, rfl⟩ := h
  have hchunk : C.chunks[i]? = some C.chunks[i] := getElem?_eq_getElem hi
  have hst := C.stands hchunk
  refine (C.cases _ (getElem_mem hi)).imp ?_ fun hending => ⟨_, hending, hst⟩
  rintro ⟨op, hop, hpasses⟩
  rw [hop] at hst hchunk
  refine ⟨op, hst.head, hpasses.straight, fun I s next hnext => ?_⟩
  obtain ⟨n, hn, hmark⟩ | ⟨rfl, hjump⟩ := Flat.follow_targets hnext
  · exact C.open_mark (hpasses.targets n hn) hmark
  · have hsucc := C.place_succ hchunk
    refine ⟨i + 1, Nat.lt_of_le_of_ne hi fun hlast => ?_, hsucc.symm⟩
    -- behind the last chunk the list ends, so the operation would be the jump at its end
    obtain ⟨last, hlast', hisJump⟩ := C.jumps
    have hlen : C.place (i + 1) = ops.length := by
      have hdrop := congrArg List.length C.drop_eq
      rw [length_drop] at hdrop
      have henters := C.enters
      rw [place, hlast, take_length]
      omega
    rw [hsucc] at hlen
    rw [getLast?_eq_getElem?, ← hlen, length_singleton, Nat.add_sub_cancel, hst.head] at hlast'
    obtain rfl := Option.some.inj hlast'
    rw [hjump] at hisJump
    cases hisJump

end Course

/-- The chunks of a piece lead to each other or to the target of a branch. -/
theorem Lowers.chunks {piece : Piece} (h : l.Lowers i piece)
    (hP : i.op ≠ .exit → ∀ code, (l.op i.op).Produces code → ∀ op ∈ code, P op) :
    ∀ chunk ∈ piece.chunks i, (∃ op, chunk = [op] ∧ Passes P (fun n => [.marking n] ∈ piece.chunks i ∨
      ∃ target, i.op = .bra target ∧ l.label? target = some (.label n)) op) ∨ l.Ending chunk := by
  have hcode : ∀ code, (l.op i.op).Produces code → ∀ opens : Nat → Prop,
      ∀ chunk ∈ (if i.op = .exit then [code] else code.map ([·])),
        (∃ op, chunk = [op] ∧ Passes P opens op) ∨ l.Ending chunk := by
    intro code hcode opens chunk hchunk
    by_cases hexit : i.op = .exit
    · rw [if_pos hexit, mem_singleton] at hchunk
      subst hchunk
      rw [hexit] at hcode
      exact .inr (ending_of_produces hcode)
    · rw [if_neg hexit] at hchunk
      obtain ⟨op, hop, rfl⟩ := mem_map.1 hchunk
      refine .inl ⟨op, rfl, fun _ => hP hexit code hcode op hop, fun n hn => ?_⟩
      rw [targets_eq_nil (isStraight_of_produces hexit hcode op hop)] at hn
      cases hn
  have hbent : ∀ {opens : Nat → Prop} {op : Operation} {n : Nat}, op.inst.isStraight = false → op.targets = [n] →
      opens n → Passes P opens op := by
    intro opens op n hop htgts hn
    refine ⟨fun hstr => absurd (hop.symm.trans hstr) Bool.false_ne_true, fun _ hm => ?_⟩
    rw [htgts, mem_singleton] at hm
    rwa [hm]
  intro chunk hchunk
  cases h with
  | @bra target n hop hlab =>
    have hexit : i.op ≠ .exit := by simp [hop]
    obtain rfl : chunk = [i.guard.jump n] := by simpa [Piece.chunks, hexit] using hchunk
    refine .inl ⟨_, rfl, hbent ?_ ?_ (.inr ⟨target, hop, hlab⟩)⟩
    · exact Guest.Guard.isStraight_jump _ _
    · exact Guest.Guard.targets_jump _ _
  | @plain code hop hguard hprod =>
    exact hcode code hprod _ chunk (by simpa [Piece.chunks] using hchunk)
  | @guarded code n hop hguard hprod =>
    obtain hskip | hchunk | hmark := (by simpa [Piece.chunks] using hchunk :
      chunk = [i.guard.skip n] ∨ chunk ∈ (if i.op = .exit then [code] else code.map ([·])) ∨ chunk = [.marking n])
    · refine .inl ⟨_, hskip, hbent (n := n) ?_ ?_ (.inl (by simp [Piece.chunks]))⟩
      · exact Guest.Guard.isStraight_skip _ _
      · exact Guest.Guard.targets_skip _ _
    · exact hcode code hprod _ chunk hchunk
    · exact .inl ⟨_, hmark, passes_marking n⟩

end Lowering

namespace Guest.Program

variable {p : Program}

/-- A lowered program that can be cut into blocks is such a course. -/
theorem exists_course (h : p.lower s ids parts = .ok lowered) (hnd : (lowered.ops.flatMap marks).Nodup)
    {P : Operation → Prop}
    (hP : ∀ op ∈ p.ops, op ≠ .exit → ∀ code, ((p.lowering s parts (p.blockLabels ids)).op op).Produces code →
      ∀ o ∈ code, P o) :
    Nonempty ((p.lowering s parts (p.blockLabels ids)).Course P lowered.ops lowered.bodyStart) := by
  obtain ⟨front, blocks, closing, hops, -, hlowers, hcloses, hjumps, henters, hstart⟩ := exists_pieces h
  have htgts := mem_addresses_of_lower h
  generalize p.lowering s parts (p.blockLabels ids) = l at *
  let chunks := ((p.blocks.zip blocks).flatMap fun x => Piece.blockChunks x.1 x.2) ++
    (if closing = [] then [] else [closing])
  have hclosing : (if closing = [] then [] else [closing]).flatten = closing := by
    split
    · next hnil => rw [hnil]; rfl
    · simp
  have hdrop : lowered.ops.drop lowered.bodyStart = chunks.flatten := by
    rw [← hstart, hops, drop_left, flatten_append, hclosing,
      Piece.flatten_zip hlowers fun b block hb => Piece.flatten_blockChunks hb]
  have hblk : ∀ b block, (b, block) ∈ p.blocks.zip blocks → Piece.blockChunks b block ⊆ chunks :=
    fun b block hmem chunk hchunk => mem_append_left _ (mem_flatMap.2 ⟨_, hmem, hchunk⟩)
  obtain ⟨hlen, hzip⟩ := forall₂_iff_zip.1 hlowers
  have hlab : ∀ target ∈ p.addresses, ∀ n, l.label? target = some (.label n) → [.marking n] ∈ chunks := by
    intro target htgt n hn
    obtain ⟨b, hb, rfl⟩ := mem_map.1 htgt
    rw [← map_fst_zip (Nat.le_of_eq hlen)] at hb
    obtain ⟨⟨b, block⟩, hmem, rfl⟩ := mem_map.1 hb
    obtain rfl : n = block.2 := Operand.label.inj (Option.some.inj (hn.symm.trans (hzip hmem).1))
    exact hblk b block hmem mem_cons_self
  refine ⟨{ chunks, drop_eq := hdrop, cases := fun chunk hchunk => ?_, nodup := hnd, jumps := hjumps,
            enters := hstart ▸ henters }⟩
  obtain hchunk | hchunk := mem_append.1 hchunk
  · obtain ⟨⟨b, block⟩, hmem, hchunk⟩ := mem_flatMap.1 hchunk
    have hb := (of_mem_zip hmem).1
    obtain rfl | hchunk := mem_cons.1 hchunk
    · exact .inl ⟨_, rfl, Lowering.passes_marking _⟩
    · obtain ⟨⟨i, piece⟩, hpiece, hchunk⟩ := mem_flatMap.1 hchunk
      have hi := (of_mem_zip hpiece).1
      have hlowersPiece := (forall₂_iff_zip.1 (hzip hmem).2).2 hpiece
      have hpieceChunks : piece.chunks i ⊆ chunks := fun _ hc =>
        hblk b block hmem (mem_cons_of_mem _ (mem_flatMap.2 ⟨_, hpiece, hc⟩))
      refine (hlowersPiece.chunks (hP i.op ?_) chunk hchunk).imp_left ?_
      · exact mem_flatMap.2 ⟨b, hb, mem_map_of_mem hi⟩
      · rintro ⟨op, rfl, hpasses⟩
        refine ⟨op, rfl, hpasses.mono fun n hn => ?_⟩
        obtain hn | ⟨target, hop, hn⟩ := hn
        · exact hpieceChunks hn
        · exact hlab target (htgts i (mem_flatMap.2 ⟨b, hb, hi⟩) target hop) n hn
  · obtain rfl | hending := hcloses
    · simp at hchunk
    · split at hchunk
      · cases hchunk
      · rw [mem_singleton.1 hchunk]
        exact .inr hending

end Guest.Program
end ShaderRecompiler
