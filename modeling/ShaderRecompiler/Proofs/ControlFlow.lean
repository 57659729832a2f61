import ShaderRecompiler.Proofs.Listing

/-! Lowering keeps control flow. A guest program runs its blocks in order; guards
decide which instructions are executed, a taken branch goes to the block at its
target, and control stops at an exit or behind the last block. The list it is
lowered to goes through the operations of the same instructions in the same order,
and each stop is the start of an epilogue that is followed by a return. -/
namespace ShaderRecompiler

open List Operation Nat

universe u

variable {σ : Type u}

namespace Flat

/-- The places among these where the operation neither branches nor returns. -/
def performed (ops : List Operation) (places : List Nat) : List Nat :=
  places.filter fun pc => (ops[pc]?).any (·.inst.isStraight)

/-- In `m` steps control gets from `c` to `c'` and performs the operations at `places`. -/
def Leads (I : Interpretation σ) (ops : List Operation) (m : Nat) (c : Option Nat × σ) (places : List Nat)
    (c' : Option Nat × σ) : Prop :=
  performed ops (run I ops m c).1 = places ∧ (run I ops m c).2 = c'

namespace Leads

theorem refl (c : Option Nat × σ) : Leads I ops 0 c [] c := ⟨rfl, rfl⟩

theorem trans (h : Leads I ops m c places c') (h' : Leads I ops n c' places' c'') :
    Leads I ops (m + n) c (places ++ places') c'' := by
  obtain ⟨rfl, rfl⟩ := h
  obtain ⟨rfl, rfl⟩ := h'
  rw [Leads, stepwise.add]
  exact ⟨filter_append .., rfl⟩

theorem mark (h : ops[pc]? = some op) (hop : op.inst = .markLabel) :
    Leads I ops 1 (some pc, s) [] (some (pc + 1), s) := by
  rw [Leads, run_mark h hop]
  exact ⟨rfl, rfl⟩

theorem terminator (h : ops[pc]? = some op) (hop : op.inst.isTerminator) :
    Leads I ops 1 (some pc, s) [] (follow I ops pc op s, s) := by
  rw [Leads, run_terminator h hop]
  refine ⟨?_, rfl⟩
  simp [performed, h, Instruction.isStraight_of_isTerminator hop]

theorem straight (h : Stands ops pc code) (hcode : ∀ op ∈ code, op.inst.isStraight) :
    Leads I ops code.length (some pc, s) (range' pc code.length)
      (some (pc + code.length), I.performAll code s) := by
  rw [Leads, run_straight h hcode]
  refine ⟨filter_eq_self.2 fun _ hplc => ?_, rfl⟩
  obtain ⟨i, hi, rfl⟩ := mem_range'.1 hplc
  rw [one_mul, h.getElem? hi, getElem?_eq_getElem hi]
  exact hcode _ (getElem_mem hi)

end Leads
end Flat

open Flat

namespace Guest.Guard

/-- The guarded instruction is executed. -/
def passes (I : Interpretation σ) (g : Guard) (s : σ) : Bool :=
  (g.predicate.isPt || I.holds (.predicate g.predicate) s) != g.inverted

variable {I : Interpretation σ} {g : Guard} {s : σ}

theorem passes_of_not_isConditional (h : g.isConditional = false) : g.passes I s := by
  rw [isConditional, Bool.or_eq_false_iff, Bool.not_eq_false'] at h
  rw [passes, h.1, h.2]
  rfl

theorem isTerminator_skip (g : Guard) (n : Nat) : (g.skip n).inst.isTerminator := by
  unfold skip
  cases g.inverted <;> rfl

theorem isTerminator_jump (g : Guard) (n : Nat) : (g.jump n).inst.isTerminator := by
  unfold jump
  split
  · cases g.inverted <;> rfl
  · rfl

section

variable (hone : ∀ s, I.holds (.word 1) s)
include hone

theorem holds_operand (g : Guard) (s : σ) :
    I.holds g.predicate.operand s = (g.predicate.isPt || I.holds (.predicate g.predicate) s) := by
  unfold Predicate.operand
  cases h : g.predicate.isPt with
  | true => exact hone s
  | false => rfl

theorem follow_skip : follow I ops pc (g.skip n) s = if g.passes I s then some (pc + 1) else mark? ops n := by
  have hcond := holds_operand hone g s
  unfold follow skip passes target?
  cases hinverted : g.inverted <;> cases hholds : I.holds g.predicate.operand s <;>
    simp [hholds, ← hcond, source?, Operand.asLabel?]

theorem follow_jump : follow I ops pc (g.jump n) s = if g.passes I s then mark? ops n else some (pc + 1) := by
  have hcond := holds_operand hone g s
  cases h : g.isConditional with
  | true =>
    unfold follow jump passes target?
    cases hinverted : g.inverted <;> cases hholds : I.holds g.predicate.operand s <;>
      simp [h, hholds, ← hcond, source?, Operand.asLabel?]
  | false =>
    rw [passes_of_not_isConditional h, if_pos rfl, jump, h, if_neg Bool.false_ne_true]
    rfl

end

end Guest.Guard

/-! One instruction. -/

namespace Lowering.Lowers

variable {I : Interpretation σ} {l : Lowering} {ops : List Operation} {i : Guest.Placed} {piece : Piece} {pc : Nat}
  {s : σ}

section

variable (h : l.Lowers i piece) (hpiece : Stands ops pc piece.ops) (hone : ∀ s, I.holds (.word 1) s)
include h hpiece hone

theorem leads_past (hnd : (ops.flatMap marks).Nodup) (hpass : i.guard.passes I s = false) :
    ∃ m, Leads I ops m (some pc, s) [] (some (pc + piece.ops.length), s) := by
  cases h with
  | bra _ _ =>
    have hjump := Leads.terminator (I := I) (s := s) hpiece.head (i.guard.isTerminator_jump _)
    rw [Guest.Guard.follow_jump hone, hpass] at hjump
    exact ⟨_, hjump⟩
  | plain _ hguard =>
    rw [Guest.Guard.passes_of_not_isConditional hguard] at hpass
    cases hpass
  | @guarded code n _ _ _ =>
    have hmarking : ops[pc + 1 + code.length]? = some (.marking n) := hpiece.right.right.head
    have hskip := Leads.terminator (I := I) (s := s) hpiece.head (i.guard.isTerminator_skip n)
    rw [Guest.Guard.follow_skip hone, hpass, mark?_eq hnd hmarking (by simp)] at hskip
    have hlen : pc + 1 + code.length + 1 = pc + ([i.guard.skip n] ++ (code ++ [marking n])).length := by
      simp
      omega
    have hmark := Leads.mark (I := I) (s := s) hmarking rfl
    rw [hlen] at hmark
    exact ⟨_, hskip.trans hmark⟩

theorem leads_into (hop : ∀ target, i.op ≠ .bra target) (hpass : i.guard.passes I s) :
    ∃ m, Leads I ops m (some pc, s) [] (some (pc + piece.before.length), s) := by
  cases h with
  | bra hbra => exact absurd hbra (hop _)
  | plain => exact ⟨0, .refl _⟩
  | guarded n =>
    have hskip := Leads.terminator (I := I) (s := s) hpiece.head (i.guard.isTerminator_skip n)
    rw [Guest.Guard.follow_skip hone, hpass] at hskip
    exact ⟨1, hskip⟩

theorem leads_through (hop : ∀ target, i.op ≠ .bra target) (hexit : i.op ≠ .exit) (hpass : i.guard.passes I s) :
    ∃ m, Leads I ops m (some pc, s) (range' (pc + piece.before.length) piece.code.length)
      (some (pc + piece.ops.length), I.performAll piece.code s) := by
  obtain ⟨m, hinto⟩ := h.leads_into hpiece hone hop hpass
  have hcode : ∀ op ∈ piece.code, op.inst.isStraight := by
    cases h with
    | bra hbra => exact absurd hbra (hop _)
    | plain _ _ hcode => exact isStraight_of_produces hexit hcode
    | guarded _ _ _ hcode => exact isStraight_of_produces hexit hcode
  have hrun := Leads.straight (I := I) (s := s) hpiece.right.left hcode
  have hafter : Leads I ops piece.after.length (some (pc + piece.before.length + piece.code.length),
      I.performAll piece.code s) [] (some (pc + piece.ops.length), I.performAll piece.code s) := by
    have hlen : pc + piece.ops.length = pc + piece.before.length + piece.code.length + piece.after.length := by
      simp only [Piece.ops, length_append]
      omega
    rw [hlen]
    cases h with
    | bra | plain => exact .refl _
    | guarded => exact .mark hpiece.right.right.head rfl
  have hall := (hinto.trans hrun).trans hafter
  rw [nil_append, append_nil] at hall
  exact ⟨_, hall⟩

theorem leads_to {target : Nat} (hop : i.op = .bra target) (hpass : i.guard.passes I s) :
    piece.code = [] ∧ ∃ n, l.label? target = some (.label n) ∧ Leads I ops 1 (some pc, s) [] (mark? ops n, s) := by
  cases h with
  | @bra target' n hbra hlab =>
    obtain rfl : target' = target := Guest.Op.bra.inj (hbra.symm.trans hop)
    have hjump := Leads.terminator (I := I) (s := s) hpiece.head (i.guard.isTerminator_jump n)
    rw [Guest.Guard.follow_jump hone, hpass] at hjump
    exact ⟨rfl, n, hlab, hjump⟩
  | plain hbra => exact absurd hop (hbra target)
  | guarded _ hbra => exact absurd hop (hbra target)

end

theorem ending (h : l.Lowers i piece) (hop : i.op = .exit) : l.Ending piece.code := by
  cases h with
  | bra hbra =>
    rw [hop] at hbra
    cases hbra
  | plain _ _ hcode => exact ending_of_produces (hop ▸ hcode)
  | guarded _ _ _ hcode => exact ending_of_produces (hop ▸ hcode)

end Lowering.Lowers

namespace Lowering

/-- At `pc` stands an epilogue with a return behind it, and control runs the two as it
would if nothing else were in the list. The epilogue itself does not return. -/
def Ends (l : Lowering) (ops : List Operation) (pc : Nat) : Prop :=
  ∃ epilogue, l.epilogue.Produces epilogue ∧ (∀ op ∈ epilogue, op.inst ≠ .ret) ∧
    Stands ops pc (epilogue ++ [.returning]) ∧
    ∀ (σ : Type u) (I : Interpretation σ) (n : Nat) (s : σ),
      let alone := run I (epilogue ++ [.returning]) n (some 0, s)
      run I ops n (some pc, s) = (alone.1.map (pc + ·), alone.2.1.map (pc + ·), alone.2.2)

theorem Ending.ends {l : Lowering} (h : l.Ending code)
    (hcode : Stands ops pc code) (hnd : (ops.flatMap marks).Nodup) : l.Ends ops pc := by
  obtain ⟨epilogue, hepi, rfl⟩ := h
  obtain ⟨hret, htgts⟩ := epilogue_of_produces hepi
  refine ⟨epilogue, hepi, hret, hcode, fun _ _ n s => ?_⟩
  refine run_embedded hcode hnd ?_ ⟨.returning, by simp, rfl⟩ n (i := 0) (by simp) s
  intro label hlab
  rw [flatMap_append, mem_append] at hlab ⊢
  obtain hlab | hlab := hlab
  · exact .inl (htgts label hlab)
  · cases hlab

end Lowering

/-! Guest programs. -/

namespace Guest

/-- Where control of a program is: about to enter a block, stopped by the exit at a
spot, or past the last block. A spot is the number of a block and of an instruction
of its body. -/
inductive Control where
  | block (b : Nat)
  | exit (spot : Nat × Nat)
  | done

namespace Program

def blockAt? (p : Program) (address : Nat) : Option Nat := p.addresses.idxOf? address

section Run

variable (I : Interpretation σ) (p : Program) (code : Nat × Nat → List Operation) {rest : List Placed} {x : Placed}

/-- Runs the rest of a body of block `b`, from instruction `i` on. The spots of the
instructions that are executed are recorded. -/
def runFrom (b : Nat) : Nat → List Placed → σ → List (Nat × Nat) × Control × σ
  | _, [], s => ([], .block (b + 1), s)
  | i, x :: rest, s =>
    if x.guard.passes I s then
      match x.op with
      | .exit => ([], .exit (b, i), s)
      | .bra target => ([(b, i)], (p.blockAt? target).elim .done .block, s)
      | _ =>
        let (spots, last) := runFrom b (i + 1) rest (I.performAll (code (b, i)) s)
        ((b, i) :: spots, last)
    else runFrom b (i + 1) rest s

/-- Enters at most `n` blocks. -/
def run : Nat → Control × σ → List (Nat × Nat) × Control × σ
  | n + 1, (.block b, s) =>
    match p.blocks[b]? with
    | none => ([], .done, s)
    | some block =>
      let (spots, c) := p.runFrom I code b 0 block.body s
      let (more, last) := run n c
      (spots ++ more, last)
  | _, c => ([], c)

variable {I p code}

theorem run_block (n : Nat) (h : p.blocks[b]? = some block) (s : σ) : p.run I code (n + 1) (.block b, s) =
      ((p.runFrom I code b 0 block.body s).1 ++ (p.run I code n (p.runFrom I code b 0 block.body s).2).1,
        (p.run I code n (p.runFrom I code b 0 block.body s).2).2) := by
  rw [run, h]

theorem run_past (n : Nat) (h : p.blocks[b]? = none) (s : σ) :
    p.run I code (n + 1) (.block b, s) = ([], .done, s) := by
  rw [run, h]

theorem run_stopped (n : Nat) (h : ∀ b, c ≠ .block b) (s : σ) : p.run I code n (c, s) = ([], c, s) := by
  cases c with
  | block b => exact absurd rfl (h b)
  | exit | done => cases n <;> rfl

theorem runFrom_skip (h : x.guard.passes I s = false) :
    p.runFrom I code b i (x :: rest) s = p.runFrom I code b (i + 1) rest s := by
  rw [runFrom, h, if_neg Bool.false_ne_true]

theorem runFrom_exit (h : x.guard.passes I s)
    (hop : x.op = .exit) : p.runFrom I code b i (x :: rest) s = ([], .exit (b, i), s) := by
  rw [runFrom, h, if_pos rfl, hop]

theorem runFrom_bra {target : Nat} (h : x.guard.passes I s) (hop : x.op = .bra target) :
    p.runFrom I code b i (x :: rest) s = ([(b, i)], (p.blockAt? target).elim .done .block, s) := by
  rw [runFrom, h, if_pos rfl, hop]

theorem runFrom_through (h : x.guard.passes I s) (hexit : x.op ≠ .exit) (hbra : ∀ target, x.op ≠ .bra target) :
    p.runFrom I code b i (x :: rest) s = ((b, i) :: (p.runFrom I code b (i + 1) rest (I.performAll (code (b, i)) s)).1,
        (p.runFrom I code b (i + 1) rest (I.performAll (code (b, i)) s)).2) := by
  rw [runFrom, h, if_pos rfl]
  split
  · next hop => exact absurd hop hexit
  · next hop => exact absurd hop (hbra _)
  · rfl

end Run

namespace Listing

variable {p : Program} {l : Lowering} {ops : List Operation} (L : p.Listing l ops) {block : List Piece × Nat}

/-- Where a block starts; the block after the last one starts where the program is closed. -/
def entry (b : Nat) : Nat := L.front.length + ((L.blocks.take b).flatMap Piece.blockOps).length

def pieces (b : Nat) : List Piece := ((L.blocks[b]?).map Prod.fst).getD []

/-- Where the piece of an instruction starts. -/
def place (b i : Nat) : Nat := L.entry b + 1 + (((L.pieces b).take i).flatMap Piece.ops).length

def piece (spot : Nat × Nat) : Piece := ((L.pieces spot.1)[spot.2]?).getD {}

/-- The operations of an instruction, without those of its guard. -/
def code (spot : Nat × Nat) : List Operation := (L.piece spot).code

/-- Where the operations of an instruction start. -/
def start (spot : Nat × Nat) : Nat := L.place spot.1 spot.2 + (L.piece spot).before.length

/-- The places of an instruction's operations. -/
def places (spot : Nat × Nat) : List Nat := range' (L.start spot) (L.code spot).length

/-- The place where control is. -/
def locate : Control → Nat
  | .block b => L.entry b
  | .exit spot => L.start spot
  | .done => L.entry p.blocks.length

variable {L}

theorem length_blocks (L : p.Listing l ops) : L.blocks.length = p.blocks.length := L.lowers.length_eq.symm

theorem stands_block (hb : L.blocks[b]? = some block) : Stands ops (L.entry b) (Piece.blockOps block) := by
  have hwhole : Stands ops 0 (L.front ++ (L.blocks.flatMap Piece.blockOps ++ L.closing)) := by
    rw [← L.ops_eq]
    exact .self ops
  have hblks := hwhole.right.left.flatMap hb
  rwa [zero_add] at hblks

theorem stands_closing (L : p.Listing l ops) : Stands ops (L.entry p.blocks.length) L.closing := by
  have hwhole : Stands ops 0 (L.front ++ (L.blocks.flatMap Piece.blockOps ++ L.closing)) := by
    rw [← L.ops_eq]
    exact .self ops
  have hclosing := hwhole.right.right
  rw [zero_add] at hclosing
  rwa [entry, ← L.length_blocks, take_length]

theorem pieces_eq (hb : L.blocks[b]? = some block) : L.pieces b = block.1 := by
  rw [pieces, hb]
  rfl

theorem entry_succ (hb : L.blocks[b]? = some block) : L.entry (b + 1) = L.place b block.1.length := by
  obtain ⟨hlt, rfl⟩ := List.getElem?_eq_some_iff.1 hb
  rw [place, pieces_eq hb, take_length, entry, entry, take_succ_eq_append_getElem hlt,
    flatMap_append, flatMap_singleton, length_append, Piece.blockOps, length_cons]
  omega

section Spot

variable {b : Nat} {before rest : List Piece} {x : Piece}
  (hb : L.blocks[b]? = some block) (hpieces : block.1 = before ++ x :: rest)
include hb hpieces

theorem place_eq : L.place b before.length = L.entry b + 1 + (before.flatMap Piece.ops).length := by
  rw [place, pieces_eq hb, hpieces, take_left]

theorem piece_eq : L.piece (b, before.length) = x := by
  rw [piece, pieces_eq hb, hpieces, getElem?_append_right (Nat.le_refl _), Nat.sub_self]
  rfl

theorem stands_piece : Stands ops (L.place b before.length) x.ops := by
  have hbody := (stands_block hb).tail
  rw [hpieces, flatMap_append, flatMap_cons] at hbody
  rw [place_eq hb hpieces]
  exact hbody.right.left

theorem place_succ : L.place b (before.length + 1) = L.place b before.length + x.ops.length := by
  have htake : (before ++ x :: rest).take (before.length + 1) = before ++ [x] := by
    rw [append_cons]
    exact take_left' (by simp)
  rw [place_eq hb hpieces, place, pieces_eq hb, hpieces, htake, flatMap_append, flatMap_singleton, length_append]
  omega

end Spot

theorem mark?_target {target : Nat} (L : p.Listing l ops) (hmem : target ∈ p.addresses)
    (hlab : l.label? target = some (.label n)) :
    ∃ b < p.blocks.length, p.blockAt? target = some b ∧ mark? ops n = some (L.entry b) := by
  obtain ⟨b, hb⟩ := Option.isSome_iff_exists.1 (isSome_idxOf?.2 hmem)
  obtain ⟨hlt, htgt, -⟩ := idxOf?_eq_some_iff.1 hb
  have hblk : b < p.blocks.length := by simpa [addresses] using hlt
  have hlisted : b < L.blocks.length := by rwa [L.length_blocks]
  obtain ⟨hown, -⟩ : l.LowersBlock p.blocks[b] L.blocks[b] := Forall₂.get L.lowers hblk hlisted
  have haddr : p.blocks[b].address = target := by simpa [addresses] using htgt
  rw [haddr, hlab] at hown
  obtain rfl := Operand.label.inj (Option.some.inj hown)
  refine ⟨b, hblk, hb, mark?_eq L.nodup (stands_block (getElem?_eq_getElem hlisted)).head (by simp)⟩

/-- From place `pc` control follows in `m` steps what the program does until it comes to `r`. -/
structure Follows (L : p.Listing l ops) (I : Interpretation σ) (pc : Nat) (s : σ) (m : Nat)
    (r : List (Nat × Nat) × Control × σ) : Prop where
  leads : Leads I ops m (some pc, s) (r.1.flatMap L.places) (some (L.locate r.2.1), r.2.2)
  inside : ∀ b, r.2.1 = .block b → b ≤ p.blocks.length
  ends : ∀ spot, r.2.1 = .exit spot → l.Ends.{u} ops (L.start spot)

section Run

variable {I : Interpretation σ} {n : Nat} {s s' : σ}

theorem Follows.trans {spots : List (Nat × Nat)}
    (h : Leads I ops m (some pc, s) (spots.flatMap L.places) (some pc', s')) (h' : L.Follows I pc' s' n r) :
    L.Follows I pc s (m + n) (spots ++ r.1, r.2) where
  leads := by
    rw [flatMap_append]
    exact h.trans h'.leads
  inside := h'.inside
  ends := h'.ends

theorem ends_closing (L : p.Listing l ops) {places : List Nat}
    (h : Leads I ops m (some (L.entry 0), s) places (some (L.entry p.blocks.length), s')) :
    l.Ends.{u} ops (L.entry p.blocks.length) := by
  have hlt : L.entry p.blocks.length < ops.length :=
    run_lt L.jumps (show L.entry 0 < ops.length from L.enters) m s _ (by rw [h.2]; rfl)
  obtain hnil | hending := L.closes
  · have hlen : ops.length = L.entry p.blocks.length := by
      rw [entry, ← L.length_blocks, take_length, ← length_append]
      conv => lhs; rw [L.ops_eq, hnil, append_nil]
    omega
  · exact hending.ends L.stands_closing L.nodup

variable (hone : ∀ s, I.holds (.word 1) s)
include hone

/-- The rest of a block, by induction on its instructions. -/
theorem follows_runFrom (hb : L.blocks[b]? = some block)
    (hpieces : block.1 = before ++ rest) (hbody : Forall₂ l.Lowers body rest)
    (hplaced : ∀ x ∈ body, x ∈ p.placed) (s : σ) :
    ∃ m, L.Follows I (L.place b before.length) s m (p.runFrom I L.code b before.length body s) := by
  induction hbody generalizing before s with
  | nil =>
    refine ⟨0, ?_, ?_, nofun⟩
    · change Leads I ops 0 _ [] (some (L.entry (b + 1)), s)
      rw [entry_succ hb, hpieces, append_nil]
      exact .refl _
    · rintro _ ⟨⟩
      rw [← L.length_blocks]
      exact (List.getElem?_eq_some_iff.1 hb).1
  | @cons x piece body rest hx hbody ih =>
    have hrest : block.1 = (before ++ [piece]) ++ rest := by rw [hpieces, append_cons]
    have hst := stands_piece hb hpieces
    have hspot := piece_eq hb hpieces
    have ih := ih hrest fun y hy => hplaced y (mem_cons_of_mem _ hy)
    rw [length_append, length_singleton, place_succ hb hpieces] at ih
    cases hpass : x.guard.passes I s with
    | false =>
      obtain ⟨m, hpast⟩ := hx.leads_past hst hone L.nodup hpass
      obtain ⟨n, hfollows⟩ := ih s
      rw [runFrom_skip hpass]
      exact ⟨m + n, .trans (show Leads I ops m _ ([].flatMap L.places) _ from hpast) hfollows⟩
    | true =>
      by_cases hexit : x.op = .exit
      · have hbra : ∀ target, x.op ≠ .bra target := by
          rw [hexit]
          exact nofun
        obtain ⟨m, hinto⟩ := hx.leads_into hst hone hbra hpass
        have hstart : L.start (b, before.length) = L.place b before.length + piece.before.length := by
          rw [start, hspot]
        rw [runFrom_exit hpass hexit]
        refine ⟨m, ?_, nofun, ?_⟩
        · change Leads I ops m _ [] (some (L.start (b, before.length)), s)
          rw [hstart]
          exact hinto
        · rintro _ ⟨⟩
          rw [hstart]
          exact (hx.ending hexit).ends hst.right.left L.nodup
      by_cases hbra : ∃ target, x.op = .bra target
      · obtain ⟨target, hbra⟩ := hbra
        obtain ⟨hcode, n, hlab, hjump⟩ := hx.leads_to hst hone hbra hpass
        obtain ⟨b', hlt, hblk, hmark⟩ :=
          L.mark?_target (L.targets x (hplaced x mem_cons_self) target hbra) hlab
        have hplaces : L.places (b, before.length) = [] := by
          rw [places, Listing.code, hspot, hcode]
          rfl
        rw [runFrom_bra hpass hbra, hblk]
        refine ⟨1, ?_, ?_, nofun⟩
        · change Leads I ops 1 _ ([(b, before.length)].flatMap L.places) (some (L.entry b'), s)
          rw [flatMap_singleton, hplaces, ← hmark]
          exact hjump
        · rintro _ ⟨⟩
          exact le_of_lt hlt
      · push Not at hbra
        obtain ⟨m, hthrough⟩ := hx.leads_through hst hone hbra hexit hpass
        obtain ⟨n, hfollows⟩ := ih (I.performAll piece.code s)
        have hplaces : L.places (b, before.length) =
            range' (L.place b before.length + piece.before.length) piece.code.length := by
          rw [places, start, Listing.code, hspot]
        have hcode : L.code (b, before.length) = piece.code := by rw [Listing.code, hspot]
        rw [← hplaces, ← flatMap_singleton L.places] at hthrough
        rw [runFrom_through hpass hexit hbra, hcode]
        exact ⟨m + n, .trans hthrough hfollows⟩

/-- Whole runs; a step goes through one block. -/
theorem follows_run (n : Nat) (hb : b ≤ p.blocks.length) (s : σ) :
    ∃ m, L.Follows I (L.entry b) s m (p.run I L.code n (.block b, s)) ∧
      ∀ b', (p.run I L.code n (.block b, s)).2.1 = .block b' → n ≤ m := by
  induction n generalizing b s with
  | zero =>
    refine ⟨0, ⟨.refl _, ?_, nofun⟩, fun _ _ => le_refl 0⟩
    rintro _ ⟨⟩
    exact hb
  | succ n ih =>
    obtain hlt | rfl := lt_or_eq_of_le hb
    · have hlisted : b < L.blocks.length := by rwa [L.length_blocks]
      have hblk : L.blocks[b]? = some L.blocks[b] := getElem?_eq_getElem hlisted
      obtain ⟨-, hbody⟩ : l.LowersBlock p.blocks[b] L.blocks[b] := Forall₂.get L.lowers hlt hlisted
      obtain ⟨m, hfrom⟩ := follows_runFrom hone hblk (show _ = [] ++ L.blocks[b].1 from rfl) hbody
        (fun _ hx => mem_flatMap.2 ⟨_, getElem_mem hlt, hx⟩) s
      have hmark : Leads I ops 1 (some (L.entry b), s) ([].flatMap L.places) (some (L.place b 0), s) :=
        .mark (stands_block hblk).head rfl
      have hentered := Follows.trans hmark hfrom
      rw [run_block n (getElem?_eq_getElem hlt)]
      generalize p.runFrom I L.code b 0 p.blocks[b].body s = r at hfrom hentered
      obtain ⟨spots, c, s'⟩ := r
      by_cases hc : ∃ b', c = .block b'
      · obtain ⟨b', rfl⟩ := hc
        obtain ⟨k, hrest, hle⟩ := ih (hfrom.inside b' rfl) s'
        refine ⟨1 + m + k, .trans hentered.leads hrest, fun b'' hb'' => ?_⟩
        have := hle b'' hb''
        omega
      · push Not at hc
        rw [run_stopped n hc, append_nil]
        exact ⟨1 + m, hentered, fun b' hb' => absurd hb' (hc b')⟩
    · rw [run_past n (getElem?_eq_none (le_refl _))]
      exact ⟨0, ⟨.refl _, nofun, nofun⟩, nofun⟩

end Run

end Listing

variable {p : Program} {s : Surroundings} {ids : Ids} {parts : Parts} {lowered : Lowered}

/-- The operations of a program are the pieces of its instructions, and however tests
turn out, a run from the start of the body performs the operations of the instructions
that the program executes, in the same order and with the same effect. Where the
program stops, an epilogue follows and then a return. -/
theorem lower_follows (hnodup : p.addresses.Nodup) (h : p.lower s ids parts = .ok lowered) :
    ∃ L : p.Listing (p.lowering s parts (p.blockLabels ids)) lowered.ops, L.entry 0 = lowered.bodyStart ∧
      ∀ (σ : Type u) (I : Interpretation σ), (∀ t, I.holds (.word 1) t = true) → ∀ (t : σ) (n : Nat),
        let guest := p.run I L.code n (.block 0, t)
        ∃ m, Leads I lowered.ops m (some lowered.bodyStart, t) (guest.1.flatMap L.places)
            (some (L.locate guest.2.1), guest.2.2) ∧
          match guest.2.1 with
          | .block _ => n ≤ m
          | stop => (p.lowering s parts (p.blockLabels ids)).Ends.{u} lowered.ops (L.locate stop) := by
  obtain ⟨L, hstart⟩ := exists_listing hnodup h
  refine ⟨L, hstart, fun σ I hone t n => ?_⟩
  dsimp only
  obtain ⟨m, hfollows, hle⟩ := Listing.follows_run (L := L) hone n (Nat.zero_le _) t
  refine ⟨m, hstart ▸ hfollows.leads, ?_⟩
  have hleads := hfollows.leads
  have hends := hfollows.ends
  cases hc : (p.run I L.code n (.block 0, t)).2.1 with
  | block b => exact hle b hc
  | exit spot => exact hends spot hc
  | done =>
    rw [hc] at hleads
    exact L.ends_closing hleads

/-- The first instruction is skipped, then control passes over the second block to a
guarded exit. -/
def detour : Program where
  blocks :=
    [ ⟨0x00, [⟨0x00, { predicate := ⟨1⟩ }, .mov ⟨0⟩ (.immediate 1)⟩, ⟨0x08, {}, .mov ⟨1⟩ (.immediate 2)⟩,
        ⟨0x10, { predicate := ⟨0⟩ }, .bra 0x40⟩]⟩,
      ⟨0x20, [⟨0x20, {}, .exit⟩]⟩,
      ⟨0x40, [⟨0x40, { predicate := ⟨1⟩, inverted := true }, .exit⟩]⟩ ]

def plainVertex : Surroundings where
  config := { stage := .vertex }
  host := default
  resources := { stage := .vertex, api := .openGl }
  outputs := 0

/-- Of all predicates only the first one is true. -/
def onlyFirst : Interpretation Unit where
  perform _ s := s
  holds o _ := o == .word 1 || o == .predicate ⟨0⟩

theorem lower_follows_detour : detour.addresses.Nodup ∧ ∃ lowered, detour.lower plainVertex {} {} = .ok lowered ∧
      ∃ (L : detour.Listing (detour.lowering plainVertex {} (detour.blockLabels {})) lowered.ops) (m : Nat),
        Leads onlyFirst lowered.ops m (some lowered.bodyStart, ()) ([(0, 1), (0, 2)].flatMap L.places)
            (some (L.start (2, 0)), ()) ∧
          (detour.lowering plainVertex {} (detour.blockLabels {})).Ends.{0} lowered.ops (L.start (2, 0)) := by
  obtain ⟨lowered, h⟩ : ∃ lowered, detour.lower plainVertex {} {} = .ok lowered := ⟨_, rfl⟩
  have hnodup : detour.addresses.Nodup := by decide
  obtain ⟨L, -, hruns⟩ := lower_follows.{0} hnodup h
  exact ⟨hnodup, lowered, h, L, hruns Unit onlyFirst (fun _ => rfl) () 2⟩

end Program
end Guest
end ShaderRecompiler
