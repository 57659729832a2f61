import ShaderRecompiler.Proofs.Joining

/-! Where the operations of a flat list find the temporaries they read. Inside the
program a temporary was assigned on the way straight to its read, or it is passed on
from the head of a loop to its body. Before the program, control can only go on or
return, so all that stands before a read has been performed. -/
namespace ShaderRecompiler

open List

variable {pc : Nat} {op : Operation}

namespace Operation

theorem isStraight_of_assigned (hop : op.Computes) (ht : t ∈ op.assigned) : op.inst.isStraight :=
  Instruction.isStraight_of_hasDestination (hop (ne_nil_of_mem ht))

theorem isStraight_of_targets (h : n ∈ op.targets) : op.inst.isStraight = false := by
  by_contra hstr
  rw [targets_eq_nil (Bool.eq_true_of_not_eq_false hstr)] at h
  cases h

/-- In the place of `x`, `y` reads nothing else, assigns the same and marks the same
label; it may branch where `x` returns. -/
structure Alike (x y : Operation) : Prop where
  straight : x.inst.isStraight → y.inst.isStraight
  terminates : x.inst.isTerminator → y.inst.isTerminator
  branches : x.inst = .branch → y = x
  marks : y.marks = x.marks
  computes : x.Computes → y.Computes
  assigned : y.assigned = x.assigned
  reads : ∀ t ∈ y.reads, t ∈ x.reads

theorem Alike.refl (x : Operation) : Alike x x := ⟨id, id, fun _ => rfl, rfl, id, rfl, fun _ => id⟩

theorem Alike.trans (h : Alike x y) (h' : Alike y z) : Alike x z where
  straight := h'.straight ∘ h.straight
  terminates := h'.terminates ∘ h.terminates
  branches hx := by
    obtain rfl := h.branches hx
    exact h'.branches hx
  marks := h'.marks.trans h.marks
  computes := h'.computes ∘ h.computes
  assigned := h'.assigned.trans h.assigned
  reads t ht := h.reads t (h'.reads t ht)

end Operation

theorem Assigning.exists_assigned
    (h : Assigning [] owed first last code) (hop : code[pc]? = some op) (ht : t ∈ op.reads) :
    ∃ d < pc, ∃ x ∈ code[d]?, t ∈ x.assigned ∧ x.inst.isStraight := by
  obtain ⟨hlt, rfl⟩ := List.getElem?_eq_some_iff.1 hop
  have hspl : code = code.take pc ++ code[pc] :: code.drop (pc + 1) := by
    rw [← drop_eq_getElem_cons hlt, take_append_drop]
  obtain ⟨x, hx, hassigned⟩ := mem_flatMap.1 ((h.reads _ _ _ hspl t ht).resolve_left not_mem_nil)
  obtain ⟨d, hd⟩ := mem_iff_getElem?.1 hx
  rw [getElem?_take] at hd
  split at hd
  · next hlt' =>
    exact ⟨d, hlt', x, hd, hassigned,
      Operation.isStraight_of_assigned (h.computes x (mem_of_mem_take hx)) hassigned⟩
  · cases hd

namespace Flat

/-- From place `i` up to `j` control goes straight on. -/
def Straight (ops : List Operation) (i j : Nat) : Prop :=
  ∀ q, i ≤ q → q < j → ∃ op ∈ ops[q]?, op.inst.isStraight

/-- A loop. Its head goes from the mark of its label to a test, and its body from there to
the branch back. -/
structure Round (ops : List Operation) (label mark test back : Nat) : Prop where
  marked : ∃ op ∈ ops[mark]?, op.marks = [label]
  head : Straight ops (mark + 1) test
  tested : ∃ op ∈ ops[test]?, op.inst.isTerminator
  body : Straight ops (test + 1) back
  closed : ∃ op ∈ ops[back]?, op.inst = .branch ∧ label ∈ op.targets

/-- What is assigned at `d` is there whenever control is at `pc`. -/
inductive Feeds (ops : List Operation) (d pc : Nat) : Prop
  | along (hlt : d < pc) (hstraight : Straight ops d pc)
  /-- From the head of a loop to its body, which only the head leads to. -/
  | around {label mark test back : Nat} (hround : Round ops label mark test back) (hmd : mark < d) (hdt : d < test)
    (htp : test < pc) (hpb : pc ≤ back)

/-- Every read is fed from inside the list. -/
def Settled (ops : List Operation) : Prop :=
  ∀ pc op, ops[pc]? = some op → ∀ t ∈ op.reads, ∃ d, Feeds ops d pc ∧ ∃ x ∈ ops[d]?, t ∈ x.assigned

variable {d : Nat}

theorem Straight.shift (h : Straight code i j)
    (hsub : ∀ i, ∀ x ∈ code[i]?, ∃ y ∈ ops[p + i]?, x.Alike y) : Straight ops (p + i) (p + j) := by
  intro q hle hlt
  obtain ⟨k, rfl⟩ := Nat.exists_eq_add_of_le (Nat.le_trans (Nat.le_add_right p i) hle)
  obtain ⟨x, hx, hstr⟩ := h k (by omega) (by omega)
  obtain ⟨y, hy, hxy⟩ := hsub k x hx
  exact ⟨y, hy, hxy.straight hstr⟩

/-- Values find their way also where the list is a part of another one that does alike. -/
theorem Feeds.shift (h : Feeds code d pc) (hsub : ∀ i, ∀ x ∈ code[i]?, ∃ y ∈ ops[p + i]?, x.Alike y) :
    Feeds ops (p + d) (p + pc) := by
  cases h with
  | along hlt hstr => exact .along (by omega) (hstr.shift hsub)
  | @around label mark test back hrnd hmd hdt htp hpb =>
    obtain ⟨⟨m, hm, hlab⟩, hhead, ⟨t, ht, hterm⟩, hbody, b, hb, hbr, htgt⟩ := hrnd
    obtain ⟨m', hm', hmm⟩ := hsub _ m hm
    obtain ⟨t', ht', htt⟩ := hsub _ t ht
    obtain ⟨b', hb', hbb⟩ := hsub _ b hb
    obtain rfl := hbb.branches hbr
    have hrnd : Round ops label (p + mark) (p + test) (p + back) := ⟨⟨m', hm', hmm.marks.trans hlab⟩,
      hhead.shift hsub, ⟨t', ht', htt.terminates hterm⟩, hbody.shift hsub, _, hb', hbr, htgt⟩
    exact .around hrnd (by omega) (by omega) (by omega) (by omega)

theorem alike_left (xs ys : List Operation) : ∀ i, ∀ x ∈ xs[i]?, ∃ y ∈ (xs ++ ys)[0 + i]?, x.Alike y := by
  intro i x hx
  have hlt := (List.getElem?_eq_some_iff.1 hx).1
  exact ⟨x, by rwa [Nat.zero_add, List.getElem?_append_left hlt], .refl x⟩

theorem alike_right (xs ys : List Operation) : ∀ i, ∀ y ∈ ys[i]?, ∃ y' ∈ (xs ++ ys)[xs.length + i]?, y.Alike y' := by
  intro i y hy
  refine ⟨y, ?_, .refl y⟩
  rwa [getElem?_append_right (Nat.le_add_right _ _), Nat.add_sub_cancel_left]

theorem alike_map (h : Forall₂ Operation.Alike xs ys) : ∀ i, ∀ x ∈ xs[i]?, ∃ y ∈ ys[0 + i]?, x.Alike y := by
  intro i x hx
  obtain ⟨hlt, rfl⟩ := List.getElem?_eq_some_iff.1 hx
  have hlt' : i < ys.length := h.length_eq ▸ hlt
  exact ⟨ys[i], by rw [Nat.zero_add, getElem?_eq_getElem hlt']; rfl, h.get hlt hlt'⟩

namespace Settled

theorem nil : Settled [] := by
  intro pc op hop
  cases hop

theorem append (hxs : Settled xs) (hys : Settled ys) : Settled (xs ++ ys) := by
  intro pc op hop t ht
  by_cases hlt : pc < xs.length
  · rw [List.getElem?_append_left hlt] at hop
    obtain ⟨d, hfeeds, x, hx, hassigned⟩ := hxs pc op hop t ht
    have hshift := hfeeds.shift (alike_left xs ys)
    rw [Nat.zero_add, Nat.zero_add] at hshift
    have hd := (List.getElem?_eq_some_iff.1 hx).1
    exact ⟨d, hshift, x, by rwa [List.getElem?_append_left hd], hassigned⟩
  · obtain ⟨k, rfl⟩ := Nat.exists_eq_add_of_le (Nat.le_of_not_lt hlt)
    rw [getElem?_append_right (Nat.le_add_right _ _), Nat.add_sub_cancel_left] at hop
    obtain ⟨d, hfeeds, x, hx, hassigned⟩ := hys k op hop t ht
    refine ⟨xs.length + d, hfeeds.shift (alike_right xs ys), x, ?_, hassigned⟩
    rwa [getElem?_append_right (Nat.le_add_right _ _), Nat.add_sub_cancel_left]

theorem flatMap (h : Forall₂ R as bs) (hf : ∀ a b, R a b → Settled (f b)) : Settled (bs.flatMap f) := by
  induction h with
  | nil => exact nil
  | cons hab _ ih => exact (hf _ _ hab).append ih

theorem of_reads (h : ∀ op ∈ ops, op.reads = []) : Settled ops := by
  intro pc op hop t ht
  rw [h op (mem_of_getElem? hop)] at ht
  cases ht

theorem of_straight (h : Assigning [] [] first last code)
    (hcode : ∀ op ∈ code, op.inst.isStraight) : Settled code := by
  intro pc op hop t ht
  obtain ⟨d, hlt, x, hx, hassigned, -⟩ := h.exists_assigned hop ht
  refine ⟨d, .along hlt fun q _ hq => ?_, x, hx, hassigned⟩
  have hlen : q < code.length := Nat.lt_trans hq (List.getElem?_eq_some_iff.1 hop).1
  exact ⟨code[q], getElem?_eq_getElem hlen, hcode _ (getElem_mem hlen)⟩

theorem map (h : Settled xs) (hys : Forall₂ Operation.Alike xs ys) : Settled ys := by
  intro pc y hy t ht
  obtain ⟨hlt', rfl⟩ := List.getElem?_eq_some_iff.1 hy
  have hlt : pc < xs.length := hys.length_eq ▸ hlt'
  obtain ⟨d, hfeeds, x, hx, hassigned⟩ :=
    h pc xs[pc] (getElem?_eq_getElem hlt) t ((hys.get hlt hlt').reads t ht)
  have hshift := hfeeds.shift (alike_map hys)
  rw [Nat.zero_add, Nat.zero_add] at hshift
  obtain ⟨x', hx', hxx⟩ := alike_map hys d x hx
  rw [Nat.zero_add] at hx'
  exact ⟨d, hshift, x', hx', hxx.assigned ▸ hassigned⟩

end Settled

/-- A loop that is left at its test. -/
def looping (head finish : Nat) (condition : Operand) (test body : List Operation) : List Operation :=
  .marking head :: (test ++ ⟨.branchIfTrue, .none, none, [.label finish, condition]⟩ ::
    (body ++ [⟨.branch, .none, none, [.label head]⟩, .marking finish]))

theorem Straight.of_stands (h : Stands ops pc code) (hcode : ∀ op ∈ code, op.inst.isStraight) :
    Straight ops pc (pc + code.length) := by
  intro q hle hlt
  obtain ⟨i, rfl⟩ := Nat.exists_eq_add_of_le hle
  have hi : i < code.length := by omega
  exact ⟨code[i], by rw [h.getElem? hi, getElem?_eq_getElem hi]; rfl, hcode _ (getElem_mem hi)⟩

/-- What the test of a loop assigns is passed on to the body. -/
theorem settled_looping {head : Nat} (h : Assigning [] [] first last (looping head finish condition test body))
    (htest : ∀ op ∈ test, op.inst.isStraight) (hbody : ∀ op ∈ body, op.inst.isStraight) :
    Settled (looping head finish condition test body) := by
  intro pc op hop t ht
  obtain ⟨d, hlt, x, hx, hassigned, hstr⟩ := h.exists_assigned hop ht
  have hall := Stands.self (looping head finish condition test body)
  have hmark := hall.head
  have hlv := hall.tail.right.head
  have hback := hall.tail.right.tail.right.head
  have hfinish := hall.tail.right.tail.right.tail.head
  have hin := Straight.of_stands hall.tail.left htest
  have hent := Straight.of_stands hall.tail.right.tail.left hbody
  have hlen : (looping head finish condition test body).length = 0 + 1 + test.length + 1 + body.length + 1 + 1 := by
    simp [looping]
    omega
  have hpc := (List.getElem?_eq_some_iff.1 hop).1
  -- Marks and branches assign nothing, and the mark at the end reads nothing.
  have hne : ∀ q y, (looping head finish condition test body)[q]? = some y → y.inst.isStraight = false → d ≠ q := by
    rintro q y hy hcontrol rfl
    obtain rfl := Option.some.inj (hx.symm.trans hy)
    rw [hstr] at hcontrol
    cases hcontrol
  have h0 := hne _ _ hmark rfl
  have h1 := hne _ _ hlv rfl
  have h2 := hne _ _ hback rfl
  have h3 : pc ≠ 0 + 1 + test.length + 1 + body.length + 1 := by
    rintro rfl
    obtain rfl := Option.some.inj (hop.symm.trans hfinish)
    cases ht
  refine ⟨d, ?_, x, hx, hassigned⟩
  by_cases hd : d < 0 + 1 + test.length
  · by_cases hp : pc ≤ 0 + 1 + test.length
    · exact .along hlt fun q _ _ => hin q (by omega) (by omega)
    · exact .around ⟨⟨_, hmark, rfl⟩, hin, ⟨_, hlv, rfl⟩, hent, _, hback, rfl, List.mem_singleton_self _⟩
        (by omega) hd (by omega) (by omega)
  · exact .along hlt fun q _ _ => hent q (by omega) (by omega)

/-- Control goes straight on, or returns: branches lead over one return. -/
inductive Gated : List Operation → Prop
  | nil : Gated []
  | straight {op : Operation} {rest : List Operation} (hop : op.inst.isStraight) (hrest : Gated rest) :
    Gated (op :: rest)
  | gate (n : Nat) (condition : Operand) {rest : List Operation} (hrest : Gated rest) :
    Gated (⟨.branchIfFalse, .none, none, [.label n, condition]⟩ :: .returning :: .marking n :: rest)

namespace Gated

theorem append (hxs : Gated xs) (hys : Gated ys) : Gated (xs ++ ys) := by
  induction hxs with
  | nil => exact hys
  | straight hop _ ih => exact straight hop ih
  | gate n condition _ ih => exact gate n condition ih

theorem target (h : Gated ops) (hop : ops[q]? = some op) (hn : n ∈ op.targets) :
    (∃ x ∈ ops[q + 1]?, x.inst.isStraight = false) ∧ ∃ x ∈ ops[q + 2]?, n ∈ x.marks := by
  induction h generalizing q with
  | nil => cases hop
  | @straight op' rest hstr _ ih =>
    cases q with
    | zero =>
      obtain rfl := Option.some.inj hop
      rw [Operation.targets_eq_nil hstr] at hn
      cases hn
    | succ q => exact ih hop
  | gate n' condition _ ih =>
    match q, hop with
    | 0, hop =>
      obtain rfl := Option.some.inj hop
      exact ⟨⟨_, rfl, rfl⟩, _, rfl, hn⟩
    | 1, hop | 2, hop =>
      obtain rfl := Option.some.inj hop
      cases hn
    | q + 3, hop => exact ih hop

end Gated
end Flat
end ShaderRecompiler
