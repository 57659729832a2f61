import ShaderRecompiler.Proofs.Cutting
import ShaderRecompiler.Proofs.Supply

/-! Which segment an operation of a list ends up in. Places between which control
neither branches nor is entered are in one segment, and a segment is entered from the
one before it or from a branch to one of its labels. -/
namespace ShaderRecompiler

open List Operation Segment

open Flat (Stands)

variable {ops : List Operation} {segments : List Segment} {i j : Nat} {op : Operation}

theorem Operation.targets_eq (hop : op.inst.isTerminator) (h : op.label? = .ok n) : op.targets = [n] := by
  rw [targets, if_pos hop, label]
  unfold label? at h
  cases hlab : (op.source? 0).bind Operand.asLabel? with
  | none =>
    rw [hlab] at h
    cases h
  | some label =>
    rw [hlab] at h
    exact congrArg (fun n => [n]) (Except.ok.inj h)

/-- From `lo` to `hi` nothing ends a block and nothing begins one. -/
def Flat.Unbroken (ops : List Operation) (lo hi : Nat) : Prop :=
  ∀ q op, ops[q]? = some op → (lo ≤ q → q < hi → op.inst.isTerminator = false) ∧
    (lo < q → q ≤ hi → op.inst ≠ .markLabel)

namespace Flat

theorem Straight.unbroken_succ (h : Straight ops (lo + 1) hi)
    (hlo : ∀ op ∈ ops[lo]?, lo < hi → op.inst.isTerminator = false) (hhi : ∀ op ∈ ops[hi]?, op.inst ≠ .markLabel) :
    Unbroken ops lo hi := by
  have hinner : ∀ q op, ops[q]? = some op → lo < q → q < hi → op.inst.isStraight := by
    intro q op hop hlt hlt'
    obtain ⟨x, hx, hstr⟩ := h q hlt hlt'
    exact Option.some.inj (hop.symm.trans hx) ▸ hstr
  refine fun q op hop => ⟨fun hle hlt => ?_, fun hlt hle hmark => ?_⟩
  · obtain hlt' | rfl := Nat.lt_or_eq_of_le hle
    · exact Instruction.isTerminator_of_isStraight (hinner q op hop hlt' hlt)
    · exact hlo op hop hlt
  · obtain hlt' | rfl := Nat.lt_or_eq_of_le hle
    · have hstr := hinner q op hop hlt hlt'
      rw [hmark] at hstr
      cases hstr
    · exact hhi op hop hmark

theorem Straight.unbroken (h : Straight ops lo hi) (hhi : ∀ op ∈ ops[hi]?, op.inst ≠ .markLabel) :
    Unbroken ops lo hi := by
  refine Straight.unbroken_succ (fun q hle hlt => h q (Nat.le_of_succ_le hle) hlt) (fun op hop hlt => ?_) hhi
  obtain ⟨x, hx, hstr⟩ := h lo (Nat.le_refl _) hlt
  exact Option.some.inj (hop.symm.trans hx) ▸ Instruction.isTerminator_of_isStraight hstr

end Flat

namespace Segment

variable {s s' : Segment} {pc : Nat}

/-- A new segment begins behind a terminator or at a label. -/
def Parted (segments : List Segment) : Prop :=
  segments.IsChain fun s s' => s'.labels ≠ [] ∨ ∃ op ∈ s.ops.getLast?, op.inst.isTerminator

theorem Parted.cons (op : Operation) (h : Parted segments) : Parted (Segment.cons op segments) := by
  unfold Segment.cons
  split
  · cases segments with
    | nil => exact isChain_singleton _
    | cons s later => exact isChain_cons.2 (isChain_cons.1 h)
  · split
    · next ops later =>
      split
      · next hterm => exact isChain_cons_cons.2 ⟨.inr ⟨op, rfl, hterm⟩, h⟩
      · obtain ⟨hhead, hlater⟩ := isChain_cons.1 h
        refine isChain_cons.2 ⟨fun s hs => (hhead s hs).imp_right ?_, hlater⟩
        rintro ⟨last, hlast, hterm⟩
        refine ⟨last, ?_, hterm⟩
        rw [List.getLast?_cons, Option.mem_def.1 hlast]
        rfl
    · next hne =>
      cases segments with
      | nil => exact isChain_singleton _
      | cons s later =>
        obtain ⟨_ | ⟨l, ls⟩, ops⟩ := s
        · exact absurd rfl (hne ops later)
        · exact isChain_cons_cons.2 ⟨.inl (cons_ne_nil l ls), h⟩

theorem parted_ofOperations (ops : List Operation) : Parted (ofOperations ops) := by
  induction ops with
  | nil => exact isChain_nil
  | cons op ops ih => exact ih.cons op

/-- The segment at `i` covers the place. -/
structure Covers (segments : List Segment) (i : Nat) (s : Segment) (pc : Nat) : Prop where
  segment : segments[i]? = some s
  ge : entry segments i ≤ pc
  lt : pc < entry segments (i + 1)

namespace Covers

theorem index_le (h : Covers segments i s d) (h' : Covers segments j s' pc) (hle : d ≤ pc) : i ≤ j := by
  by_contra hlt
  have hent : entry segments (j + 1) ≤ entry segments i := entry_mono (Nat.lt_of_not_le hlt)
  have := h.ge
  have := h'.lt
  omega

theorem index_eq (h : Covers segments i s pc) (h' : Covers segments j s' pc) : i = j :=
  Nat.le_antisymm (h.index_le h' (Nat.le_refl _)) (h'.index_le h (Nat.le_refl _))

end Covers

namespace Spells

variable (h : Spells ops segments)
include h

theorem exists_covers (hpc : pc < ops.length) : ∃ i s, Covers segments i s pc := by
  have hlen := h.entry_length
  have hall : ∀ n, n ≤ segments.length → pc < entry segments n → ∃ i s, Covers segments i s pc := by
    intro n
    induction n with
    | zero => exact fun _ hlt => absurd hlt (Nat.not_lt_zero _)
    | succ n ih =>
      intro hn hlt
      by_cases hge : entry segments n ≤ pc
      · exact ⟨n, _, getElem?_eq_getElem hn, hge, hlt⟩
      · exact ih (Nat.le_of_succ_le hn) (Nat.lt_of_not_le hge)
  exact hall segments.length (Nat.le_refl _) (hlen ▸ hpc)

theorem isMark_of_lt (hs : segments[i]? = some s) (hge : entry segments i ≤ pc)
    (hlt : pc < entry segments i + s.labels.length) : ∃ op, ops[pc]? = some op ∧ op.inst = .markLabel := by
  obtain ⟨marks, hlen, hmarks, hst⟩ := h.stands_marks hs hge (Nat.le_of_lt hlt)
  cases marks with
  | nil =>
    rw [length_nil] at hlen
    omega
  | cons op marks => exact ⟨op, hst.head, hmarks op mem_cons_self⟩

theorem exists_index (hcov : Covers segments i s pc) (hop : ops[pc]? = some op) (hmark : op.inst ≠ .markLabel) :
    ∃ k, s.ops[k]? = some op ∧ pc = entry segments i + s.labels.length + k := by
  have hge : entry segments i + s.labels.length ≤ pc := by
    by_contra hlt
    obtain ⟨op', hop', hmark'⟩ := h.isMark_of_lt hcov.segment hcov.ge (Nat.lt_of_not_le hlt)
    obtain rfl := Option.some.inj (hop.symm.trans hop')
    exact hmark hmark'
  obtain ⟨k, rfl⟩ := Nat.exists_eq_add_of_le hge
  have hlt := hcov.lt
  rw [entry_succ hcov.segment, size] at hlt
  refine ⟨k, ?_, rfl⟩
  rwa [← (h.stands_ops hcov.segment).getElem? (by omega)]

theorem index_eq_of_unbroken (hparted : Parted segments) (hi : Covers segments i s d) (hj : Covers segments j s' pc)
    (hle : d ≤ pc) (hunbroken : Flat.Unbroken ops d pc) : i = j := by
  refine Nat.le_antisymm (hi.index_le hj hle) (Nat.le_of_not_lt fun hlt => ?_)
  have hnext : i + 1 < segments.length := Nat.lt_of_le_of_lt hlt (List.getElem?_eq_some_iff.1 hj.segment).1
  have hent : entry segments (i + 1) ≤ entry segments j := entry_mono hlt
  have hge := hj.ge
  have hd := hi.lt
  have hs : segments[i] = s := (List.getElem?_eq_some_iff.1 hi.segment).2
  obtain hlabs | ⟨op, hop, hterm⟩ := hparted.getElem i hnext
  · have hpos := List.length_pos_of_ne_nil hlabs
    obtain ⟨op, hop, hmark⟩ :=
      h.isMark_of_lt (List.getElem?_eq_getElem hnext) (Nat.le_refl _) (Nat.lt_add_of_pos_right hpos)
    exact (hunbroken _ op hop).2 hd (Nat.le_trans hent hge) hmark
  · rw [hs] at hop
    obtain ⟨init, hinit⟩ := getLast?_eq_some_iff.1 hop
    have hst := h.stands_ops hi.segment
    rw [hinit] at hst
    have hsucc := entry_succ hi.segment
    rw [size, hinit, length_append, length_singleton] at hsucc
    have hfalse := (hunbroken _ op hst.right.head).1 (by omega) (by omega)
    rw [hterm] at hfalse
    cases hfalse

theorem last_of_isTerminator (hpln : ∀ s ∈ segments, ∀ op ∈ s.ops.dropLast, op.inst.isTerminator = false)
    (hcov : Covers segments i s pc) (hop : ops[pc]? = some op) (hterm : op.inst.isTerminator) :
    s.ops.getLast? = some op ∧ pc + 1 = entry segments (i + 1) := by
  obtain ⟨k, hk, rfl⟩ := h.exists_index hcov hop (Instruction.ne_markLabel hterm)
  obtain ⟨hlt, rfl⟩ := List.getElem?_eq_some_iff.1 hk
  have hlast : k + 1 = s.ops.length := by
    by_contra hne
    have hmem : s.ops[k] ∈ s.ops.dropLast := by
      rw [dropLast_eq_take, mem_take_iff_getElem]
      exact ⟨k, by omega, rfl⟩
    rw [hpln s (mem_of_getElem? hcov.segment) _ hmem] at hterm
    cases hterm
  refine ⟨?_, ?_⟩
  · rw [getLast?_eq_getElem?, ← hlast, Nat.add_sub_cancel, hk]
  · rw [entry_succ hcov.segment, size]
    omega

/-- The head of a loop and its body are two segments, one behind the other. -/
theorem covers_around (hparted : Parted segments)
    (hpln : ∀ s ∈ segments, ∀ op ∈ s.ops.dropLast, op.inst.isTerminator = false) {label : Nat}
    (hrnd : Flat.Round ops label mark test back) (hmt : mark < test) (htb : test < back) :
    ∃ a sa s, Covers segments a sa mark ∧ Covers segments a sa test ∧ Covers segments (a + 1) s (test + 1) ∧
      Covers segments (a + 1) s back ∧ s.labels = [] ∧ s.ops.getLast? = ops[back]? := by
  obtain ⟨⟨markOp, hmarkOp, hlab⟩, hhead, ⟨testOp, htestOp, htest⟩, hbody, op, hback, hbr, -⟩ := hrnd
  have hop : op.inst.isTerminator := by rw [hbr]; rfl
  have hlen := (List.getElem?_eq_some_iff.1 hback).1
  have hupper : Flat.Unbroken ops mark test := by
    refine hhead.unbroken_succ (fun x hx _ => ?_) fun x hx => ?_
    · obtain rfl := Option.some.inj (hmarkOp.symm.trans hx)
      rw [Operation.isMark_of_marks hlab]
      rfl
    · obtain rfl := Option.some.inj (htestOp.symm.trans hx)
      exact Instruction.ne_markLabel htest
  have hlow : Flat.Unbroken ops (test + 1) back := by
    refine hbody.unbroken fun x hx => ?_
    obtain rfl := Option.some.inj (hback.symm.trans hx)
    exact Instruction.ne_markLabel hop
  obtain ⟨a, sa, ha⟩ := h.exists_covers (show mark < ops.length by omega)
  obtain ⟨a', sa', ha'⟩ := h.exists_covers (show test < ops.length by omega)
  obtain rfl := h.index_eq_of_unbroken hparted ha ha' (Nat.le_of_lt hmt) hupper
  obtain rfl := Option.some.inj (ha.segment.symm.trans ha'.segment)
  obtain ⟨-, hnext⟩ := h.last_of_isTerminator hpln ha' htestOp htest
  obtain ⟨c, s, hc⟩ := h.exists_covers (show back < ops.length by omega)
  have hac : a < c := by
    by_contra hle
    have hent : entry segments (c + 1) ≤ entry segments (a + 1) := entry_mono (by omega)
    have := hc.lt
    omega
  have hsize : a + 1 < segments.length := Nat.lt_of_le_of_lt hac (List.getElem?_eq_some_iff.1 hc.segment).1
  have hfst : Covers segments (a + 1) segments[a + 1] (test + 1) := by
    refine ⟨List.getElem?_eq_getElem hsize, Nat.le_of_eq hnext.symm, ?_⟩
    rw [entry_succ (List.getElem?_eq_getElem hsize), ← hnext]
    exact Nat.lt_add_of_pos_right (h.of_mem (List.getElem_mem hsize)).2
  obtain rfl := h.index_eq_of_unbroken hparted hfst hc htb hlow
  obtain rfl := Option.some.inj (hfst.segment.symm.trans hc.segment)
  refine ⟨a, sa, _, ha, ha', hfst, hc, ?_, (h.last_of_isTerminator hpln hc hback hop).1.trans hback.symm⟩
  by_contra hlabs
  obtain ⟨x, hx, hmark⟩ := h.isMark_of_lt hfst.segment (Nat.le_refl _)
    (Nat.lt_add_of_pos_right (List.length_pos_of_ne_nil hlabs))
  rw [← hnext] at hx
  obtain hlt | heq := Nat.lt_or_eq_of_le htb
  · obtain ⟨y, hy, hstr⟩ := hbody (test + 1) (Nat.le_refl _) hlt
    obtain rfl := Option.some.inj (hx.symm.trans hy)
    rw [hmark] at hstr
    cases hstr
  · rw [show test + 1 = back from heq] at hx
    obtain rfl := Option.some.inj (hx.symm.trans hback)
    exact Instruction.ne_markLabel hop hmark

end Spells

/-- The segment at `j` has, at place `q`, a branch to a label that is marked at place `m`,
among the labels of the segment at `k`. -/
structure Jumps (ops : List Operation) (segments : List Segment) (j q k m : Nat) : Prop where
  source : ∃ s, Covers segments j s q
  target : ∃ s, segments[k]? = some s ∧ entry segments k ≤ m ∧ m < entry segments k + s.labels.length
  label : ∃ n, (∃ op ∈ ops[q]?, n ∈ op.targets) ∧ ∃ op ∈ ops[m]?, n ∈ op.marks

end Segment

namespace Routine.CutFrom

variable {r : Routine}

theorem lt_of_number_lt (hcut : r.CutFrom ops segments kept number) (hlt : number i < number j) : i < j := by
  by_contra hle
  have := hcut.mono j i (Nat.le_of_not_lt hle)
  omega

theorem number_inj (hcut : r.CutFrom ops segments kept number) (hi : kept i) (hj : kept j) (h : number i = number j) :
    i = j := by
  obtain hlt | heq | hlt := Nat.lt_trichotomy i j
  · have := hcut.lt i j hi hlt
    omega
  · exact heq
  · have := hcut.lt j i hj hlt
    omega

/-- Where control comes from: the segment before, or a branch. -/
theorem edge_cases (hcut : r.CutFrom ops segments kept number) (hk : kept k) (hedge : r.graph.Edge u (number k)) :
    ∃ j, kept j ∧ number j = u ∧ (j + 1 = k ∨ ∃ q m, Jumps ops segments j q k m) := by
  have hu : u < r.blocks.size := by
    rw [← size_graph]
    exact hedge.lt_size
  obtain ⟨j, hj, rfl⟩ := hcut.exists_kept u hu
  obtain ⟨s, e, hs, he, hview, hkept⟩ := hcut.block j hj
  have hmem := (edge_graph.1 hedge).2
  rw [hview] at hmem
  have htgt : k ∈ e.1 ∨ k ∈ e.2 := by
    refine hmem.imp (fun hnext => ?_) fun hbr => ?_
    · obtain ⟨n, hn, heq⟩ := Option.map_eq_some_iff.1 hnext
      exact hcut.number_inj (hkept n (.inl hn)) hk heq ▸ hn
    · obtain ⟨n, hn, heq⟩ := Option.map_eq_some_iff.1 hbr
      exact hcut.number_inj (hkept n (.inr hn)) hk heq ▸ hn
  have hfollowing : ∀ n ∈ following segments j, j + 1 = n := by
    intro n hn
    unfold following at hn
    split at hn
    · exact Option.some.inj hn
    · cases hn
  refine ⟨j, hj, rfl, ?_⟩
  obtain ⟨op, -, -, rfl⟩ | ⟨op, label, target, hlast, -, hterm, hlab, hfind, rfl⟩ | ⟨-, rfl⟩ :=
    edges_cases he
  · simp at htgt
  · obtain hnext | hbr := htgt
    · split at hnext
      · exact .inl (hfollowing k hnext)
      · cases hnext
    · obtain rfl : target = k := Option.some.inj hbr
      obtain ⟨s', m, hs', hplc, hge, hlt⟩ := hcut.spells.mark?_eq hfind
      obtain ⟨init, hinit⟩ := getLast?_eq_some_iff.1 hlast
      have hst := hcut.spells.stands_ops hs
      rw [hinit] at hst
      have hsucc := entry_succ hs
      rw [size, hinit, length_append, length_singleton] at hsucc
      refine .inr ⟨_, m, ⟨s, hs, ?_, ?_⟩, ⟨s', hs', hge, hlt⟩, label, ⟨op, hst.right.head, ?_⟩,
        Flat.getElem?_of_mark? hplc⟩
      · omega
      · omega
      · rw [targets_eq hterm hlab]
        exact mem_singleton_self label
  · obtain hnext | hbr := htgt
    · exact .inl (hfollowing k hnext)
    · cases hbr

end Routine.CutFrom
end ShaderRecompiler
