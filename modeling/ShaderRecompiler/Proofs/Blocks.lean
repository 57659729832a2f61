import ShaderRecompiler.Flow.Blocks
import ShaderRecompiler.Proofs.Arena
import ShaderRecompiler.Proofs.Search

/-! The blocks of a routine as a list of views: what each holds and where it
leads. Blocks are only ever added at the end, so a routine that is built block
by block has the views it was given. Cutting a list of operations gives blocks
whose terminators stand last and whose edges stay inside the routine. -/
namespace ShaderRecompiler

open List

variable {r r' : Routine}

/-- The operations of a block and its edges. -/
structure View where
  ops : List Operation
  next : Option Nat
  branch : Option Nat

namespace View

/-- Terminators stand last, and edges lead to the first `size` blocks. -/
structure Closed (v : View) (size : Nat) : Prop where
  plain : ∀ op ∈ v.ops.dropLast, op.inst.isTerminator = false
  next_lt : ∀ n ∈ v.next, n < size
  branch_lt : ∀ n ∈ v.branch, n < size
  branch_isSome : ∀ op ∈ v.ops.getLast?, op.inst.isTerminator → op.inst ≠ .ret → v.branch.isSome

/-- Control that reaches the end of the block has somewhere to go. -/
def Onward (v : View) : Prop :=
  (∀ op ∈ v.ops.getLast?, op.inst.isJump = false) → v.next.isSome

end View

namespace Routine

def view (r : Routine) (b : Nat) : View := ⟨r.code b, (r.block b).next, (r.block b).branch⟩

def views (r : Routine) : List View := (range r.blocks.size).map r.view

@[simp] theorem length_views (r : Routine) : r.views.length = r.blocks.size := by simp [views]

theorem getElem?_views (r : Routine) (b : Nat) :
    r.views[b]? = if b < r.blocks.size then some (r.view b) else none := by
  unfold views
  split
  · next hb => simp [hb]
  · next hb => simp [Nat.le_of_not_lt hb]

theorem mem_views : v ∈ r.views ↔ ∃ b < r.blocks.size, r.view b = v := by
  simp [views]

theorem mem_allOps {id : OpId} : (b, id) ∈ r.allOps ↔ b < r.blocks.size ∧ id ∈ r.blockOps b := by
  simp [allOps]

def Closed (r : Routine) : Prop := ∀ v ∈ r.views, v.Closed r.blocks.size

def Onward (r : Routine) : Prop := ∀ v ∈ r.views, v.Onward

theorem Closed.plain (h : r.Closed) (hlink : r.WellLinked) (b : Nat) :
    ∀ op ∈ (r.code b).dropLast, op.inst.isTerminator = false := by
  by_cases hb : b < r.blocks.size
  · exact (h _ (mem_views.2 ⟨b, hb, rfl⟩)).plain
  · rw [code, blockOps_of_size_le hlink (Nat.le_of_not_lt hb)]
    simp

theorem view_congr (hnodes : r'.nodes = r.nodes) (hblks : r'.blocks = r.blocks) : r'.view = r.view := by
  have hblk : r'.block = r.block := by funext b; simp [block, hblks]
  funext b
  rw [view, view, hblk, code_congr hnodes fun _ => by rw [first, first, hblk]]

theorem views_congr (hnodes : r'.nodes = r.nodes) (hblks : r'.blocks = r.blocks) : r'.views = r.views := by
  rw [views, views, view_congr hnodes hblks, hblks]

theorem ids_push (r : Routine) (b : Nat) (op : Operation) : (r.push b op).2.ids = r.ids := by
  unfold push insertBetween linkForward linkBack
  cases r.last b <;> rfl

theorem ids_addFilledBlock (r : Routine) (ops : List Operation) (next branch : Option Nat) :
    (r.addFilledBlock ops next branch).ids = r.ids := by
  have happend : ∀ (b : Nat) (ops : List Operation) (r : Routine), (r.appendOps b ops).ids = r.ids := by
    intro b ops
    induction ops with
    | nil => exact fun _ => rfl
    | cons op ops ih => exact fun r => (ih _).trans (ids_push r b op)
  exact happend _ _ _

section AddFilledBlock

variable (ops : List Operation) (next branch : Option Nat)

@[simp] theorem blocks_size_addFilledBlock (r : Routine) :
    (r.addFilledBlock ops next branch).blocks.size = r.blocks.size + 1 := by
  simp [addFilledBlock]

theorem addFilledBlock_eq (r : Routine) : r.addFilledBlock ops next branch =
      (r.addBlock.2.appendOps r.blocks.size ops).modifyBlock r.blocks.size ({ · with next, branch }) :=
  rfl

private theorem lt_size_addBlock (r : Routine) : r.blocks.size < r.addBlock.2.blocks.size := by simp

theorem first_modify_edges (r : Routine) (b c : Nat) :
    (r.modifyBlock b ({ · with next, branch })).first c = r.first c := by
  rw [first, first, block_modifyBlock]
  split <;> rfl

theorem last_modify_edges (r : Routine) (b c : Nat) :
    (r.modifyBlock b ({ · with next, branch })).last c = r.last c := by
  rw [last, last, block_modifyBlock]
  split <;> rfl

theorem WellLinked.addFilledBlock (h : r.WellLinked) : (r.addFilledBlock ops next branch).WellLinked := by
  have hfilled := h.addBlock.appendOps (lt_size_addBlock r) ops
  exact hfilled.congr rfl (first_modify_edges next branch _ _) (last_modify_edges next branch _ _)

theorem WellLinked.view_addFilledBlock (h : r.WellLinked) (b : Nat) : (r.addFilledBlock ops next branch).view b =
      if b = r.blocks.size then ⟨ops, next, branch⟩ else r.view b := by
  have hcode : (r.addFilledBlock ops next branch).code b =
      if b = r.blocks.size then ops else r.code b := by
    have hnew : r.code r.blocks.size = [] := by simp [code, blockOps_of_size_le h (Nat.le_refl _)]
    have hsame : (r.addFilledBlock ops next branch).code = (r.addBlock.2.appendOps r.blocks.size ops).code :=
      code_congr rfl (first_modify_edges next branch _ _)
    rw [hsame, h.addBlock.code_appendOps (lt_size_addBlock r), code_addBlock, hnew, nil_append]
  have hold := block_appendOps_edges r.addBlock.2 r.blocks.size ops b
  have hblk : (r.addFilledBlock ops next branch).block b =
      if b = r.blocks.size then
        { (r.addBlock.2.appendOps r.blocks.size ops).block b with next, branch }
      else (r.addBlock.2.appendOps r.blocks.size ops).block b := by
    rw [addFilledBlock_eq, block_modifyBlock, blocks_size_appendOps, blocks_size_addBlock]
    by_cases hb : b = r.blocks.size
    · rw [if_pos hb, if_pos (by omega)]
    · rw [if_neg hb, if_neg (by omega)]
  rw [block_addBlock] at hold
  unfold view
  rw [hcode, hblk]
  split
  · rfl
  · rw [hold.1, hold.2]

theorem WellLinked.views_addFilledBlock (h : r.WellLinked) :
    (r.addFilledBlock ops next branch).views = r.views ++ [⟨ops, next, branch⟩] := by
  rw [views, blocks_size_addFilledBlock, range_succ, map_append, views]
  congr 1
  · apply map_congr_left
    intro b hb
    rw [h.view_addFilledBlock, if_neg (mem_range.1 hb).ne]
  · simp [h.view_addFilledBlock]

end AddFilledBlock

def fill (r : Routine) (vs : List View) : Routine :=
  vs.foldl (fun r v => r.addFilledBlock v.ops v.next v.branch) r

theorem WellLinked.fill (h : r.WellLinked) (vs : List View) :
    (r.fill vs).WellLinked ∧ (r.fill vs).views = r.views ++ vs := by
  induction vs generalizing r with
  | nil => exact ⟨h, by simp [Routine.fill]⟩
  | cons v vs ih =>
    obtain ⟨hlink, hviews⟩ := ih (h.addFilledBlock v.ops v.next v.branch)
    exact ⟨hlink, by rw [Routine.fill, foldl_cons, ← Routine.fill, hviews, h.views_addFilledBlock, append_assoc]; rfl⟩

end Routine

namespace Segment

variable {rest : List Segment}

theorem plain_cons (h : ∀ s ∈ rest, ∀ x ∈ s.ops.dropLast, x.inst.isTerminator = false) :
    ∀ s ∈ cons op rest, ∀ x ∈ s.ops.dropLast, x.inst.isTerminator = false := by
  unfold cons
  by_cases hmark : op.inst = .markLabel
  · rw [if_pos hmark]
    cases rest with
    | nil => simp
    | cons s later => exact forall_mem_cons.2 (forall_mem_cons.1 h)
  · rw [if_neg hmark]
    have hnew : ∀ x ∈ (⟨[], [op]⟩ : Segment).ops.dropLast, x.inst.isTerminator = false := by simp
    split
    · next ops later =>
      by_cases hterm : op.inst.isTerminator
      · rw [if_pos hterm]
        exact forall_mem_cons.2 ⟨hnew, h⟩
      · rw [if_neg hterm]
        obtain ⟨hops, hlater⟩ := forall_mem_cons.1 h
        refine forall_mem_cons.2 ⟨fun x hx => ?_, hlater⟩
        cases ops with
        | nil => simp at hx
        | cons y ys =>
          rcases mem_cons.1 hx with rfl | hx
          · simpa using hterm
          · exact hops x hx
    · exact forall_mem_cons.2 ⟨hnew, h⟩

theorem plain_ofOperations (ops : List Operation) :
    ∀ s ∈ ofOperations ops, ∀ x ∈ s.ops.dropLast, x.inst.isTerminator = false := by
  induction ops with
  | nil => simp [ofOperations]
  | cons op ops ih => exact plain_cons ih

theorem getLast?_cons (h : rest.getLast?.bind (·.ops.getLast?) = some last) :
    (cons op rest).getLast?.bind (·.ops.getLast?) = some last := by
  cases rest with
  | nil => simp at h
  | cons s later =>
    have hfront : ∀ s', s'.ops.getLast? = s.ops.getLast? →
        ((s' :: later).getLast?.bind (·.ops.getLast?)) = some last := by
      intro s' hs'
      cases later with
      | nil => simpa [hs'] using h
      | cons s₂ later => simpa using h
    unfold cons
    by_cases hmark : op.inst = .markLabel
    · rw [if_pos hmark]
      exact hfront _ rfl
    · rw [if_neg hmark]
      split
      · next ops later' heq =>
        obtain ⟨rfl, rfl⟩ := cons.inj heq
        split
        · simpa using h
        · cases later with
          | nil =>
            have hops : ops.getLast? = some last := by simpa using h
            apply hfront
            rw [getLast?_cons, hops]
            rfl
          | cons s₂ later => simpa using h
      · simpa using h

theorem getLast?_ofOperations {ops : List Operation} (h : ops.getLast? = some last) (hlab : last.inst ≠ .markLabel) :
    (ofOperations ops).getLast?.bind (·.ops.getLast?) = some last := by
  induction ops with
  | nil => simp at h
  | cons op ops ih =>
    cases ops with
    | nil =>
      obtain rfl : op = last := by simpa using h
      simp [ofOperations, cons, hlab]
    | cons op₂ ops => exact getLast?_cons (ih (by simpa using h))

section Edges

variable {segments : List Segment} {kept : Array Bool}

def following (segments : List Segment) (index : Nat) : Option Nat :=
  if index + 1 < segments.length then some (index + 1) else none

theorem following_lt : ∀ n ∈ following segments index, n < segments.length := by
  intro n hn
  unfold following at hn
  split at hn
  · simp_all
  · simp at hn

section

variable {segment : Segment} (h : edges segments index segment = .ok e)
include h

/-- A return leads nowhere, a branch to the segment of its label, and what does
not jump goes on to the following segment. -/
theorem edges_cases : (∃ op, segment.ops.getLast? = some op ∧ op.inst = .ret ∧ e = (none, none)) ∨
    (∃ op label target, segment.ops.getLast? = some op ∧ op.inst ≠ .ret ∧
      op.inst.isTerminator ∧ op.label? = .ok label ∧
      segments.findIdx? (·.labels.contains label) = some target ∧
      e = (if op.inst.isConditionalBranch then following segments index else none, some target)) ∨
    ((∀ op ∈ segment.ops.getLast?, op.inst.isTerminator = false) ∧
      e = (following segments index, none)) := by
  unfold edges at h
  cases hlast : segment.ops.getLast? with
  | none =>
    simp only [hlast, Except.ok.injEq] at h
    exact .inr (.inr ⟨by simp, h.symm⟩)
  | some op =>
    simp only [hlast] at h
    by_cases hret : op.inst = .ret
    · rw [if_pos hret] at h
      exact .inl ⟨op, rfl, hret, (Except.ok.inj h).symm⟩
    · rw [if_neg hret] at h
      by_cases hterm : op.inst.isTerminator
      · rw [if_pos hterm] at h
        cases hlab : op.label? with
        | error e' => simp [hlab, bind, Except.bind] at h
        | ok label =>
          simp only [hlab, bind, Except.bind] at h
          cases hfind : segments.findIdx? (·.labels.contains label) with
          | none => simp only [hfind, reduceCtorEq] at h
          | some target =>
            simp only [hfind, Except.ok.injEq] at h
            exact .inr (.inl ⟨op, label, target, rfl, hret, hterm, hlab, hfind, h.symm⟩)
      · rw [if_neg hterm] at h
        refine .inr (.inr ⟨?_, (Except.ok.inj h).symm⟩)
        simpa using hterm

theorem open_of_edges (hpln : ∀ op ∈ segment.ops.dropLast, op.inst.isTerminator = false)
    (hopen : ¬∃ op, segment.ops.getLast? = some op ∧ op.inst.isTerminator) :
    e = (following segments index, none) ∧ ∀ op ∈ segment.ops, op.inst.isTerminator = false := by
  constructor
  · obtain ⟨op, hop, hret, -⟩ | ⟨op, label, target, hop, -, hterm, -⟩ | ⟨-, rfl⟩ := edges_cases h
    · exact absurd ⟨op, hop, by rw [hret]; rfl⟩ hopen
    · exact absurd ⟨op, hop, hterm⟩ hopen
    · rfl
  · cases hops : segment.ops.getLast? with
    | none => simp [getLast?_eq_none_iff.1 hops]
    | some last =>
      rw [← dropLast_append_getLast? last hops]
      refine forall_mem_append.2 ⟨hpln, forall_mem_singleton.2 ?_⟩
      exact Bool.eq_false_iff.2 fun hterm => hopen ⟨last, hops, hterm⟩

theorem edges_closed (hpln : ∀ x ∈ segment.ops.dropLast, x.inst.isTerminator = false) :
    View.Closed ⟨segment.ops, e.1, e.2⟩ segments.length := by
  obtain ⟨op, hlast, hret, rfl⟩ | ⟨op, label, target, hlast, -, -, -, hfind, rfl⟩ | ⟨hlast, rfl⟩ :=
    edges_cases h
  · exact ⟨hpln, by simp, by simp, by simp [hlast, hret]⟩
  · refine ⟨hpln, ?_, ?_, fun _ _ _ _ => rfl⟩
    · intro n hn
      dsimp only at hn
      split at hn
      · exact following_lt n hn
      · simp at hn
    · intro n hn
      obtain rfl : target = n := by simpa using hn
      exact (findIdx?_eq_some_iff_findIdx_eq.1 hfind).1
  · refine ⟨hpln, following_lt, by simp, fun op hop hterm => ?_⟩
    rw [hlast op hop] at hterm
    cases hterm

theorem edges_onward (hlast : index + 1 = segments.length → ∃ op ∈ segment.ops.getLast?, op.inst.isJump)
    (hidx : index < segments.length) : View.Onward ⟨segment.ops, e.1, e.2⟩ := by
  intro hjump
  have hfall : (following segments index).isSome := by
    unfold following
    split
    · rfl
    · obtain ⟨op, hop, hop'⟩ := hlast (by omega)
      rw [hjump op hop] at hop'
      cases hop'
  obtain ⟨op, hop, hret, -⟩ | ⟨op, label, target, hop, hret, hterm, -, -, rfl⟩ | ⟨-, rfl⟩ :=
    edges_cases h
  · have := hjump op hop
    simp [hret, Instruction.isJump] at this
  · have hcond : op.inst.isConditionalBranch := by
      have := hjump op hop
      revert hret hterm this
      cases op.inst <;> simp [Instruction.isTerminator, Instruction.isJump, Instruction.isConditionalBranch]
    simpa [hcond] using hfall
  · exact hfall

end

/-- The graph of the segments, before blocks are left out. -/
def flow (edges : List (Option Nat × Option Nat)) : Digraph :=
  ⟨(edges.map fun (next, branch) => next.toList ++ branch.toList).toArray⟩

@[simp] theorem size_flow (edges : List (Option Nat × Option Nat)) : (flow edges).size = edges.length := by
  simp [flow, Digraph.size]

variable {edges : List (Option Nat × Option Nat)}

theorem mem_next_flow : n ∈ (flow edges).next i ↔ ∃ e, edges[i]? = some e ∧ (n ∈ e.1 ∨ n ∈ e.2) := by
  unfold flow Digraph.next
  simp only [Array.getD_eq_getD_getElem?, getElem?_toArray, getElem?_map]
  cases edges[i]? with
  | none => simp
  | some e => simp

/-- The place of block `b` among the kept ones. -/
def renumber (kept : Array Bool) (b : Nat) : Nat := (kept.toList.take b).count true

theorem renumber_lt (h : kept.getD b false) : renumber kept b < kept.toList.count true := by
  have hb : b < kept.toList.length := by
    by_contra hb
    simp at hb
    simp [hb] at h
  have hsize : b < kept.size := by simpa using hb
  have hget : kept.toList[b] := by simpa [hsize] using h
  have hspl : kept.toList = kept.toList.take b ++ true :: kept.toList.drop (b + 1) := by
    conv_lhs => rw [← take_append_drop b kept.toList, drop_eq_getElem_cons hb, hget]
  rw [renumber]
  conv_rhs => rw [hspl, count_append, count_cons_self]
  omega

theorem renumber_lt_renumber (hi : kept.getD i false) (hij : i < j) : renumber kept i < renumber kept j := by
  have hsize : i < kept.size := by
    by_contra hsize
    rw [Array.getD_eq_getD_getElem?, Array.getElem?_eq_none (Nat.le_of_not_lt hsize)] at hi
    cases hi
  have hget : kept.toList[i]? = some true := by simpa [hsize] using hi
  have hle : renumber kept (i + 1) ≤ renumber kept j := (take_sublist_take_left hij).count_le true
  rw [renumber, take_add_one, hget, count_append] at hle
  exact hle

/-- The blocks that are left of the segments, with their edges renumbered. -/
def keptViews (segments : List Segment) (edges : List (Option Nat × Option Nat)) (kept : Array Bool) : List View :=
  (((segments.zip edges).zip kept.toList).filter (·.2)).map fun ((segment, next, branch), _) =>
    ⟨segment.ops, next.map (renumber kept), branch.map (renumber kept)⟩

theorem mem_keptViews (h : v ∈ keptViews segments edges kept) :
    ∃ i s e, segments[i]? = some s ∧ edges[i]? = some e ∧ kept.getD i false ∧
      v = ⟨s.ops, e.1.map (renumber kept), e.2.map (renumber kept)⟩ := by
  obtain ⟨⟨⟨s, e⟩, k⟩, hmem, rfl⟩ := mem_map.1 h
  obtain ⟨hmem, hk⟩ := mem_filter.1 hmem
  obtain ⟨i, hi⟩ := mem_iff_getElem?.1 hmem
  rw [getElem?_zip_eq_some, getElem?_zip_eq_some] at hi
  obtain ⟨⟨hs, he⟩, hkept⟩ := hi
  refine ⟨i, s, e, hs, he, ?_, rfl⟩
  have : kept[i]? = some k := by simpa using hkept
  simpa [Array.getD_eq_getD_getElem?, this] using hk

theorem getElem?_filter_countP {α : Type} {p : α → Bool} {xs : List α} {x : α}
    (hx : xs[i]? = some x) (hp : p x) : (xs.filter p)[(xs.take i).countP p]? = some x := by
  induction xs generalizing i with
  | nil => simp at hx
  | cons y ys ih =>
    cases i with
    | zero =>
      obtain rfl : y = x := by simpa using hx
      simp [hp]
    | succ i =>
      have hys := ih (by simpa using hx)
      by_cases hy : p y <;> simpa [hy] using hys

theorem exists_of_lt_filter {α : Type} {p : α → Bool} {xs : List α} (hb : b < (xs.filter p).length) :
    ∃ i x, xs[i]? = some x ∧ p x ∧ (xs.take i).countP p = b := by
  induction xs generalizing b with
  | nil => simp at hb
  | cons y ys ih =>
    by_cases hy : p y
    · cases b with
      | zero => exact ⟨0, y, rfl, hy, rfl⟩
      | succ b =>
        obtain ⟨i, x, hx, hp, hcnt⟩ := ih (b := b) (by simpa [hy] using hb)
        exact ⟨i + 1, x, by simpa using hx, hp, by simp [hy, hcnt]⟩
    · obtain ⟨i, x, hx, hp, hcnt⟩ := ih (b := b) (by simpa [hy] using hb)
      exact ⟨i + 1, x, by simpa using hx, hp, by simp [hy, hcnt]⟩

section Kept

variable (hedges : edges.length = segments.length) (hkept : kept.size = segments.length)
include hedges hkept

theorem countP_take_zip (i : Nat) :
    (((segments.zip edges).zip kept.toList).take i).countP (·.2) = renumber kept i := by
  have hsnd : ((segments.zip edges).zip kept.toList).map (·.2) = kept.toList :=
    map_snd_zip (by simp [hedges, hkept])
  rw [renumber, count, ← hsnd, ← map_take, countP_map]
  congr
  funext x
  simp

theorem getElem?_keptViews {s : Segment} (hs : segments[i]? = some s) (he : edges[i]? = some e)
    (hi : kept.getD i false) :
    (keptViews segments edges kept)[renumber kept i]? =
      some ⟨s.ops, e.1.map (renumber kept), e.2.map (renumber kept)⟩ := by
  have hk : kept.toList[i]? = some true := by
    cases hget : kept[i]? with
    | none => simp [Array.getD_eq_getD_getElem?, hget] at hi
    | some k =>
      simp only [Array.getD_eq_getD_getElem?, hget, Option.getD_some] at hi
      simp [hget, hi]
  have hzip : ((segments.zip edges).zip kept.toList)[i]? = some ((s, e), true) := by
    rw [getElem?_zip_eq_some, getElem?_zip_eq_some]
    exact ⟨⟨hs, he⟩, hk⟩
  have hfilter := getElem?_filter_countP (p := (·.2)) hzip rfl
  rw [countP_take_zip hedges hkept] at hfilter
  rw [keptViews, getElem?_map, hfilter]
  rfl

theorem exists_renumber {b : Nat} (hb : b < (keptViews segments edges kept).length) :
    ∃ i, kept.getD i false ∧ renumber kept i = b := by
  rw [keptViews, length_map] at hb
  obtain ⟨i, ⟨⟨s, e⟩, k⟩, hx, hp, hcnt⟩ := exists_of_lt_filter hb
  rw [countP_take_zip hedges hkept] at hcnt
  rw [getElem?_zip_eq_some] at hx
  have hget : kept[i]? = some k := by simpa using hx.2
  exact ⟨i, by simpa [Array.getD_eq_getD_getElem?, hget] using hp, hcnt⟩

end Kept

theorem length_keptViews (hedges : edges.length = segments.length) (hkept : kept.size = segments.length) :
    (keptViews segments edges kept).length = kept.toList.count true := by
  have hsnd : (((segments.zip edges).zip kept.toList).map (·.2)) = kept.toList :=
    map_snd_zip (by simp [hedges, hkept])
  rw [keptViews, length_map, ← countP_eq_length_filter, count, ← hsnd, countP_map]
  congr
  funext x
  simp

end Edges
end Segment

theorem forall₂_of_mapM_ok {α β ε : Type} {f : α → Except ε β} {xs : List α} {ys : List β}
    (h : xs.mapM f = .ok ys) : Forall₂ (fun x y => f x = .ok y) xs ys := by
  induction xs generalizing ys with
  | nil =>
    obtain rfl : [] = ys := by simpa [pure, Except.pure] using h
    exact .nil
  | cons x xs ih =>
    rw [mapM_cons] at h
    cases hx : f x with
    | error e => simp [hx, bind, Except.bind] at h
    | ok y =>
      cases hxs : xs.mapM f with
      | error e => simp [hx, hxs, bind, Except.bind] at h
      | ok zs =>
        obtain rfl : y :: zs = ys := by simpa [hx, hxs, bind, Except.bind, pure, Except.pure] using h
        exact .cons hx (ih hxs)

namespace Routine

variable {ids : Ids}

@[simp] theorem size_graph (r : Routine) : r.graph.size = r.blocks.size := by
  simp [graph, Digraph.size]

theorem next_graph (r : Routine) (b : Nat) : r.graph.next b = r.successors b := by
  simp only [Digraph.next, graph, successors, block, Array.getD_eq_getD_getElem?, Array.getElem?_map]
  cases r.blocks[b]? <;> rfl

theorem edge_graph : r.graph.Edge u v ↔ v < r.blocks.size ∧ (v ∈ (r.view u).next ∨ v ∈ (r.view u).branch) := by
  have hmem : v ∈ (r.block u).successors ↔ v ∈ (r.block u).next ∨ v ∈ (r.block u).branch := by
    unfold Block.successors
    by_cases heq : (r.block u).branch = (r.block u).next
    · simp [heq]
    · simp [heq]
  rw [Digraph.Edge, size_graph, next_graph, successors, hmem, and_comm]
  rfl

theorem ofOperations_eq (h : ofOperations ops ids = .ok r) : ops ≠ [] ∧ Segment.checkLabels ops [] = .ok () ∧ ∃ edges,
      edges.length = (Segment.ofOperations ops).length ∧
      (∀ i s e, (Segment.ofOperations ops)[i]? = some s → edges[i]? = some e →
        Segment.edges (Segment.ofOperations ops) i s = .ok e) ∧
      r = fill { ids } (Segment.keptViews (Segment.ofOperations ops) edges ((Segment.flow edges).reached [0])) := by
  unfold ofOperations at h
  cases ops with
  | nil => cases h
  | cons op ops =>
    simp only [isEmpty_cons, Bool.false_eq_true, if_false] at h
    cases hlabs : Segment.checkLabels (op :: ops) [] with
    | error e => simp [hlabs, bind, Except.bind] at h
    | ok u =>
      generalize hsegments : Segment.ofOperations (op :: ops) = segments at h ⊢
      cases hedges : segments.zipIdx.mapM fun x => Segment.edges segments x.2 x.1 with
      | error e => simp [hlabs, hedges, bind, Except.bind] at h
      | ok edges =>
        have hall := forall₂_of_mapM_ok hedges
        simp only [hlabs, hedges, bind, Except.bind, pure, Except.pure, Except.ok.injEq] at h
        refine ⟨by simp, rfl, edges, by simpa using hall.length_eq.symm, ?_, ?_⟩
        · intro i s e hs he
          rw [forall₂_iff_get] at hall
          obtain ⟨hi, rfl⟩ := List.getElem?_eq_some_iff.1 he
          obtain ⟨hi', rfl⟩ := List.getElem?_eq_some_iff.1 hs
          have := hall.2 i (by simpa using hi') hi
          simpa using this
        · rw [← h, fill, Segment.keptViews, foldl_map]
          rfl

theorem WellLinked.ofOperations (h : ofOperations ops ids = .ok r) : r.WellLinked := by
  obtain ⟨-, -, edges, -, -, rfl⟩ := ofOperations_eq h
  exact ((wellLinked_empty ids).fill _).1

theorem views_ofOperations (h : ofOperations ops ids = .ok r) :
    ∃ edges kept, edges.length = (Segment.ofOperations ops).length ∧
      (∀ i s e, (Segment.ofOperations ops)[i]? = some s → edges[i]? = some e →
        Segment.edges (Segment.ofOperations ops) i s = .ok e) ∧
      kept.size = (Segment.ofOperations ops).length ∧
      r.views = Segment.keptViews (Segment.ofOperations ops) edges kept ∧
      ∀ i, kept.getD i false ↔
        0 < (Segment.ofOperations ops).length ∧ Relation.ReflTransGen (Segment.flow edges).Edge 0 i := by
  obtain ⟨-, -, edges, hlen, hedges, rfl⟩ := ofOperations_eq h
  refine ⟨edges, (Segment.flow edges).reached [0], hlen, hedges, ?_, ?_, fun i => ?_⟩
  · rw [Digraph.size_reached, Segment.size_flow, hlen]
  · simpa [views] using ((wellLinked_empty ids).fill (Segment.keptViews (Segment.ofOperations ops) edges
      ((Segment.flow edges).reached [0]))).2
  · rw [Digraph.reached_iff, Segment.size_flow, hlen]
    simp

variable (h : Routine.ofOperations ops ids = .ok r)
include h

theorem mem_views_ofOperations (hv : v ∈ r.views) : ∃ i s e, (Segment.ofOperations ops)[i]? = some s ∧
      Segment.edges (Segment.ofOperations ops) i s = .ok e ∧
      ∃ f : Nat → Nat, v = ⟨s.ops, e.1.map f, e.2.map f⟩ ∧
        ∀ n, n ∈ e.1 ∨ n ∈ e.2 → f n < r.blocks.size := by
  obtain ⟨edges, kept, hlen, hedges, hsize, hviews, hkept⟩ := views_ofOperations h
  rw [hviews] at hv
  obtain ⟨i, s, e, hs, he, hi, rfl⟩ := Segment.mem_keptViews hv
  refine ⟨i, s, e, hs, hedges i s e hs he, _, rfl, fun n hn => ?_⟩
  rw [← length_views, hviews, Segment.length_keptViews hlen hsize]
  refine Segment.renumber_lt ?_
  -- A kept block keeps the blocks it leads to.
  have hclosed := Segment.edges_closed (hedges i s e hs he)
    (Segment.plain_ofOperations ops s (mem_of_getElem? hs))
  obtain ⟨hpos, hpath⟩ := (hkept i).1 hi
  refine (hkept n).2 ⟨hpos, hpath.tail ⟨Segment.mem_next_flow.2 ⟨e, he, hn⟩, ?_⟩⟩
  rw [Segment.size_flow, hlen]
  exact hn.elim (hclosed.next_lt n) (hclosed.branch_lt n)

theorem Closed.ofOperations : r.Closed := by
  intro v hv
  obtain ⟨i, s, e, hs, he, f, rfl, hlt⟩ := mem_views_ofOperations h hv
  have hclosed := Segment.edges_closed he (Segment.plain_ofOperations ops s (mem_of_getElem? hs))
  refine ⟨hclosed.plain, ?_, ?_, ?_⟩
  · intro n hn
    obtain ⟨m, hm, rfl⟩ := Option.map_eq_some_iff.1 hn
    exact hlt m (.inl hm)
  · intro n hn
    obtain ⟨m, hm, rfl⟩ := Option.map_eq_some_iff.1 hn
    exact hlt m (.inr hm)
  · intro op hop hterm hret
    simpa using hclosed.branch_isSome op hop hterm hret

theorem Onward.ofOperations (hlast : ∃ op ∈ ops.getLast?, op.inst.isJump) : r.Onward := by
  intro v hv
  obtain ⟨i, s, e, hs, he, f, rfl, -⟩ := mem_views_ofOperations h hv
  obtain ⟨hi, rfl⟩ := List.getElem?_eq_some_iff.1 hs
  have honw := Segment.edges_onward he ?_ hi
  · intro hjump
    simpa using honw hjump
  · obtain ⟨op, hop, hjump⟩ := hlast
    have hend := Segment.getLast?_ofOperations hop (by intro h; simp [h, Instruction.isJump] at hjump)
    intro hlen
    rw [getLast?_eq_getElem?, ← hlen, Nat.add_sub_cancel, hs] at hend
    exact ⟨op, hend, hjump⟩

theorem blocks_pos_ofOperations : 0 < r.blocks.size := by
  have hsegments : 0 < (Segment.ofOperations ops).length := by
    cases ops with
    | nil => exact absurd rfl (ofOperations_eq h).1
    | cons op ops =>
      simp only [Segment.ofOperations, foldr_cons]
      generalize foldr Segment.cons [] ops = rest
      unfold Segment.cons
      split
      · split <;> simp
      · split
        · split <;> simp
        · simp
  obtain ⟨edges, kept, hlen, -, hsize, hviews, hkept⟩ := views_ofOperations h
  rw [← length_views, hviews, Segment.length_keptViews hlen hsize]
  exact Nat.lt_of_le_of_lt (Nat.zero_le _) (Segment.renumber_lt ((hkept 0).2 ⟨hsegments, .refl⟩))

theorem reachable_ofOperations (hb : b < r.blocks.size) : Relation.ReflTransGen r.graph.Edge 0 b := by
  obtain ⟨edges, kept, hlen, -, hsize, hviews, hkept⟩ := views_ofOperations h
  have hcnt : r.blocks.size = kept.toList.count true := by
    rw [← length_views, hviews, Segment.length_keptViews hlen hsize]
  obtain ⟨i, hi, rfl⟩ := Segment.exists_renumber hlen hsize (by rwa [← hviews, length_views])
  obtain ⟨hpos, hpath⟩ := (hkept i).1 hi
  clear hi hb
  induction hpath with
  | refl => simp [Segment.renumber, Relation.ReflTransGen.refl]
  | @tail u n hpath hedge ih =>
    refine ih.tail (edge_graph.2 ⟨?_, ?_⟩)
    · rw [hcnt]
      exact Segment.renumber_lt ((hkept n).2 ⟨hpos, hpath.tail hedge⟩)
    · obtain ⟨e, he, hn⟩ := Segment.mem_next_flow.1 hedge.1
      have hu : u < (Segment.ofOperations ops).length := by
        rw [← hlen]
        exact (List.getElem?_eq_some_iff.1 he).1
      have hview := Segment.getElem?_keptViews hlen hsize (getElem?_eq_getElem hu) he ((hkept u).2 ⟨hpos, hpath⟩)
      rw [← hviews, getElem?_views] at hview
      split at hview
      · rw [Option.some.inj hview]
        exact hn.imp (fun h => Option.mem_map_of_mem _ h) fun h => Option.mem_map_of_mem _ h
      · cases hview

end Routine
end ShaderRecompiler
