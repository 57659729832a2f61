import ShaderRecompiler.Proofs.Arena

/-! Edits inside a block: an operation is put before another one, replaced or
taken out. Each is the corresponding edit of the block's list. -/
namespace ShaderRecompiler.Routine

open List

variable {r : Routine} {id : OpId}

section Remove

@[simp] theorem blocks_size_remove (r : Routine) (id : OpId) : (r.remove id).blocks.size = r.blocks.size := by
  unfold remove
  split
  · rfl
  · simp [modifyNode]

@[simp] theorem nodes_size_remove (r : Routine) (id : OpId) : (r.remove id).nodes.size = r.nodes.size := by
  unfold remove
  split <;> simp

variable (h : r.Linked lists) (hl : lists b = xs ++ id :: ys)
include h hl

theorem node_remove (j : Nat) : (r.remove id).node j = { r.node j with
        next := if xs.getLast? = some j then ys.head? else r.next j
        prev := if ys.head? = some j then xs.getLast? else r.prev j
        removed := if j = id then true else r.isRemoved j } := by
  have hid : id ∈ lists b := by simp [hl]
  have hlt := h.lt b id hid
  have hp : xs.getLast? = some j → j < r.nodes.size := h.getLast?_lt hl j
  have hn : ys.head? = some j → j < r.nodes.size := fun hy =>
    h.lt b j (by simp [hl, mem_of_head? hy])
  unfold remove
  rw [if_neg (by simp [h.live b id hid]), h.block_eq b id hid, h.prev_eq b xs id ys hl, h.next_eq b xs id ys hl]
  simp only [node_modifyNode, node_linkBack, node_linkForward, nodes_size_linkForward, nodes_size_linkBack]
  have hp' : xs.getLast? = some j ∧ j < r.nodes.size ↔ xs.getLast? = some j :=
    ⟨And.left, fun h => ⟨h, hp h⟩⟩
  have hn' : ys.head? = some j ∧ j < r.nodes.size ↔ ys.head? = some j :=
    ⟨And.left, fun h => ⟨h, hn h⟩⟩
  have hr : id = j ∧ j < r.nodes.size ↔ j = id :=
    ⟨fun h => h.1.symm, fun h => ⟨h.symm, h ▸ hlt⟩⟩
  simp only [hp', hn', hr, next, prev, isRemoved]
  split <;> split <;> split <;> rfl

theorem next_remove (j : Nat) : (r.remove id).next j = if xs.getLast? = some j then ys.head? else r.next j :=
  congrArg Node.next (node_remove h hl j)

theorem op_remove (j : Nat) : (r.remove id).op j = r.op j := by
  unfold op
  rw [node_remove h hl]

theorem block_remove (hb : b < r.blocks.size) (c : Nat) : (r.remove id).block c =
      if c = b then { r.block c with
          first := if xs = [] then ys.head? else r.first c
          last := if ys = [] then xs.getLast? else r.last c }
      else r.block c := by
  have hid : id ∈ lists b := by simp [hl]
  unfold remove
  rw [if_neg (by simp [h.live b id hid]), h.block_eq b id hid, h.prev_eq b xs id ys hl, h.next_eq b xs id ys hl]
  simp only [block_modifyNode, block_linkBack, block_linkForward, blocks_size_linkForward,
    getLast?_eq_none_iff, head?_eq_none_iff]
  by_cases hc : c = b
  · subst hc
    by_cases hx : xs = [] <;> by_cases hy : ys = [] <;> simp [hx, hy, hb, first, last]
  · simp [hc, Ne.symm hc]

/-- Taking an operation out takes its id out of the block's list. -/
theorem Linked.remove (hb : b < r.blocks.size) : (r.remove id).Linked (Function.update lists b (xs ++ ys)) := by
  have hnode := node_remove h hl
  have hblk := block_remove h hl hb
  rw [← append_nil xs]
  refine h.replace [id] (by simpa using hl) (by simp) (fun c => ?_) (fun c => ?_) (fun j _ hne => ?_)
    nodup_nil (by simp)
  · by_cases hc : c = b
    · subst hc
      have hfst := h.first_eq c
      simp only [first, hblk, if_true] at hfst ⊢
      rw [hfst, hl]
      cases xs <;> simp
    · simp [first, hblk, hc]
  · by_cases hc : c = b
    · subst hc
      have hlast := h.last_eq c
      simp only [last, hblk, if_true] at hlast ⊢
      rw [hlast, hl]
      cases ys <;> simp
    · simp [last, hblk, hc]
  · have hne : j ≠ id := by simpa using hne
    simp [blockOf, isRemoved, prev, next, hnode, hne]

end Remove

section SetOp

theorem node_setOp (r : Routine) (id : OpId) (operation : Operation) (j : Nat) : (r.setOp id operation).node j =
      if id = j ∧ j < r.nodes.size then { r.node j with op := operation } else r.node j :=
  node_modifyNode r id j _

theorem Linked.setOp (h : r.Linked lists) (id : OpId) (operation : Operation) :
    (r.setOp id operation).Linked lists := by
  refine h.congr (nodes_size_modifyNode ..) (fun _ => ?_) (fun _ => rfl) fun _ => rfl
  rw [node_setOp]
  split <;> rfl

end SetOp

/-- Blocks and their edges are the same. -/
structure SameFlow (r r' : Routine) : Prop where
  blocks_size : r'.blocks.size = r.blocks.size
  next_eq : ∀ b, (r'.block b).next = (r.block b).next
  branch_eq : ∀ b, (r'.block b).branch = (r.block b).branch

namespace SameFlow

theorem refl (r : Routine) : r.SameFlow r := ⟨rfl, fun _ => rfl, fun _ => rfl⟩

theorem trans (h : r.SameFlow r') (h' : r'.SameFlow r'') : r.SameFlow r'' :=
  ⟨h'.blocks_size.trans h.blocks_size, fun b => (h'.next_eq b).trans (h.next_eq b),
    fun b => (h'.branch_eq b).trans (h.branch_eq b)⟩

end SameFlow

theorem sameFlow_insertBetween (r : Routine) (b : Nat) (prev next : Option OpId)
    (operation : Operation) : r.SameFlow (r.insertBetween b prev next operation).2 := by
  have hblk := block_insertBetween r b prev next operation
  refine ⟨blocks_size_insertBetween .., fun _ => ?_, fun _ => ?_⟩
  · rw [hblk]
    split <;> rfl
  · rw [hblk]
    split <;> rfl

theorem WellLinked.sameFlow_remove (h : r.WellLinked) (hb : b < r.blocks.size)
    (hl : r.blockOps b = xs ++ id :: ys) : r.SameFlow (r.remove id) := by
  have hblk := block_remove h hl hb
  refine ⟨blocks_size_remove .., fun _ => ?_, fun _ => ?_⟩
  · rw [hblk]
    split <;> rfl
  · rw [hblk]
    split <;> rfl

theorem WellLinked.insertBefore_eq (h : r.WellLinked) (hl : r.blockOps b = xs ++ id :: ys) (operation : Operation) :
    r.insertBefore id operation = r.insertBetween b xs.getLast? (id :: ys).head? operation := by
  unfold insertBefore
  rw [h.block_eq b id (by simp [hl]), h.prev_eq b xs id ys hl]
  rfl

/-- A block after an edit: `r'` has `ids` in block `b`, the other blocks and the
operations that were there have stayed. -/
structure Edited (r r' : Routine) (b : Nat) (ids : List OpId) : Prop where
  linked : r'.WellLinked
  flow : r.SameFlow r'
  blockOps_eq : r'.blockOps = Function.update r.blockOps b ids
  size_le : r.nodes.size ≤ r'.nodes.size

theorem WellLinked.insertOps (h : r.WellLinked) (hb : b < r.blocks.size)
    (hl : r.blockOps b = xs ++ id :: ys) (ops : List Operation) :
    ∃ new, Edited r (ops.foldl (fun r op => (r.insertBefore id op).2) r) b (xs ++ new ++ id :: ys) ∧
      new.map (ops.foldl (fun r op => (r.insertBefore id op).2) r).op = ops ∧ (∀ j ∈ new, r.nodes.size ≤ j) ∧
      ∀ j < r.nodes.size, (ops.foldl (fun r op => (r.insertBefore id op).2) r).op j = r.op j := by
  induction ops generalizing r xs with
  | nil =>
    refine ⟨[], ⟨h, .refl r, ?_, Nat.le_refl _⟩, rfl, forall_mem_nil _, fun _ _ => rfl⟩
    rw [append_nil, ← hl, Function.update_eq_self]
    rfl
  | cons op ops ih =>
    rw [foldl_cons, h.insertBefore_eq hl]
    have hstep := h.insertBetween hb hl op
    have hlist := h.blockOps_insertBetween hb hl op
    have hop := h.op_insertBetween hl op
    have hsize := nodes_size_insertBetween r b xs.getLast? (id :: ys).head? op
    have hflow := sameFlow_insertBetween r b xs.getLast? (id :: ys).head? op
    generalize (r.insertBetween b xs.getLast? (id :: ys).head? op).2 = r₁ at *
    have hl₁ : r₁.blockOps b = (xs ++ [r.nodes.size]) ++ id :: ys := by
      rw [hlist]
      simp
    obtain ⟨new, hedit, hnew, hfresh, hkeep⟩ := ih hstep (by rw [hflow.blocks_size]; exact hb) hl₁
    refine ⟨r.nodes.size :: new, ⟨hedit.linked, hflow.trans hedit.flow, ?_, ?_⟩, ?_,
      forall_mem_cons.2 ⟨Nat.le_refl _, fun j hj => Nat.le_trans (by omega) (hfresh j hj)⟩, fun j hj => ?_⟩
    · rw [hedit.blockOps_eq, hlist, Function.update_idem]
      simp
    · exact Nat.le_trans (by omega) hedit.size_le
    · rw [map_cons, hnew, hkeep _ (by omega), hop, if_pos rfl]
    · rw [hkeep j (by omega), hop, if_neg (by omega)]

end ShaderRecompiler.Routine
