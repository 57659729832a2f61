import Mathlib.Data.List.Basic
import Mathlib.Data.List.Nodup
import Mathlib.Data.List.Perm.Subperm
import Mathlib.Data.List.Range
import Mathlib.Logic.Function.Basic
import ShaderRecompiler.IR.Routine

/-! The links of an arena against plain lists. A routine is linked when each
block's links spell out one list of ids; every operation of the arena is then
one operation on those lists, and the walk along the links gives them back. -/
namespace ShaderRecompiler.Routine

open List

open Function (update update_self update_of_ne)

variable {r r' : Routine} {lists : Nat → List OpId}

theorem node_modifyNode (r : Routine) (id j : OpId) (f : Node → Node) :
    (r.modifyNode id f).node j = if id = j ∧ j < r.nodes.size then f (r.node j) else r.node j := by
  unfold node modifyNode
  simp only [Array.getD_eq_getD_getElem?, Array.getElem?_modify]
  by_cases hid : id = j
  · by_cases hj : j < r.nodes.size
    · simp [hid, hj]
    · simp [hid, hj]
  · simp [hid]

theorem block_modifyBlock (r : Routine) (b c : Nat) (f : Block → Block) :
    (r.modifyBlock b f).block c = if b = c ∧ c < r.blocks.size then f (r.block c) else r.block c := by
  unfold block modifyBlock
  simp only [Array.getD_eq_getD_getElem?, Array.getElem?_modify]
  by_cases hb : b = c
  · by_cases hc : c < r.blocks.size
    · simp [hb, hc]
    · simp [hb, hc]
  · simp [hb]

@[simp] theorem block_modifyNode (r : Routine) (id : OpId) (f : Node → Node) (b : Nat) :
    (r.modifyNode id f).block b = r.block b := rfl

@[simp] theorem node_modifyBlock (r : Routine) (b : Nat) (f : Block → Block) (id : OpId) :
    (r.modifyBlock b f).node id = r.node id := rfl

@[simp] theorem nodes_size_modifyNode (r : Routine) (id : OpId) (f : Node → Node) :
    (r.modifyNode id f).nodes.size = r.nodes.size := by
  simp [modifyNode]

@[simp] theorem blocks_size_modifyBlock (r : Routine) (b : Nat) (f : Block → Block) :
    (r.modifyBlock b f).blocks.size = r.blocks.size := by
  simp [modifyBlock]

theorem node_push (r : Routine) (n : Node) (id : OpId) :
    node { r with nodes := r.nodes.push n } id = if id = r.nodes.size then n else r.node id := by
  unfold node
  simp only [Array.getD_eq_getD_getElem?, Array.getElem?_push]
  split <;> rfl

/-- Each block's links spell out its list. -/
structure Linked (r : Routine) (lists : Nat → List OpId) : Prop where
  first_eq : ∀ b, r.first b = (lists b).head?
  last_eq : ∀ b, r.last b = (lists b).getLast?
  nodup : ∀ b, (lists b).Nodup
  lt : ∀ (b id : Nat), id ∈ lists b → id < r.nodes.size
  block_eq : ∀ (b id : Nat), id ∈ lists b → r.blockOf id = b
  live : ∀ (b id : Nat), id ∈ lists b → r.isRemoved id = false
  prev_eq : ∀ (b : Nat) xs (id : Nat) ys, lists b = xs ++ id :: ys → r.prev id = xs.getLast?
  next_eq : ∀ (b : Nat) xs (id : Nat) ys, lists b = xs ++ id :: ys → r.next id = ys.head?

namespace Linked

theorem unique (h : r.Linked lists) {id : OpId} (hb : id ∈ lists b) (hc : id ∈ lists c) : b = c := by
  rw [← h.block_eq b id hb, h.block_eq c id hc]

theorem walk_eq (h : r.Linked lists) (b : Nat) (ys : List OpId) (fuel : Nat) :
    ∀ xs, lists b = xs ++ ys → ys.length ≤ fuel → r.walk fuel ys.head? = ys := by
  induction ys generalizing fuel with
  | nil =>
    intro xs _ _
    cases fuel <;> rfl
  | cons id ys ih =>
    intro xs hl hf
    cases fuel with
    | zero => simp at hf
    | succ fuel =>
      have hnext := h.next_eq b xs id ys hl
      simp only [head?_cons, walk, hnext]
      rw [ih fuel (xs ++ [id]) (by simp [hl]) (by simpa using hf)]

theorem length_le (h : r.Linked lists) (b : Nat) : (lists b).length ≤ r.nodes.size := by
  have hsub : lists b ⊆ List.range r.nodes.size := by
    intro id hid
    exact mem_range.2 (h.lt b id hid)
  simpa using ((h.nodup b).subperm hsub).length_le

theorem blockOps_eq (h : r.Linked lists) (b : Nat) : r.blockOps b = lists b := by
  unfold blockOps
  rw [h.first_eq b]
  exact h.walk_eq b (lists b) _ [] (by simp) (h.length_le b)

end Linked

/-! What the two link updates change: one field of one node, or one end of a
block. -/

section Link

variable (r : Routine) (b : Nat) (place next prev : Option OpId)

theorem node_linkForward (j : OpId) : (r.linkForward b place next).node j =
      if place = some j ∧ j < r.nodes.size then { r.node j with next } else r.node j := by
  cases place with
  | none => simp [linkForward]
  | some id => simp [linkForward, node_modifyNode]

theorem node_linkBack (j : OpId) : (r.linkBack b place prev).node j =
      if place = some j ∧ j < r.nodes.size then { r.node j with prev } else r.node j := by
  cases place with
  | none => simp [linkBack]
  | some id => simp [linkBack, node_modifyNode]

theorem block_linkForward (c : Nat) : (r.linkForward b place next).block c =
      if place = none ∧ b = c ∧ c < r.blocks.size then { r.block c with first := next }
      else r.block c := by
  cases place with
  | none => simp [linkForward, block_modifyBlock]
  | some id => simp [linkForward]

theorem block_linkBack (c : Nat) : (r.linkBack b place prev).block c =
      if place = none ∧ b = c ∧ c < r.blocks.size then { r.block c with last := prev }
      else r.block c := by
  cases place with
  | none => simp [linkBack, block_modifyBlock]
  | some id => simp [linkBack]

@[simp] theorem nodes_size_linkForward : (r.linkForward b place next).nodes.size = r.nodes.size := by
  cases place <;> simp [linkForward, modifyBlock]

@[simp] theorem nodes_size_linkBack : (r.linkBack b place prev).nodes.size = r.nodes.size := by
  cases place <;> simp [linkBack, modifyBlock]

@[simp] theorem blocks_size_linkForward : (r.linkForward b place next).blocks.size = r.blocks.size := by
  cases place <;> simp [linkForward, modifyNode]

@[simp] theorem blocks_size_linkBack : (r.linkBack b place prev).blocks.size = r.blocks.size := by
  cases place <;> simp [linkBack, modifyNode]

end Link

section InsertBetween

variable (r : Routine) (b : Nat) (prev next : Option OpId) (operation : Operation)

@[simp] theorem nodes_size_insertBetween :
    (r.insertBetween b prev next operation).2.nodes.size = r.nodes.size + 1 := by
  simp [insertBetween]

@[simp] theorem blocks_size_insertBetween : (r.insertBetween b prev next operation).2.blocks.size = r.blocks.size := by
  simp [insertBetween]

theorem node_insertBetween (hprev : ∀ id : Nat, prev = some id → id < r.nodes.size)
    (hnext : ∀ id : Nat, next = some id → id < r.nodes.size) (j : Nat) :
    (r.insertBetween b prev next operation).2.node j =
      if j = r.nodes.size then { op := operation, block := b, prev, next }
      else
        { r.node j with
          next := if prev = some j then some r.nodes.size else r.next j
          prev := if next = some j then some r.nodes.size else r.prev j } := by
  unfold insertBetween
  simp only [node_linkBack, node_linkForward, node_push, nodes_size_linkForward, Array.size_push]
  have hp : prev = some j ∧ j < r.nodes.size + 1 ↔ prev = some j :=
    ⟨And.left, fun h => ⟨h, Nat.lt_succ_of_lt (hprev j h)⟩⟩
  have hn : next = some j ∧ j < r.nodes.size + 1 ↔ next = some j :=
    ⟨And.left, fun h => ⟨h, Nat.lt_succ_of_lt (hnext j h)⟩⟩
  simp only [hp, hn]
  by_cases hj : j = r.nodes.size
  · have hp' : prev ≠ some j := fun h => by have := hprev j h; omega
    have hn' : next ≠ some j := fun h => by have := hnext j h; omega
    simp only [if_neg hp', if_neg hn', if_pos hj]
  · simp only [if_neg hj, Routine.prev, Routine.next]
    split <;> split <;> rfl

theorem block_insertBetween (c : Nat) : (r.insertBetween b prev next operation).2.block c =
      if b = c ∧ c < r.blocks.size then { r.block c with
          first := if prev = none then some r.nodes.size else r.first c
          last := if next = none then some r.nodes.size else r.last c }
      else r.block c := by
  unfold insertBetween
  simp only [block_linkBack, block_linkForward, blocks_size_linkForward]
  have hblk : block { r with nodes := r.nodes.push { op := operation, block := b, prev, next } } c = r.block c := rfl
  rw [hblk]
  by_cases hc : b = c ∧ c < r.blocks.size
  · by_cases hp : prev = none <;> by_cases hn : next = none <;>
      simp [hc, hp, hn, first, last]
  · by_cases hp : prev = none <;> by_cases hn : next = none <;>
      simp [hc, hp, hn]

end InsertBetween

namespace Linked

theorem getLast?_lt (h : r.Linked lists) (hl : lists b = xs ++ ys) :
    ∀ id : Nat, xs.getLast? = some id → id < r.nodes.size := by
  intro id hid
  refine h.lt b id ?_
  rw [hl]
  exact mem_append_left _ (mem_of_getLast? hid)

theorem head?_lt (h : r.Linked lists) (hl : lists b = xs ++ ys) :
    ∀ id : Nat, ys.head? = some id → id < r.nodes.size := by
  intro id hid
  refine h.lt b id ?_
  rw [hl]
  exact mem_append_right _ (mem_of_head? hid)

theorem append_cases {x : α} (h : xs ++ ys = zs ++ x :: ws) :
    (∃ us, ys = us ++ x :: ws ∧ zs = xs ++ us) ∨ ∃ vs, xs = zs ++ x :: vs ∧ ws = vs ++ ys := by
  rcases append_eq_append_iff.1 h with ⟨as, hz, hy⟩ | ⟨bs, hx, hw⟩
  · exact .inl ⟨as, hy, hz⟩
  · cases bs with
    | nil => exact .inl ⟨[], by simpa using hw.symm, by simpa using hx.symm⟩
    | cons c vs =>
      simp only [cons_append, List.cons.injEq] at hw
      exact .inr ⟨vs, hw.1 ▸ hx, hw.2⟩

section Replace

theorem mem_update {c id : Nat} : id ∈ update lists b l c ↔ if c = b then id ∈ l else id ∈ lists c := by
  by_cases hc : c = b
  · subst hc
    simp
  · simp [hc]

/-- Ids between two neighbours give way to new ones. Of the nodes that stay, only those
on both sides are linked anew. -/
theorem replace (old : List OpId) (h : r.Linked lists) (hl : lists b = xs ++ old ++ ys)
    (hsize : r.nodes.size ≤ r'.nodes.size)
    (hfst : ∀ c, r'.first c = if c = b then (xs ++ new ++ ys).head? else r.first c)
    (hlast : ∀ c, r'.last c = if c = b then (xs ++ new ++ ys).getLast? else r.last c)
    (hkept : ∀ j < r.nodes.size, j ∉ old → r'.blockOf j = r.blockOf j ∧ r'.isRemoved j = r.isRemoved j ∧
      r'.prev j = (if ys.head? = some j then (xs ++ new).getLast? else r.prev j) ∧
      r'.next j = if xs.getLast? = some j then (new ++ ys).head? else r.next j) (hnodup : new.Nodup)
    (hnew : ∀ us (j : Nat) vs, new = us ++ j :: vs → r.nodes.size ≤ j ∧ j < r'.nodes.size ∧ r'.blockOf j = b ∧
      r'.isRemoved j = false ∧ r'.prev j = (xs ++ us).getLast? ∧ r'.next j = (vs ++ ys).head?) :
    r'.Linked (update lists b (xs ++ new ++ ys)) := by
  have hnd : (xs ++ ys).Nodup ∧ ∀ j ∈ old, j ∉ xs ++ ys := by
    have hnd : (old ++ (xs ++ ys)).Nodup := by
      rw [← (perm_append_comm_assoc xs old ys).nodup_iff, ← append_assoc, ← hl]
      exact h.nodup b
    exact ⟨(nodup_append.1 hnd).2.1, fun j hold hj => disjoint_of_nodup_append hnd hold hj⟩
  obtain ⟨hnd, hold⟩ := hnd
  have hapart : ∀ j ∈ xs, j ∉ ys := fun j hx hy => disjoint_of_nodup_append hnd hx hy
  have hstay : ∀ j ∈ xs ++ ys, j ∈ lists b ∧ j ∉ old := by
    refine fun j hj => ⟨?_, fun hmem => hold j hmem hj⟩
    rw [hl]
    simp only [mem_append] at hj ⊢
    tauto
  have hother : ∀ c (j : Nat), c ≠ b → j ∈ lists c → j ∉ xs ++ old ++ ys :=
    fun c j hc hj hmem => hc (h.unique hj (hl ▸ hmem))
  -- an id of the new lists is one of the new ones, or was there before and stayed
  have hmem : ∀ c (j : Nat), j ∈ update lists b (xs ++ new ++ ys) c → (c = b ∧ j ∈ new) ∨ j ∈ lists c ∧ j ∉ old := by
    intro c j hj
    rw [mem_update] at hj
    split at hj
    · next hc =>
      subst hc
      by_cases hin : j ∈ new
      · exact .inl ⟨rfl, hin⟩
      · exact .inr (hstay j (by simpa [hin] using hj))
    · next hc => exact .inr ⟨hj, fun hold => hother c j hc hj (by simp [hold])⟩
  have hfresh : ∀ j ∈ new, r.nodes.size ≤ j ∧ j < r'.nodes.size ∧ r'.blockOf j = b ∧ r'.isRemoved j = false := by
    intro j hj
    obtain ⟨us, vs, hspl⟩ := append_of_mem hj
    obtain ⟨hge, hlt, hblk, hlive, -⟩ := hnew us j vs hspl
    exact ⟨hge, hlt, hblk, hlive⟩
  have hlinks : ∀ c zs (j : Nat) ws, update lists b (xs ++ new ++ ys) c = zs ++ j :: ws →
      r'.prev j = zs.getLast? ∧ r'.next j = ws.head? := by
    intro c zs j ws hs
    by_cases hc : c = b
    · subst hc
      rw [update_self] at hs
      obtain ⟨us, rfl, rfl⟩ | ⟨vs, hleft, rfl⟩ := append_cases hs
      · obtain ⟨hj, hold⟩ := hstay j (by simp)
        obtain ⟨-, -, hprev, hnext⟩ := hkept j (h.lt c j hj) hold
        have hne : xs.getLast? ≠ some j := fun hx => hapart j (mem_of_getLast? hx) (by simp)
        rw [hprev, hnext, if_neg hne, h.prev_eq c (xs ++ old ++ us) j ws (by simp [hl])]
        refine ⟨?_, h.next_eq c (xs ++ old ++ us) j ws (by simp [hl])⟩
        cases us with
        | nil => simp
        | cons u us =>
          have hne : (u :: us ++ j :: ws).head? ≠ some j := by
            rintro ⟨⟩
            simp [nodup_append] at hnd
          rw [if_neg hne, getLast?_append_cons, getLast?_append_cons]
      obtain ⟨us, rfl, rfl⟩ | ⟨vs', rfl, rfl⟩ := append_cases hleft
      · exact (hnew us j vs rfl).2.2.2.2
      · obtain ⟨hj, hold⟩ := hstay j (by simp)
        obtain ⟨-, -, hprev, hnext⟩ := hkept j (h.lt c j hj) hold
        have hne : ys.head? ≠ some j := fun hy => hapart j (by simp) (mem_of_head? hy)
        rw [hprev, hnext, if_neg hne, h.next_eq c zs j (vs' ++ old ++ ys) (by simp [hl])]
        refine ⟨h.prev_eq c zs j (vs' ++ old ++ ys) (by simp [hl]), ?_⟩
        cases vs' with
        | nil => simp
        | cons v vs' =>
          have hne : (zs ++ j :: v :: vs').getLast? ≠ some j := by
            intro hx
            rw [getLast?_append_cons, getLast?_cons_cons] at hx
            have hcyc := mem_of_getLast? hx
            simp only [append_assoc, cons_append, nodup_append, nodup_cons] at hnd
            exact hnd.2.1.1 (mem_append_left ys hcyc)
          rw [if_neg hne]
          rfl
    · rw [update_of_ne hc] at hs
      have hj : j ∈ lists c := by simp [hs]
      have hnot := hother c j hc hj
      have hx : xs.getLast? ≠ some j := fun hx => hnot (by simp [mem_of_getLast? hx])
      have hy : ys.head? ≠ some j := fun hy => hnot (by simp [mem_of_head? hy])
      obtain ⟨-, -, hprev, hnext⟩ := hkept j (h.lt c j hj) fun hold => hnot (by simp [hold])
      rw [hprev, hnext, if_neg hx, if_neg hy]
      exact ⟨h.prev_eq c zs j ws hs, h.next_eq c zs j ws hs⟩
  refine ⟨fun c => ?_, fun c => ?_, fun c => ?_, fun c j hj => ?_, fun c j hj => ?_,
    fun c j hj => ?_, fun c zs j ws hs => (hlinks c zs j ws hs).1, fun c zs j ws hs => (hlinks c zs j ws hs).2⟩
  · rw [hfst, h.first_eq]
    split <;> simp [*]
  · rw [hlast, h.last_eq]
    split <;> simp [*]
  · by_cases hc : c = b
    · subst hc
      rw [update_self, append_assoc, (perm_append_comm_assoc xs new ys).nodup_iff]
      refine nodup_append.2 ⟨hnodup, hnd, ?_⟩
      rintro j hj _ hmem rfl
      exact absurd (h.lt c j (hstay j hmem).1) (Nat.not_lt.2 (hfresh j hj).1)
    · rw [update_of_ne hc]
      exact h.nodup c
  · obtain ⟨-, hj⟩ | ⟨hj, -⟩ := hmem c j hj
    · exact (hfresh j hj).2.1
    · exact Nat.lt_of_lt_of_le (h.lt c j hj) hsize
  · obtain ⟨rfl, hin⟩ | ⟨hj, hold⟩ := hmem c j hj
    · exact (hfresh j hin).2.2.1
    · rw [(hkept j (h.lt c j hj) hold).1, h.block_eq c j hj]
  · obtain ⟨-, hj⟩ | ⟨hj, hold⟩ := hmem c j hj
    · exact (hfresh j hj).2.2.2
    · rw [(hkept j (h.lt c j hj) hold).2.1, h.live c j hj]

/-- Putting an operation between two neighbours puts its id between theirs. -/
theorem insertBetween (operation : Operation) (h : r.Linked lists) (hb : b < r.blocks.size) (hl : lists b = xs ++ ys) :
    (r.insertBetween b xs.getLast? ys.head? operation).2.Linked
      (update lists b (xs ++ r.nodes.size :: ys)) := by
  have hnode := node_insertBetween r b _ _ operation (h.getLast?_lt hl) (h.head?_lt hl)
  have hblk := block_insertBetween r b xs.getLast? ys.head? operation
  rw [append_cons]
  refine h.replace [] (by simpa using hl) (by simp) (fun c => ?_) (fun c => ?_) (fun j hj _ => ?_)
    (nodup_singleton _) fun us j vs _ => ?_
  · by_cases hc : c = b
    · subst hc
      have hfst := h.first_eq c
      simp only [first, hblk, hb, and_self, if_true] at hfst ⊢
      rw [hfst, hl]
      cases xs <;> simp
    · simp [first, hblk, hc, Ne.symm hc]
  · by_cases hc : c = b
    · subst hc
      have hlast := h.last_eq c
      simp only [last, hblk, hb, and_self, if_true] at hlast ⊢
      rw [hlast, hl]
      cases ys <;> simp
    · simp [last, hblk, hc, Ne.symm hc]
  · simp [blockOf, isRemoved, prev, next, hnode, hj.ne]
  · obtain ⟨rfl, rfl, rfl⟩ : us = [] ∧ j = r.nodes.size ∧ vs = [] := by
      cases us <;> simp_all
    simp [blockOf, isRemoved, prev, next, hnode]


end Replace
end Linked

/-- The walk along the links is the list that the links spell out. -/
def WellLinked (r : Routine) : Prop := r.Linked r.blockOps

def code (r : Routine) (b : Nat) : List Operation := (r.blockOps b).map r.op

def live (r : Routine) : List Operation := (List.range r.blocks.size).flatMap r.code

theorem mem_live {op : Operation} : op ∈ r.live ↔ ∃ b < r.blocks.size, op ∈ r.code b := by
  simp [live]

theorem live_eq (r : Routine) : r.live = r.allOps.map fun x => r.op x.2 := by
  simp only [live, allOps, map_flatMap, map_map]
  rfl

theorem Linked.wellLinked (h : r.Linked lists) : r.WellLinked := by
  have heq : r.blockOps = lists := funext h.blockOps_eq
  unfold WellLinked
  rw [heq]
  exact h

theorem wellLinked_empty (ids : Ids) : WellLinked { ids } := by
  have hlink : Linked { ids } fun _ => [] := by
    refine ⟨fun _ => ?_, fun _ => ?_, fun _ => ?_, ?_, ?_, ?_, ?_, ?_⟩
    · rfl
    · rfl
    · exact nodup_nil
    all_goals simp
  exact hlink.wellLinked

theorem blockOps_of_size_le (h : r.WellLinked) (hb : r.blocks.size ≤ b) : r.blockOps b = [] := by
  have hfst := h.first_eq b
  have hblk : r.block b = default := by simp [block, hb]
  rw [first, hblk] at hfst
  exact head?_eq_none_iff.1 hfst.symm

namespace WellLinked

variable (h : r.WellLinked)
include h

theorem op_insertBetween (hl : r.blockOps b = xs ++ ys) (operation : Operation) (j : Nat) :
    (r.insertBetween b xs.getLast? ys.head? operation).2.op j =
      if j = r.nodes.size then operation else r.op j := by
  unfold op
  rw [node_insertBetween r b _ _ operation (h.getLast?_lt hl) (h.head?_lt hl)]
  split <;> rfl

theorem insertBetween (hb : b < r.blocks.size) (hl : r.blockOps b = xs ++ ys) (operation : Operation) :
    (r.insertBetween b xs.getLast? ys.head? operation).2.WellLinked :=
  (Linked.insertBetween operation h hb hl).wellLinked

theorem blockOps_insertBetween (hb : b < r.blocks.size) (hl : r.blockOps b = xs ++ ys) (operation : Operation) :
    (r.insertBetween b xs.getLast? ys.head? operation).2.blockOps =
      update r.blockOps b (xs ++ r.nodes.size :: ys) :=
  funext (Linked.insertBetween operation h hb hl).blockOps_eq

/-- The ids of a block stay below the arena's size, so a new text changes none of them. -/
theorem map_op_insertBetween (hl : r.blockOps b = xs ++ ys) (operation : Operation) {l : List OpId}
    (hlt : ∀ id ∈ l, id < r.nodes.size) :
    l.map (r.insertBetween b xs.getLast? ys.head? operation).2.op = l.map r.op := by
  apply map_congr_left
  intro id hid
  rw [h.op_insertBetween hl, if_neg (hlt id hid).ne]

theorem code_insertBetween (hb : b < r.blocks.size) (hl : r.blockOps b = xs ++ ys) (operation : Operation) (c : Nat) :
    (r.insertBetween b xs.getLast? ys.head? operation).2.code c =
      if c = b then xs.map r.op ++ operation :: ys.map r.op else r.code c := by
  unfold code
  rw [h.blockOps_insertBetween hb hl]
  have hlt : ∀ id ∈ xs ++ ys, id < r.nodes.size := fun id hid => h.lt b id (hl ▸ hid)
  by_cases hc : c = b
  · subst hc
    rw [update_self, if_pos rfl, map_append, map_cons,
      h.map_op_insertBetween hl operation fun id hid => hlt id (mem_append_left _ hid),
      h.map_op_insertBetween hl operation fun id hid => hlt id (mem_append_right _ hid),
      h.op_insertBetween hl, if_pos rfl]
  · rw [update_of_ne hc, if_neg hc]
    exact h.map_op_insertBetween hl operation (h.lt c)

theorem push_eq (b : Nat) (operation : Operation) : r.push b operation =
      r.insertBetween b (r.blockOps b).getLast? ([] : List OpId).head? operation := by
  rw [push, h.last_eq b]
  rfl

theorem push (hb : b < r.blocks.size) (operation : Operation) : (r.push b operation).2.WellLinked := by
  rw [h.push_eq]
  exact h.insertBetween hb (by simp) operation

theorem code_push (hb : b < r.blocks.size) (operation : Operation) (c : Nat) :
    (r.push b operation).2.code c = if c = b then r.code b ++ [operation] else r.code c := by
  rw [h.push_eq, h.code_insertBetween hb (by simp) operation]
  rfl

end WellLinked

/-! Blocks are added at the end and filled from the front. -/

theorem block_push (r : Routine) (x : Block) (c : Nat) :
    block { r with blocks := r.blocks.push x } c = if c = r.blocks.size then x else r.block c := by
  unfold block
  simp only [Array.getD_eq_getD_getElem?, Array.getElem?_push]
  split <;> rfl

@[simp] theorem blocks_size_addBlock (r : Routine) : r.addBlock.2.blocks.size = r.blocks.size + 1 := by
  simp [addBlock]

theorem block_addBlock (r : Routine) (c : Nat) : r.addBlock.2.block c = r.block c := by
  unfold addBlock
  rw [block_push]
  split
  · next hc => simp [block, hc]; rfl
  · rfl

theorem Linked.congr (h : r.Linked lists) (hsize : r'.nodes.size = r.nodes.size)
    (hnode : ∀ id, { r'.node id with op := (r.node id).op } = r.node id)
    (hfst : ∀ b, r'.first b = r.first b) (hlast : ∀ b, r'.last b = r.last b) :
    r'.Linked lists where
  first_eq b := (hfst b).trans (h.first_eq b)
  last_eq b := (hlast b).trans (h.last_eq b)
  nodup := h.nodup
  lt b id hid := hsize ▸ h.lt b id hid
  block_eq b id hid := (congrArg Node.block (hnode id)).trans (h.block_eq b id hid)
  live b id hid := (congrArg Node.removed (hnode id)).trans (h.live b id hid)
  prev_eq b xs id ys hl := (congrArg Node.prev (hnode id)).trans (h.prev_eq b xs id ys hl)
  next_eq b xs id ys hl := (congrArg Node.next (hnode id)).trans (h.next_eq b xs id ys hl)

theorem blockOps_congr (hnodes : r'.nodes = r.nodes)
    (hfst : ∀ b, r'.first b = r.first b) : r'.blockOps = r.blockOps := by
  have hnext : r'.next = r.next := by funext id; simp [next, node, hnodes]
  have hwalk : ∀ fuel start, r'.walk fuel start = r.walk fuel start := by
    intro fuel
    induction fuel with
    | zero => intro start; cases start <;> rfl
    | succ fuel ih =>
      intro start
      cases start with
      | none => rfl
      | some id => simp only [walk, hnext, ih]
  funext b
  unfold blockOps
  rw [hwalk, hfst, hnodes]

theorem WellLinked.congr (h : r.WellLinked) (hnodes : r'.nodes = r.nodes)
    (hfst : ∀ b, r'.first b = r.first b) (hlast : ∀ b, r'.last b = r.last b) : r'.WellLinked :=
  (Linked.congr h (by rw [hnodes]) (fun _ => by simp [node, hnodes]) hfst hlast).wellLinked

theorem code_congr (hnodes : r'.nodes = r.nodes) (hfst : ∀ b, r'.first b = r.first b) : r'.code = r.code := by
  funext b
  unfold code
  rw [blockOps_congr hnodes hfst]
  have hop : r'.op = r.op := by funext id; simp [op, node, hnodes]
  rw [hop]

theorem WellLinked.addBlock (h : r.WellLinked) : r.addBlock.2.WellLinked :=
  h.congr rfl (fun _ => by simp [first, block_addBlock]) fun _ => by simp [last, block_addBlock]

@[simp] theorem code_addBlock (r : Routine) : r.addBlock.2.code = r.code :=
  code_congr rfl fun _ => by simp [first, block_addBlock]

@[simp] theorem blocks_size_push (r : Routine) (b : Nat) (operation : Operation) :
    (r.push b operation).2.blocks.size = r.blocks.size := by
  simp [push]

theorem block_push_edges (r : Routine) (b : Nat) (operation : Operation) (c : Nat) :
    ((r.push b operation).2.block c).next = (r.block c).next ∧
      ((r.push b operation).2.block c).branch = (r.block c).branch := by
  rw [push, block_insertBetween]
  split <;> exact ⟨rfl, rfl⟩

section AppendOps

theorem appendOps_cons (r : Routine) (b : Nat) (operation : Operation) (ops : List Operation) :
    r.appendOps b (operation :: ops) = (r.push b operation).2.appendOps b ops := rfl

@[simp] theorem blocks_size_appendOps (r : Routine) (b : Nat) (ops : List Operation) :
    (r.appendOps b ops).blocks.size = r.blocks.size := by
  induction ops generalizing r with
  | nil => rfl
  | cons operation ops ih => rw [appendOps_cons, ih, blocks_size_push]

theorem block_appendOps_edges (r : Routine) (b : Nat) (ops : List Operation) (c : Nat) :
    ((r.appendOps b ops).block c).next = (r.block c).next ∧
      ((r.appendOps b ops).block c).branch = (r.block c).branch := by
  induction ops generalizing r with
  | nil => exact ⟨rfl, rfl⟩
  | cons operation ops ih =>
    have hpush := block_push_edges r b operation c
    rw [appendOps_cons]
    exact ⟨(ih _).1.trans hpush.1, (ih _).2.trans hpush.2⟩

theorem WellLinked.appendOps (h : r.WellLinked) (hb : b < r.blocks.size) (ops : List Operation) :
    (r.appendOps b ops).WellLinked := by
  induction ops generalizing r with
  | nil => exact h
  | cons operation ops ih =>
    rw [appendOps_cons]
    exact ih (h.push hb operation) (by simpa using hb)

theorem WellLinked.code_appendOps (h : r.WellLinked) (hb : b < r.blocks.size) (ops : List Operation) (c : Nat) :
    (r.appendOps b ops).code c = if c = b then r.code b ++ ops else r.code c := by
  induction ops generalizing r with
  | nil =>
    split
    · next hc => simp [hc, Routine.appendOps]
    · rfl
  | cons operation ops ih =>
    rw [appendOps_cons, ih (h.push hb operation) (by simpa using hb), h.code_push hb, h.code_push hb]
    split <;> simp

end AppendOps
end ShaderRecompiler.Routine
