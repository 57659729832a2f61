import ShaderRecompiler.Proofs.Editing

/-! A routine's arena against plain lists. Whatever sequence of edits an empty routine
goes through is made on lists of ids as well, one for each block, and everything
that can be asked about the routine's operations is then read off the lists. -/
namespace ShaderRecompiler

open List

variable {l : Ledger} {xs ys : List OpId} {b : Nat} {id : OpId}

inductive Edit where
  | addBlock
  | push (b : Nat) (operation : Operation)
  | insertBefore (place : OpId) (operation : Operation)
  | insertAfter (place : OpId) (operation : Operation)
  | remove (id : OpId)

def Routine.edit (r : Routine) : Edit → Routine
  | .addBlock => r.addBlock.2
  | .push b operation => (r.push b operation).2
  | .insertBefore place operation => (r.insertBefore place operation).2
  | .insertAfter place operation => (r.insertAfter place operation).2
  | .remove id => r.remove id

/-- A routine's operations without links: the ids in each block, and the operation behind
every id that was handed out. -/
structure Ledger where
  lists : List (List OpId) := []
  ops : List Operation := []

namespace Ledger

/-- Puts `ids` where `place` stands. -/
def supplant (place : OpId) (ids l : List OpId) : List OpId := l.flatMap fun id => if id = place then ids else [id]

def edit (l : Ledger) : Edit → Ledger
  | .addBlock => { l with lists := l.lists ++ [[]] }
  | .push b operation => ⟨l.lists.modify b (· ++ [l.ops.length]), l.ops ++ [operation]⟩
  | .insertBefore place operation => ⟨l.lists.map (supplant place [l.ops.length, place]), l.ops ++ [operation]⟩
  | .insertAfter place operation => ⟨l.lists.map (supplant place [place, l.ops.length]), l.ops ++ [operation]⟩
  | .remove id => { l with lists := l.lists.map (supplant id []) }

/-- Operations go into blocks that exist and next to live ones; what is removed was handed out. -/
def Allows (l : Ledger) : Edit → Prop
  | .addBlock => True
  | .push b _ => b < l.lists.length
  | .insertBefore place _ | .insertAfter place _ => place ∈ l.lists.flatten
  | .remove id => id < l.ops.length

/-- Each edit is allowed when its turn comes. -/
def AllowsAll (l : Ledger) : List Edit → Prop
  | [] => True
  | e :: edits => l.Allows e ∧ (l.edit e).AllowsAll edits

def block (l : Ledger) (b : Nat) : List OpId := l.lists[b]?.getD []

theorem mem_flatten : id ∈ l.lists.flatten ↔ ∃ b, id ∈ l.block b := by
  simp only [List.mem_flatten, block]
  constructor
  · rintro ⟨ids, hids, hid⟩
    obtain ⟨b, hb⟩ := List.mem_iff_getElem?.1 hids
    exact ⟨b, by rwa [hb]⟩
  · rintro ⟨b, hid⟩
    cases hb : l.lists[b]? with
    | none => simp [hb] at hid
    | some ids => exact ⟨ids, List.mem_of_getElem? hb, by simpa [hb] using hid⟩

theorem lt_length (h : id ∈ l.block b) : b < l.lists.length := by
  refine Nat.lt_of_not_le fun hb => ?_
  simp [block, getElem?_eq_none hb] at h

theorem lt_length_of_eq (h : l.block b = xs ++ id :: ys) : b < l.lists.length := by
  have hid : id ∈ l.block b := by simp [h]
  exact lt_length hid

theorem supplant_of_not_mem {ids : List OpId} (h : place ∉ xs) : supplant place ids xs = xs := by
  induction xs with
  | nil => rfl
  | cons x xs ih =>
    rw [mem_cons, not_or] at h
    rw [supplant, flatMap_cons, if_neg (Ne.symm h.1)]
    exact congrArg (x :: ·) (ih h.2)

theorem supplant_append {ids : List OpId} (h : (xs ++ place :: ys).Nodup) :
    supplant place ids (xs ++ place :: ys) = xs ++ (ids ++ ys) := by
  obtain ⟨-, hys, hxs⟩ := nodup_append.1 h
  have hfront : place ∉ xs := fun hmem => hxs _ hmem _ (mem_cons_self ..) rfl
  have happend : supplant place ids (xs ++ place :: ys) = supplant place ids xs ++ (ids ++ supplant place ids ys) := by
    simp [supplant]
  rw [happend, supplant_of_not_mem hfront, supplant_of_not_mem (nodup_cons.1 hys).1]

end Ledger

namespace Routine

variable {r r' : Routine} {l' : Ledger} {e : Edit}

/-- The links of a routine spell out a ledger, and whatever is on no list is marked removed. -/
structure Tallies (r : Routine) (l : Ledger) : Prop where
  nodes_size : r.nodes.size = l.ops.length
  blocks_size : r.blocks.size = l.lists.length
  linked : r.Linked l.block
  listed : ∀ id < l.ops.length, r.isRemoved id = false → ∃ b, id ∈ l.block b
  op_eq : ∀ id < l.ops.length, l.ops[id]? = some (r.op id)

theorem tallies_empty (ids : Ids) : Tallies { ids } {} :=
  ⟨rfl, rfl, wellLinked_empty ids, fun _ h => absurd h (Nat.not_lt_zero _), fun _ h => absurd h (Nat.not_lt_zero _)⟩

/-- What an edit does to a routine and to its ledger. -/
inductive Step (r : Routine) (l : Ledger) : Routine → Ledger → Prop
  | idle : Step r l r l
  | addBlock : Step r l r.addBlock.2 { l with lists := l.lists ++ [[]] }
  | insert {b : Nat} {xs ys : List OpId} (operation : Operation) (hb : b < l.lists.length)
      (hl : l.block b = xs ++ ys) : Step r l (r.insertBetween b xs.getLast? ys.head? operation).2
        ⟨l.lists.set b (xs ++ l.ops.length :: ys), l.ops ++ [operation]⟩
  | remove {b : Nat} {xs ys : List OpId} {id : OpId} (hl : l.block b = xs ++ id :: ys) :
      Step r l (r.remove id) { l with lists := l.lists.set b (xs ++ ys) }

theorem Tallies.map_supplant (h : r.Tallies l) (hl : l.block b = xs ++ id :: ys) (ids : List OpId) :
    l.lists.map (Ledger.supplant id ids) = l.lists.set b (xs ++ (ids ++ ys)) := by
  have hb : b < l.lists.length := Ledger.lt_length_of_eq hl
  refine ext_getElem (by simp) fun c hc _ => ?_
  rw [length_map] at hc
  have hblk : l.block c = l.lists[c] := by simp [Ledger.block, hc]
  rw [getElem_map, getElem_set, ← hblk]
  split
  · next hbc =>
    subst hbc
    rw [hl, Ledger.supplant_append (hl ▸ h.linked.nodup b)]
  · next hbc =>
    refine Ledger.supplant_of_not_mem fun hid => hbc ?_
    exact h.linked.unique (by simp [hl]) hid

theorem Tallies.step (h : r.Tallies l) (ha : l.Allows e) : r.Step l (r.edit e) (l.edit e) := by
  cases e with
  | addBlock => exact .addBlock
  | push b operation =>
    have hb : b < l.lists.length := ha
    have hpush : r.edit (.push b operation) = (r.insertBetween b (l.block b).getLast? [].head? operation).2 := by
      rw [← h.linked.last_eq]
      rfl
    have hset : l.lists.modify b (· ++ [l.ops.length]) = l.lists.set b (l.block b ++ l.ops.length :: []) := by
      simp [modify_eq_set, Ledger.block, hb]
    rw [hpush, Ledger.edit, hset]
    exact .insert operation hb (append_nil _).symm
  | insertBefore place operation =>
    obtain ⟨b, hid⟩ := Ledger.mem_flatten.1 ha
    obtain ⟨xs, ys, hl⟩ := append_of_mem hid
    have hinsert : r.edit (.insertBefore place operation) =
        (r.insertBetween b xs.getLast? (place :: ys).head? operation).2 := by
      rw [edit, insertBefore, h.linked.block_eq b place hid, h.linked.prev_eq b xs place ys hl]
      rfl
    rw [hinsert, Ledger.edit, h.map_supplant hl]
    exact .insert operation (Ledger.lt_length hid) hl
  | insertAfter place operation =>
    obtain ⟨b, hid⟩ := Ledger.mem_flatten.1 ha
    obtain ⟨xs, ys, hl⟩ := append_of_mem hid
    have hinsert : r.edit (.insertAfter place operation) =
        (r.insertBetween b (xs ++ [place]).getLast? ys.head? operation).2 := by
      rw [edit, insertAfter, h.linked.block_eq b place hid, h.linked.next_eq b xs place ys hl, getLast?_concat]
    have hlists : xs ++ ([place, l.ops.length] ++ ys) = xs ++ [place] ++ l.ops.length :: ys := by simp
    rw [hinsert, Ledger.edit, h.map_supplant hl, hlists]
    exact .insert operation (Ledger.lt_length hid) (hl.trans (append_cons ..))
  | remove id =>
    by_cases hid : ∃ b, id ∈ l.block b
    · obtain ⟨b, hid⟩ := hid
      obtain ⟨xs, ys, hl⟩ := append_of_mem hid
      rw [Ledger.edit, h.map_supplant hl]
      exact .remove hl
    · have hrem : r.isRemoved id := by
        rw [← Bool.not_eq_false]
        exact fun hlive => hid (h.listed id ha hlive)
      have hsame : l.lists.map (Ledger.supplant id []) = l.lists := by
        rw [map_congr_left (g := fun ids => ids), map_id']
        intro ids hids
        exact Ledger.supplant_of_not_mem fun hmem => hid (Ledger.mem_flatten.1 (mem_flatten.2 ⟨ids, hids, hmem⟩))
      rw [edit, remove, if_pos hrem, Ledger.edit, hsame]
      exact .idle

theorem block_set (hb : b < l.lists.length) (ids : List OpId) (ops : List Operation) :
    Ledger.block ⟨l.lists.set b ids, ops⟩ = Function.update l.block b ids := by
  funext c
  by_cases hc : c = b
  · subst hc
    simp [Ledger.block, hb]
  · simp [Ledger.block, hc, Ne.symm hc]

theorem block_concat : Ledger.block { l with lists := l.lists ++ [[]] } = l.block := by
  funext c
  obtain hc | hc | hc := Nat.lt_trichotomy c l.lists.length
  · simp [Ledger.block, getElem?_append_left hc]
  · simp [Ledger.block, hc]
  · have hlen : (l.lists ++ [[]]).length ≤ c := by
      rw [length_append]
      exact hc
    rw [Ledger.block, Ledger.block, getElem?_eq_none hlen, getElem?_eq_none (Nat.le_of_lt hc)]

theorem Step.tallies (hs : r.Step l r' l') (h : r.Tallies l) : r'.Tallies l' := by
  cases hs with
  | idle => exact h
  | addBlock =>
    have hsize : r.addBlock.2.blocks.size = l.lists.length + 1 := by rw [← h.blocks_size]; exact Array.size_push ..
    refine ⟨h.nodes_size, by simp [hsize], ?_, by rw [block_concat]; exact h.listed, h.op_eq⟩
    rw [block_concat]
    exact h.linked.congr rfl (fun _ => rfl) (fun c => congrArg _ (block_addBlock r c)) fun c =>
      congrArg _ (block_addBlock r c)
  | @insert b xs ys operation hb hl =>
    have hnode := node_insertBetween r b xs.getLast? ys.head? operation (h.linked.getLast?_lt hl) (h.linked.head?_lt hl)
    have hlink := h.linked.insertBetween operation (by rw [h.blocks_size]; exact hb) hl
    rw [← block_set hb _ (l.ops ++ [operation]), h.nodes_size] at hlink
    refine ⟨by simp [h.nodes_size], by simp [h.blocks_size], hlink, fun j hj hlive => ?_, fun j hj => ?_⟩
    · simp only [block_set hb, Linked.mem_update]
      by_cases hnew : j = l.ops.length
      · exact ⟨b, by simp [hnew]⟩
      · rw [isRemoved, hnode, h.nodes_size, if_neg hnew] at hlive
        obtain ⟨c, hc⟩ := h.listed j (by simp at hj; omega) hlive
        refine ⟨c, ?_⟩
        split
        · next hcb =>
          subst hcb
          rw [hl, mem_append] at hc
          simp only [mem_append, mem_cons]
          tauto
        · exact hc
    · rw [op, hnode, h.nodes_size]
      by_cases hnew : j = l.ops.length
      · simp [hnew]
      · have hj : j < l.ops.length := by simp at hj; omega
        rw [if_neg hnew, getElem?_append_left hj]
        exact h.op_eq j hj
  | @remove b xs ys id hl =>
    have hb : b < l.lists.length := Ledger.lt_length_of_eq hl
    have hlink := h.linked.remove hl (by rw [h.blocks_size]; exact hb)
    refine ⟨?_, ?_, by rwa [block_set hb], fun j hj hlive => ?_, fun j hj => ?_⟩
    · rw [nodes_size_remove, h.nodes_size]
    · rw [blocks_size_remove, h.blocks_size, length_set]
    · rw [isRemoved, node_remove h.linked hl] at hlive
      by_cases hjd : j = id
      · simp [hjd] at hlive
      · obtain ⟨c, hc⟩ := h.listed j hj (by simpa [hjd] using hlive)
        refine ⟨c, ?_⟩
        rw [block_set hb, Linked.mem_update]
        split
        · next hcb =>
          subst hcb
          simpa [hl, hjd] using hc
        · exact hc
    · rw [op_remove h.linked hl]
      exact h.op_eq j hj

/-- Operations are handed ids in turn and stay behind them; no other id comes onto a list. -/
theorem Step.grows (hs : r.Step l r' l') :
    l.ops <+: l'.ops ∧ ∀ id < l.ops.length, ∀ c, id ∈ l'.block c → id ∈ l.block c := by
  cases hs with
  | idle => exact ⟨prefix_rfl, fun _ _ _ h => h⟩
  | addBlock => exact ⟨prefix_rfl, fun _ _ _ h => block_concat ▸ h⟩
  | @insert b xs ys operation hb hl =>
    refine ⟨prefix_append .., fun id hid c hmem => ?_⟩
    rw [block_set hb, Linked.mem_update] at hmem
    split at hmem
    · next hc =>
      subst hc
      rw [hl]
      simpa [Nat.ne_of_lt hid] using hmem
    · exact hmem
  | @remove b xs ys id hl =>
    refine ⟨prefix_rfl, fun _ _ c hmem => ?_⟩
    rw [block_set (Ledger.lt_length_of_eq hl), Linked.mem_update] at hmem
    split at hmem
    · next hc =>
      subst hc
      rw [hl]
      simp only [mem_append, mem_cons] at hmem ⊢
      tauto
    · exact hmem

theorem Tallies.foldl (h : r.Tallies l) (ha : l.AllowsAll edits) :
    (edits.foldl edit r).Tallies (edits.foldl Ledger.edit l) ∧ l.ops <+: (edits.foldl Ledger.edit l).ops ∧
      ∀ id < l.ops.length, ∀ c, id ∈ (edits.foldl Ledger.edit l).block c → id ∈ l.block c := by
  induction edits generalizing r l with
  | nil => exact ⟨h, prefix_rfl, fun _ _ _ h => h⟩
  | cons e edits ih =>
    have hs := h.step ha.1
    obtain ⟨hops, hold⟩ := hs.grows
    obtain ⟨htallies, hops', hold'⟩ := ih (hs.tallies h) ha.2
    refine ⟨htallies, hops.trans hops', fun id hid c hmem => hold id hid c (hold' id ?_ c hmem)⟩
    exact Nat.lt_of_lt_of_le hid hops.length_le

/-- All that can be asked about the operations of a routine, answered by its ledger, and the
numbers that are handed out next. -/
structure Agrees (r : Routine) (l : Ledger) : Prop where
  blockOps_eq : ∀ b, r.blockOps b = l.block b
  allOps_eq : r.allOps = (range l.lists.length).flatMap fun b => (l.block b).map fun id => (b, id)
  first_eq : ∀ b, r.first b = (l.block b).head?
  last_eq : ∀ b, r.last b = (l.block b).getLast?
  next_eq : ∀ b xs id ys, l.block b = xs ++ id :: ys → r.next id = ys.head?
  prev_eq : ∀ b xs id ys, l.block b = xs ++ id :: ys → r.prev id = xs.getLast?
  blockOf_eq : ∀ b, ∀ id ∈ l.block b, r.blockOf id = b
  isRemoved_iff : ∀ id < l.ops.length, r.isRemoved id ↔ id ∉ l.lists.flatten
  liveCount_eq : r.liveCount = l.lists.flatten.length
  op_eq : ∀ id < l.ops.length, l.ops[id]? = some (r.op id)
  addBlock_eq : r.addBlock.1 = l.lists.length
  push_eq : ∀ b operation, (r.push b operation).1 = l.ops.length
  insert_eq : ∀ place operation,
    (r.insertBefore place operation).1 = l.ops.length ∧ (r.insertAfter place operation).1 = l.ops.length

namespace Tallies

variable (h : r.Tallies l)
include h

theorem isRemoved_iff (hid : id < l.ops.length) : r.isRemoved id ↔ id ∉ l.lists.flatten := by
  rw [Ledger.mem_flatten]
  constructor
  · rintro hrem ⟨b, hb⟩
    simp [h.linked.live b id hb] at hrem
  · intro hid'
    rw [← Bool.not_eq_false]
    exact fun hlive => hid' (h.listed id hid hlive)

theorem nodup_flatten : l.lists.flatten.Nodup := by
  have hblk : ∀ c (hc : c < l.lists.length), l.block c = l.lists[c] := fun c hc => by simp [Ledger.block, hc]
  refine List.nodup_flatten.2 ⟨fun _ hids => ?_, List.pairwise_iff_getElem.2 fun c _ hc hd hcd _ hid hid' => ?_⟩
  · obtain ⟨c, hc, rfl⟩ := List.getElem_of_mem hids
    exact hblk c hc ▸ h.linked.nodup c
  · rw [← hblk _ hc] at hid
    rw [← hblk _ hd] at hid'
    exact Nat.ne_of_lt hcd (h.linked.unique hid hid')

theorem liveCount_eq : r.liveCount = l.lists.flatten.length := by
  have hnodes : r.nodes.toList = (range r.nodes.size).map r.node := by
    refine ext_getElem (by simp) fun _ hi _ => ?_
    rw [Array.length_toList] at hi
    simp [node, hi]
  rw [liveCount, hnodes, countP_map, countP_eq_length_filter]
  refine Perm.length_eq ((perm_ext_iff_of_nodup (nodup_range.filter _) h.nodup_flatten).2 fun id => ?_)
  rw [mem_filter, mem_range, h.nodes_size]
  constructor
  · rintro ⟨hid, hlive⟩
    exact Ledger.mem_flatten.2 (h.listed id hid (by simpa [isRemoved] using hlive))
  · intro hid
    obtain ⟨b, hb⟩ := Ledger.mem_flatten.1 hid
    exact ⟨h.nodes_size ▸ h.linked.lt b id hb, by simpa [isRemoved] using h.linked.live b id hb⟩

theorem agrees : r.Agrees l where
  blockOps_eq := h.linked.blockOps_eq
  allOps_eq := by
    rw [allOps, h.blocks_size]
    exact congrArg (flatMap · _) (funext fun _ => by rw [h.linked.blockOps_eq])
  first_eq := h.linked.first_eq
  last_eq := h.linked.last_eq
  next_eq := h.linked.next_eq
  prev_eq := h.linked.prev_eq
  blockOf_eq := h.linked.block_eq
  isRemoved_iff _ hid := h.isRemoved_iff hid
  liveCount_eq := h.liveCount_eq
  op_eq := h.op_eq
  addBlock_eq := h.blocks_size
  push_eq _ _ := h.nodes_size
  insert_eq _ _ := ⟨h.nodes_size, h.nodes_size⟩

theorem next_remove (hid : id < l.ops.length) : (r.remove id).next id = r.next id := by
  cases hrem : r.isRemoved id with
  | true => rw [remove, if_pos hrem]
  | false =>
    obtain ⟨b, hb⟩ := h.listed id hid hrem
    obtain ⟨xs, ys, hl⟩ := append_of_mem hb
    have hnd : (xs ++ id :: ys).Nodup := hl ▸ h.linked.nodup b
    rw [Routine.next_remove h.linked hl, if_neg]
    intro hlast
    exact (nodup_append.1 hnd).2.2 id (mem_of_getLast? hlast) id (mem_cons_self ..) rfl

end Tallies

/-- An empty routine agrees with its ledger after any edits. Whatever edits follow, operations
stay behind their ids, and an id that was removed remains so and on no list; what is
taken out still leads to its successor. -/
theorem agrees_foldl_edit (ids : Ids) (edits : List Edit) (h : Ledger.AllowsAll {} edits) :
    let r := edits.foldl edit { ids }
    let l := edits.foldl Ledger.edit {}
    r.Agrees l ∧ ∀ id < l.ops.length, (r.remove id).next id = r.next id ∧ ∀ later, l.AllowsAll later →
        (later.foldl edit r).op id = r.op id ∧ (r.isRemoved id = true →
          (later.foldl edit r).isRemoved id = true ∧ ∀ b, id ∉ (later.foldl edit r).blockOps b) := by
  intro r l
  have htallies : r.Tallies l := ((tallies_empty ids).foldl h).1
  refine ⟨htallies.agrees, fun id hid => ⟨htallies.next_remove hid, fun later hlater => ?_⟩⟩
  obtain ⟨htallies', ⟨ops, hops⟩, hold⟩ := htallies.foldl hlater
  have hid' : id < (later.foldl Ledger.edit l).ops.length := by rw [← hops, List.length_append]; omega
  refine ⟨?_, fun hremoved => ?_⟩
  · have hop := htallies'.op_eq id hid'
    rw [← hops, List.getElem?_append_left hid, htallies.op_eq id hid] at hop
    exact (Option.some.inj hop).symm
  · have hnone : ∀ b, id ∉ (later.foldl Ledger.edit l).block b := fun b hb =>
      (htallies.isRemoved_iff hid).1 hremoved (Ledger.mem_flatten.2 ⟨b, hold id hid b hb⟩)
    refine ⟨(htallies'.isRemoved_iff hid').2 fun hmem => ?_, fun b => ?_⟩
    · obtain ⟨b, hb⟩ := Ledger.mem_flatten.1 hmem
      exact hnone b hb
    · rw [htallies'.linked.blockOps_eq]
      exact hnone b

/-- Operations are put around one that is then removed twice; its id is not handed out again. -/
theorem agrees_foldl_edit_around :
    let op : Operation := { inst := .emitVertex, dest := none, sources := [] }
    let edits := [.addBlock, .addBlock, .push 1 op, .insertBefore 0 op, .insertAfter 0 op, .remove 0, .push 0 op,
      .remove 0]
    Ledger.AllowsAll {} edits ∧ (edits.foldl Ledger.edit {}).lists = [[3], [1, 2]] ∧
      (edits.foldl edit { ids := {} }).Agrees (edits.foldl Ledger.edit {}) := by
  intro op edits
  have h : Ledger.AllowsAll {} edits := by
    simp [edits, Ledger.AllowsAll, Ledger.Allows, Ledger.edit, Ledger.supplant]
  exact ⟨h, rfl, (agrees_foldl_edit {} edits h).1⟩

end Routine
end ShaderRecompiler
