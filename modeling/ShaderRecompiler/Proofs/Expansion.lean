import ShaderRecompiler.Pass
import ShaderRecompiler.Proofs.Blocks
import ShaderRecompiler.Proofs.Editing

/-! Running an expansion over a routine. Each block becomes the concatenation, in
the old order, of what its operations expand to; nothing that was put in is
expanded again. -/
namespace ShaderRecompiler

open List DrawParameters Function

/-- What an operation expands to when `ids` have been handed out. -/
def Expansion.piece (expand : Expansion) (ids : Ids) (op : Operation) : List Operation :=
  let (verdict, emitter) := (expand op).run { ids }
  emitter.ops.toList ++ verdict.kept.toList

/-- `new` is the concatenation of the pieces of `old`. The temporaries below `floor` had
been handed out before. -/
inductive Expansion.Expands (expand : Expansion) (floor : Nat) : List Operation → List Operation → Prop
  | nil : Expands expand floor [] []
  | snoc {old new : List Operation} {op : Operation} (ids : Ids) (hids : floor ≤ ids.temps) :
      Expands expand floor old new → Expands expand floor (old ++ [op]) (new ++ expand.piece ids op)

theorem Expansion.Expands.exists_of_mem {expand : Expansion} (h : expand.Expands floor old new) (ho : o ∈ new) :
    ∃ op ∈ old, ∃ ids, floor ≤ ids.temps ∧ o ∈ expand.piece ids op := by
  induction h with
  | nil => cases ho
  | @snoc old new op ids hids _ ih =>
    obtain ho | ho := mem_append.1 ho
    · obtain ⟨op', hop', hpiece⟩ := ih ho
      exact ⟨op', mem_append_left _ hop', hpiece⟩
    · exact ⟨op, by simp, ids, hids, ho⟩

/-- The operation at `id` of a routine has become the operations at `new`: those put in have
new ids, and what is kept of it has its own. -/
def Expansion.Fills (expand : Expansion) (ids : Ids) (r₀ r : Routine) (id : OpId) (new : List OpId) : Prop :=
  new.map r.op = expand.piece ids (r₀.op id) ∧ ∃ put, (∀ j ∈ put, r₀.nodes.size ≤ j) ∧
    new = put ++ (((expand (r₀.op id)).run { ids }).1.kept.map fun _ => id).toList

/-- What stood at `old` has become, one operation after the other, what stands at `new`. -/
inductive Expansion.FillsAll (expand : Expansion) (floor : Nat) (r₀ r : Routine) : List OpId → List OpId → Prop
  | nil : FillsAll expand floor r₀ r [] []
  | snoc {old new added : List OpId} {id : OpId} (ids : Ids) (hids : floor ≤ ids.temps)
      (hadded : expand.Fills ids r₀ r id added) :
      FillsAll expand floor r₀ r old new → FillsAll expand floor r₀ r (old ++ [id]) (new ++ added)

/-- Temporaries below `floor` stay handed out. -/
def Expansion.Respects (expand : Expansion) (floor : Nat) : Prop :=
  ∀ op ids, floor ≤ ids.temps → floor ≤ ((expand op).run { ids }).2.ids.temps

namespace Expansion

variable {expand : Expansion} {id : OpId}

theorem Fills.of_le (h : expand.Fills ids r r' id new) (hop : r.op id = r₀.op id)
    (hsize : r₀.nodes.size ≤ r.nodes.size) : expand.Fills ids r₀ r' id new := by
  obtain ⟨hnew, put, hput, hids⟩ := h
  rw [hop] at hnew hids
  exact ⟨hnew, put, fun j hj => Nat.le_trans hsize (hput j hj), hids⟩

theorem FillsAll.congr (h : expand.FillsAll floor r₀ r old new) (hop : ∀ j ∈ new, r'.op j = r.op j) :
    expand.FillsAll floor r₀ r' old new := by
  induction h with
  | nil => exact .nil
  | @snoc old new added id ids hids hadded _ ih =>
    obtain ⟨hnew, hadd⟩ := forall_mem_append.1 hop
    exact (ih hnew).snoc ids hids ⟨(map_congr_left hadd).trans hadded.1, hadded.2⟩

theorem FillsAll.expands (h : expand.FillsAll floor r₀ r old new) :
    expand.Expands floor (old.map r₀.op) (new.map r.op) := by
  induction h with
  | nil => exact .nil
  | snoc ids hids hadd _ ih =>
    rw [map_append, map_append, hadd.1]
    exact ih.snoc ids hids

theorem FillsAll.of_nil (h : expand.FillsAll floor r₀ r [] new) : new = [] := by
  generalize hold : [] = old at h
  cases h with
  | nil => rfl
  | snoc => simp at hold

theorem respects_zero (expand : Expansion) : expand.Respects 0 := fun _ _ _ => Nat.zero_le _

end Expansion

namespace Routine

variable {r : Routine} {expand : Expansion} {b : Nat} {xs ys : List OpId} {id : OpId}

/-- An operation makes room for its piece; no other operation changes. The way on from it
leads to what followed. -/
theorem expandOp_spec (h : r.WellLinked) (hb : b < r.blocks.size) (hl : r.blockOps b = xs ++ id :: ys) :
    ∃ new, Edited r (r.expandOp expand id).2 b (xs ++ new ++ ys) ∧
      expand.Fills r.ids r (r.expandOp expand id).2 id new ∧ (r.expandOp expand id).2.next id = ys.head? ∧
      ∀ j < r.nodes.size, j ≠ id → (r.expandOp expand id).2.op j = r.op j := by
  unfold expandOp Expansion.Fills Expansion.piece
  generalize (expand (r.op id)).run { ids := r.ids } = result
  obtain ⟨verdict, emitter⟩ := result
  dsimp only
  have hids : ({ r with ids := emitter.ids } : Routine).WellLinked :=
    h.congr rfl (fun _ => rfl) fun _ => rfl
  have hlists : ({ r with ids := emitter.ids } : Routine).blockOps = r.blockOps :=
    blockOps_congr rfl fun _ => rfl
  rw [← Array.foldl_toList]
  obtain ⟨new, hedit, hnew, hfresh, hkeep⟩ :=
    hids.insertOps hb (by rw [hlists]; exact hl) emitter.ops.toList
  generalize emitter.ops.toList.foldl (fun r op => (r.insertBefore id op).2) { r with ids := emitter.ids } = grown at *
  have hgrown : grown.blockOps b = (xs ++ new) ++ id :: ys := by
    rw [hedit.blockOps_eq, update_self]
  have hflow : r.SameFlow grown := ⟨hedit.flow.blocks_size, hedit.flow.next_eq, hedit.flow.branch_eq⟩
  have hnd : (xs ++ new ++ id :: ys).Nodup := hgrown ▸ hedit.linked.nodup b
  have hid : id < grown.nodes.size := hedit.linked.lt b id (by simp [hgrown])
  cases hkept : verdict.kept with
  | some op =>
    have hop : ∀ j, (grown.setOp id op).op j = if id = j then op else grown.op j := by
      intro j
      unfold Routine.op
      rw [node_setOp]
      by_cases hj : id = j
      · rw [if_pos ⟨hj, hj ▸ hid⟩, if_pos hj]
      · rw [if_neg (fun h => hj h.1), if_neg hj]
    have hlink := Linked.setOp hedit.linked id op
    refine ⟨new ++ [id], ⟨hlink.wellLinked, ?_, ?_, ?_⟩, ⟨?_, new, hfresh, rfl⟩,
      hlink.next_eq b (xs ++ new) id ys hgrown, fun j hj hne => ?_⟩
    · exact ⟨hflow.blocks_size, hflow.next_eq, hflow.branch_eq⟩
    · rw [funext hlink.blockOps_eq, hedit.blockOps_eq, hlists]
      simp
    · unfold setOp
      rw [nodes_size_modifyNode]
      exact hedit.size_le
    · rw [map_append, map_singleton, hop, if_pos rfl]
      congr 1
      rw [← hnew]
      apply map_congr_left
      intro j hj
      rw [hop, if_neg]
      rintro rfl
      simp only [nodup_append, mem_append, mem_cons] at hnd
      exact hnd.2.2 id (.inr hj) id (.inl rfl) rfl
    · rw [hop, if_neg (Ne.symm hne)]
      exact hkeep j hj
  | none =>
    have hop := op_remove hedit.linked hgrown
    have hsize : b < grown.blocks.size := by rw [hflow.blocks_size]; exact hb
    have hlink := Linked.remove hedit.linked hgrown hsize
    have hnext : (grown.remove id).next id = ys.head? := by
      rw [next_remove hedit.linked hgrown, hedit.linked.next_eq b (xs ++ new) id ys hgrown, ite_self]
    refine ⟨new, ⟨hlink.wellLinked, hflow.trans (hedit.linked.sameFlow_remove hsize hgrown), ?_, ?_⟩,
      ⟨?_, new, hfresh, (append_nil _).symm⟩, hnext, fun j hj _ => ?_⟩
    · rw [funext hlink.blockOps_eq, hedit.blockOps_eq, hlists, update_idem]
    · rw [nodes_size_remove]
      exact hedit.size_le
    · rw [Option.toList_none, append_nil, ← hnew]
      exact map_congr_left fun j _ => hop j
    · rw [hop]
      exact hkeep j hj

theorem ids_insertBefore (r : Routine) (id : OpId) (op : Operation) : (r.insertBefore id op).2.ids = r.ids := by
  unfold insertBefore insertBetween linkForward linkBack
  cases r.prev id <;> rfl

theorem ids_remove (r : Routine) (id : OpId) : (r.remove id).ids = r.ids := by
  unfold remove linkForward linkBack
  split
  · rfl
  · cases r.prev id <;> cases r.next id <;> rfl

theorem ids_expandOp (r : Routine) (expand : Expansion) (id : OpId) :
    (r.expandOp expand id).2.ids = ((expand (r.op id)).run { ids := r.ids }).2.ids := by
  unfold expandOp
  generalize (expand (r.op id)).run { ids := r.ids } = result
  obtain ⟨verdict, emitter⟩ := result
  dsimp only
  have hgrown : ∀ (ops : List Operation) (r : Routine),
      (ops.foldl (fun r op => (r.insertBefore id op).2) r).ids = r.ids := by
    intro ops
    induction ops with
    | nil => exact fun _ => rfl
    | cons op ops ih => exact fun r => (ih _).trans (ids_insertBefore r id op)
  have hgrown := hgrown emitter.ops.toList { r with ids := emitter.ids }
  rw [← Array.foldl_toList]
  cases verdict.kept with
  | some op => exact hgrown
  | none => exact (ids_remove _ id).trans hgrown

/-- The ids of a block among those still to be visited. -/
def pending (todo : List (Nat × OpId)) (b : Nat) : List OpId :=
  (todo.filter fun x => decide (x.1 = b)).map Prod.snd

theorem pending_cons (todo : List (Nat × OpId)) (b c : Nat) (id : OpId) :
    pending ((b, id) :: todo) c = if b = c then id :: pending todo c else pending todo c := by
  unfold pending
  by_cases hc : b = c <;> simp [hc]

theorem pending_allOps (h : r.WellLinked) (b : Nat) : pending r.allOps b = r.blockOps b := by
  have hpending : ∀ n, pending ((range n).flatMap fun b => (r.blockOps b).map fun id => (b, id)) b =
      if b < n then r.blockOps b else [] := by
    intro n
    unfold pending
    induction n with
    | zero => rfl
    | succ n ih =>
      rw [range_succ, flatMap_append, filter_append, map_append, ih]
      by_cases hb : b = n
      · subst hb
        simp [filter_map, comp_def]
      · have hother : ((r.blockOps n).map fun id => (n, id)).filter (fun x => decide (x.1 = b)) = [] := by
          simp [Ne.symm hb]
        rw [flatMap_singleton, hother, map_nil, append_nil]
        by_cases hlt : b < n
        · rw [if_pos hlt, if_pos (by omega)]
        · rw [if_neg hlt, if_neg (by omega)]
  unfold allOps
  rw [hpending]
  split
  · rfl
  · next hb => exact (blockOps_of_size_le h (Nat.le_of_not_lt hb)).symm

/-- A routine on the way: in each block the operations before the pending ones
have been expanded. -/
structure Underway (expand : Expansion) (floor : Nat) (r₀ r : Routine) (todo : List (Nat × OpId)) : Prop where
  linked : r.WellLinked
  floor_le : floor ≤ r.ids.temps
  flow : r₀.SameFlow r
  size_le : r₀.nodes.size ≤ r.nodes.size
  bound : ∀ x ∈ todo, x.1 < r₀.blocks.size
  parts : ∀ b, ∃ done front, r₀.blockOps b = done ++ pending todo b ∧
    r.blockOps b = front ++ pending todo b ∧ expand.FillsAll floor r₀ r done front
  op_eq : ∀ b, ∀ id ∈ pending todo b, r.op id = r₀.op id

theorem Underway.start (h : r.WellLinked) (hfloor : floor ≤ r.ids.temps) : Underway expand floor r r r.allOps := by
  refine ⟨h, hfloor, .refl r, Nat.le_refl _, fun _ hx => ?_, fun b => ⟨[], [], ?_, ?_, .nil⟩, fun _ _ _ => rfl⟩
  · simp only [allOps, mem_flatMap, mem_range, mem_map] at hx
    obtain ⟨b, hb, _, _, rfl⟩ := hx
    exact hb
  · rw [pending_allOps h, nil_append]
  · rw [pending_allOps h, nil_append]

theorem Underway.step (hresp : expand.Respects floor) (u : Underway expand floor r₀ r ((b, id) :: todo)) :
    Underway expand floor r₀ (r.expandOp expand id).2 todo := by
  have hb₀ : b < r₀.blocks.size := u.bound _ (mem_cons_self ..)
  have hb : b < r.blocks.size := by rw [u.flow.blocks_size]; exact hb₀
  obtain ⟨done, front, hdone, hfront, hexps⟩ := u.parts b
  rw [pending_cons, if_pos rfl] at hdone hfront
  have hop : r.op id = r₀.op id := u.op_eq b id (by simp [pending_cons])
  obtain ⟨new, hedit, hnew, -, hkeep⟩ := @expandOp_spec r expand b _ _ id u.linked hb hfront
  have hfloor : floor ≤ (r.expandOp expand id).2.ids.temps := by
    rw [ids_expandOp]
    exact hresp _ _ u.floor_le
  generalize (r.expandOp expand id).2 = r' at *
  have hnd : (front ++ id :: pending todo b).Nodup := hfront ▸ u.linked.nodup b
  -- An id that stands elsewhere keeps its operation.
  have hold : ∀ c, ∀ j ∈ r.blockOps c, j ≠ id → r'.op j = r.op j := fun c j hj hne =>
    hkeep j (u.linked.lt c j hj) hne
  have hother : ∀ c, c ≠ b → ∀ j ∈ r.blockOps c, j ≠ id := by
    rintro c hc j hj rfl
    exact hc (Linked.unique u.linked hj (by simp [hfront]))
  refine ⟨hedit.linked, hfloor, u.flow.trans hedit.flow, Nat.le_trans u.size_le hedit.size_le,
    fun x hx => u.bound x (mem_cons_of_mem _ hx), fun c => ?_, fun c j hj => ?_⟩
  · by_cases hc : c = b
    · subst hc
      refine ⟨done ++ [id], front ++ new, by simp [hdone], ?_, ?_⟩
      · rw [hedit.blockOps_eq, update_self]
      · refine (hexps.congr fun j hj => hold c j (by simp [hfront, hj]) ?_).snoc r.ids u.floor_le
          (hnew.of_le hop u.size_le)
        rintro rfl
        simp only [nodup_append, mem_cons] at hnd
        exact hnd.2.2 _ hj _ (.inl rfl) rfl
    · obtain ⟨done', front', hdone', hfront', hexps'⟩ := u.parts c
      rw [pending_cons, if_neg (Ne.symm hc)] at hdone' hfront'
      refine ⟨done', front', hdone', ?_, ?_⟩
      · rw [hedit.blockOps_eq, update_of_ne hc]
        exact hfront'
      · refine hexps'.congr fun j hj => ?_
        have hj : j ∈ r.blockOps c := by simp [hfront', hj]
        exact hold c j hj (hother c hc j hj)
  · have hmem : j ∈ pending ((b, id) :: todo) c := by
      rw [pending_cons]
      split
      · exact mem_cons_of_mem _ hj
      · exact hj
    rw [← u.op_eq c j hmem]
    obtain ⟨_, front', -, hfront', -⟩ := u.parts c
    have hjr : j ∈ r.blockOps c := by rw [hfront']; exact mem_append_right _ hmem
    refine hold c j hjr ?_
    by_cases hc : c = b
    · subst hc
      rintro rfl
      simp only [nodup_append, nodup_cons] at hnd
      exact hnd.2.1.1 hj
    · exact hother c hc j hjr

/-- What the expansion of one of the operations reports. -/
def Reports (r : Routine) (expand : Expansion) (report : Unresolved) : Prop :=
  ∃ b, ∃ op ∈ r.code b, ∃ ids, ((expand op).run { ids }).1.unresolved = some report

def turn (expand : Expansion) (state : PassReport × Routine) (x : Nat × OpId) : PassReport × Routine :=
  (state.1.add (state.2.expandOp expand x.2).1, (state.2.expandOp expand x.2).2)

theorem mem_turn : report ∈ (turn expand state x).1.unresolved ↔ report ∈ state.1.unresolved ∨
      ((expand (state.2.op x.2)).run { ids := state.2.ids }).1.unresolved = some report := by
  simp only [turn, PassReport.add, mem_append, Option.mem_toList]
  exact Iff.rfl

theorem Underway.next_op (u : Underway expand floor r₀ r ((b, id) :: todo)) :
    r.op id = r₀.op id ∧ r₀.op id ∈ r₀.code b := by
  obtain ⟨done, -, hdone, -⟩ := u.parts b
  rw [pending_cons, if_pos rfl] at hdone
  exact ⟨u.op_eq b id (by simp [pending_cons]), mem_map_of_mem (by simp [hdone])⟩

theorem Underway.foldl (hresp : expand.Respects floor) {first : List (Nat × OpId)}
    (u : Underway expand floor r₀ state.2 (first ++ todo)) :
    Underway expand floor r₀ (first.foldl (turn expand) state).2 todo := by
  induction first generalizing state with
  | nil => exact u
  | cons x first ih => exact ih (u.step hresp)

/-- The calls that an expansion gets on its way through a block, each with the operation it
finds, until the way ends. -/
inductive Walk (expand : Expansion) (b : Nat) :
    PassReport × Routine → Option OpId → List (OpId × Operation) → PassReport × Routine → Prop
  | stop {state : PassReport × Routine} : Walk expand b state none [] state
  | call {state last : PassReport × Routine} {id : OpId} {calls : List (OpId × Operation)} :
      Walk expand b (turn expand state (b, id)) ((turn expand state (b, id)).2.next id) calls last →
        Walk expand b state (some id) ((id, state.2.op id) :: calls) last

/-- The calls on the way through one block after the other. -/
inductive Sweep (expand : Expansion) :
    PassReport × Routine → List Nat → List (OpId × Operation) → PassReport × Routine → Prop
  | stop {state : PassReport × Routine} : Sweep expand state [] [] state
  | block {state next last : PassReport × Routine} {b : Nat} {blocks : List Nat}
      {calls more : List (OpId × Operation)} :
      Walk expand b state (state.2.first b) calls next → Sweep expand next blocks more last →
        Sweep expand state (b :: blocks) (calls ++ more) last

theorem Walk.expandFrom_eq {last : PassReport × Routine}
    (h : Walk expand b state cursor calls last) (hfuel : calls.length ≤ fuel) :
    expandFrom expand fuel state cursor = last := by
  induction h generalizing fuel with
  | stop => cases fuel <;> rfl
  | call _ ih =>
    obtain ⟨fuel, rfl⟩ := Nat.exists_eq_add_one_of_ne_zero (Nat.ne_zero_of_lt hfuel)
    exact ih (Nat.le_of_succ_le_succ hfuel)

theorem pending_map_append (ys : List OpId) (todo : List (Nat × OpId)) (b : Nat) :
    pending (ys.map (fun id => (b, id)) ++ todo) b = ys ++ pending todo b := by
  simp [pending, filter_map, comp_def]

/-- Where nothing else of the block is pending, the way on leads through the rest of it. -/
theorem Underway.walk (hb : pending todo b = [])
    (u : Underway expand 0 r₀ state.2 (ys.map (fun id => (b, id)) ++ todo)) :
    Walk expand b state ys.head? (ys.map fun id => (id, r₀.op id))
      ((ys.map fun id => (b, id)).foldl (turn expand) state) := by
  induction ys generalizing state with
  | nil => exact .stop
  | cons id ys ih =>
    have u : Underway expand 0 r₀ state.2 ((b, id) :: (ys.map (fun id => (b, id)) ++ todo)) := u
    have hlt : b < state.2.blocks.size := by
      rw [u.flow.blocks_size]
      exact u.bound _ (mem_cons_self ..)
    obtain ⟨done, front, -, hfront, -⟩ := u.parts b
    rw [pending_cons, if_pos rfl, pending_map_append, hb, append_nil] at hfront
    obtain ⟨-, -, -, hnext, -⟩ := @expandOp_spec state.2 expand b _ _ id u.linked hlt hfront
    have hstep : Underway expand 0 r₀ (turn expand state (b, id)).2 (ys.map (fun id => (b, id)) ++ todo) :=
      u.step expand.respects_zero
    have hwalk := ih hstep
    rw [← hnext] at hwalk
    rw [map_cons, ← u.next_op.1]
    exact .call hwalk

theorem Underway.blockOps_eq (u : Underway expand floor r₀ r todo) (hb : pending todo b = r₀.blockOps b) :
    r.blockOps b = r₀.blockOps b := by
  obtain ⟨done, front, hdone, hfront, hfills⟩ := u.parts b
  rw [hb] at hdone hfront
  obtain rfl : done = [] := self_eq_append_left.1 hdone
  rw [hfront, hfills.of_nil, nil_append]

/-- Every block's operations are called in order, and the arena's size is enough for the way. -/
theorem Underway.sweep {blocks : List Nat} (hblks : blocks.Nodup)
    (htodo : todo = blocks.flatMap fun b => (r₀.blockOps b).map fun id => (b, id))
    (u : Underway expand 0 r₀ state.2 todo) :
    Sweep expand state blocks (todo.map fun x => (x.2, r₀.op x.2)) (todo.foldl (turn expand) state) ∧
      blocks.foldl (fun state b => expandFrom expand state.2.nodes.size state (state.2.first b)) state =
        todo.foldl (turn expand) state := by
  induction blocks generalizing state todo with
  | nil =>
    subst htodo
    exact ⟨.stop, rfl⟩
  | cons b blocks ih =>
    obtain ⟨hb, hblks⟩ := nodup_cons.1 hblks
    rw [flatMap_cons] at htodo
    generalize hrest : (blocks.flatMap fun b => (r₀.blockOps b).map fun id => (b, id)) = rest at htodo
    subst htodo
    have hpending : pending rest b = [] := by
      rw [← hrest, pending, filter_eq_nil_iff.2, map_nil]
      simp only [mem_flatMap, mem_map]
      rintro _ ⟨c, hc, _, _, rfl⟩
      simpa using fun hcb : c = b => hb (hcb ▸ hc)
    have hlist : state.2.blockOps b = r₀.blockOps b := u.blockOps_eq (by simp [pending_map_append, hpending])
    have hwalk := u.walk hpending
    rw [← hlist, ← u.linked.first_eq, hlist] at hwalk
    have hfuel : ((r₀.blockOps b).map fun id => (id, r₀.op id)).length ≤ state.2.nodes.size := by
      rw [length_map, ← hlist]
      exact Linked.length_le u.linked b
    obtain ⟨hsweep, hfold⟩ := ih hblks hrest.symm (u.foldl expand.respects_zero)
    rw [foldl_cons, hwalk.expandFrom_eq hfuel, hfold, foldl_append, map_append]
    refine ⟨?_, rfl⟩
    have hcalls : ((r₀.blockOps b).map fun id => (b, id)).map (fun x => (x.2, r₀.op x.2)) =
        (r₀.blockOps b).map fun id => (id, r₀.op id) := map_map
    rw [hcalls]
    exact .block hwalk hsweep

/-- An expansion is called on what stood in each block at the beginning, and on nothing else. -/
theorem sweep_expand (h : r.WellLinked) (expand : Expansion) :
    Sweep expand ({}, r) (range r.blocks.size) (r.allOps.map fun x => (x.2, r.op x.2)) (r.expand expand) ∧
      r.expand expand = r.allOps.foldl (turn expand) ({}, r) := by
  have hstart : Underway expand 0 r (({}, r) : PassReport × Routine).2 r.allOps := .start h (Nat.zero_le _)
  obtain ⟨hsweep, hfold⟩ := hstart.sweep nodup_range rfl
  rw [Routine.expand, hfold]
  exact ⟨hsweep, rfl⟩

theorem Underway.reports (hresp : expand.Respects floor) (u : Underway expand floor r₀ state.2 todo)
    (h : report ∈ (todo.foldl (turn expand) state).1.unresolved) :
    report ∈ state.1.unresolved ∨ r₀.Reports expand report := by
  induction todo generalizing state with
  | nil => exact .inl h
  | cons x todo ih =>
    obtain hrep | hlater := ih (u.step hresp) h
    · refine (mem_turn.1 hrep).imp_right fun hrep => ?_
      obtain ⟨hop, hmem⟩ := u.next_op
      rw [hop] at hrep
      exact ⟨x.1, _, hmem, _, hrep⟩
    · exact .inr hlater

theorem WellLinked.mem_live (h : r.WellLinked) {op : Operation} (hop : op ∈ r.code b) : op ∈ r.live := by
  obtain ⟨id, hid, rfl⟩ := mem_map.1 hop
  rw [← pending_allOps h b] at hid
  obtain ⟨x, hx, rfl⟩ := mem_map.1 hid
  rw [live_eq]
  exact mem_map_of_mem (mem_filter.1 hx).1

theorem underway_expand (h : r.WellLinked) (hfloor : floor ≤ r.ids.temps) (hresp : expand.Respects floor) :
    Underway expand floor r (r.expand expand).2 [] := by
  have hstart : Underway expand floor r (({}, r) : PassReport × Routine).2 (r.allOps ++ []) := by
    rw [append_nil]
    exact .start h hfloor
  rw [(sweep_expand h expand).2]
  exact hstart.foldl hresp

theorem Underway.fillsAll (u : Underway expand floor r₀ r []) (b : Nat) :
    expand.FillsAll floor r₀ r (r₀.blockOps b) (r.blockOps b) := by
  obtain ⟨done, front, hdone, hfront, hfills⟩ := u.parts b
  rw [show pending [] b = [] from rfl, append_nil] at hdone hfront
  rw [hdone, hfront]
  exact hfills

theorem expand_spec (h : r.WellLinked) (hfloor : floor ≤ r.ids.temps) (hresp : expand.Respects floor) :
    (r.expand expand).2.WellLinked ∧ floor ≤ (r.expand expand).2.ids.temps ∧ r.SameFlow (r.expand expand).2 ∧
      (∀ b, expand.Expands floor (r.code b) ((r.expand expand).2.code b)) ∧
      ∀ report ∈ (r.expand expand).1.unresolved, r.Reports expand report := by
  have hend := underway_expand h hfloor hresp
  refine ⟨hend.linked, hend.floor_le, hend.flow, fun b => (hend.fillsAll b).expands, fun report hrep => ?_⟩
  have hstart : Underway expand floor r (({}, r) : PassReport × Routine).2 r.allOps := .start h hfloor
  rw [(sweep_expand h expand).2] at hrep
  exact (hstart.reports hresp hrep).resolve_left (by simp)

end Routine

namespace Passed

variable {state : Passed} {pass : Pass}

theorem run_of_enabled (h : pass.isEnabled x.config.guestStage state.features) : state.run x pass =
      { routine := (state.routine.expand (pass.expansion x)).2
        features := state.features.union
          { drawParameters := (state.routine.expand (pass.expansion x)).1.drawParameters }
        unresolved := state.unresolved ++ (state.routine.expand (pass.expansion x)).1.unresolved } := if_pos h

theorem run_of_disabled (h : ¬pass.isEnabled x.config.guestStage state.features) : state.run x pass = state :=
  if_neg h

end Passed

/-! Which passes run. Emulation of a vertex stage runs after draw parameters were settled. -/

namespace Routine

variable {r : Routine}

theorem runPasses_vertex (hstg : x.config.guestStage = .vertex) (hemu : features.emulated) :
    (r.runPasses x features).routine = ((r.expand (expansion x)).2.expand (VertexEmulation.expansion x)).2 ∧
      (r.runPasses x features).unresolved = (r.expand (expansion x)).1.unresolved ++
        ((r.expand (expansion x)).2.expand (VertexEmulation.expansion x)).1.unresolved := by
  simp [runPasses, Pass.all, Passed.run, Pass.isEnabled, hstg, hemu, Features.union, Pass.expansion]

theorem runPasses_geometry (hstg : x.config.guestStage = .geometry) (hemu : features.emulated) :
    (r.runPasses x features).routine = (r.expand (GeometryEmulation.expansion x)).2 ∧
      (r.runPasses x features).unresolved = (r.expand (GeometryEmulation.expansion x)).1.unresolved := by
  simp [runPasses, Pass.all, Passed.run, Pass.isEnabled, hstg, hemu, Pass.expansion]

theorem runPasses_native (hstg : x.config.guestStage = .vertex) (hemu : features.emulated = false) :
    (r.runPasses x features).routine = (r.expand (expansion x)).2 ∧
      (r.runPasses x features).unresolved = (r.expand (expansion x)).1.unresolved := by
  simp [runPasses, Pass.all, Passed.run, Pass.isEnabled, hstg, hemu, Features.union, Pass.expansion]

theorem runPasses_disabled (hvtx : x.config.guestStage ≠ .vertex)
    (hgeo : x.config.guestStage = .geometry → features.emulated = false) :
    (r.runPasses x features).routine = r ∧ (r.runPasses x features).unresolved = [] := by
  have hgeo : ¬(x.config.guestStage = .geometry ∧ features.emulated) := fun h => by simp [hgeo h.1] at h
  simp [runPasses, Pass.all, Passed.run, Pass.isEnabled, hvtx, hgeo]

end Routine
end ShaderRecompiler
