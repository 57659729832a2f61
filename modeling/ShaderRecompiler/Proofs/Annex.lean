import ShaderRecompiler.Proofs.Rewriting
import ShaderRecompiler.Proofs.Routing

/-! What routing builds on. The blocks that were there keep their operations, under
the same ids; the blocks behind them hold tests and jumps, and what those write has
not been handed out before. -/
namespace ShaderRecompiler

open List Nat

variable {op : Operation}

/-- A temporary or variable that was handed out; of other operands nothing is asked. -/
def Operand.HandedOut (ids : Ids) : Operand → Prop
  | temp t => t < ids.temps
  | var v => v < ids.vars
  | _ => True

instance Operand.decidableHandedOut (ids : Ids) : (o : Operand) → Decidable (o.HandedOut ids)
  | temp t => inferInstanceAs (Decidable (t < ids.temps))
  | var v => inferInstanceAs (Decidable (v < ids.vars))
  | constant _ | constantBuffer _ _ | register _ | predicate _ | label _ | undefined => isTrue trivial

def Operation.HandedOut (ids : Ids) (op : Operation) : Prop := ∀ o ∈ op.operands, o.HandedOut ids

instance Operation.decidableHandedOut (ids : Ids) (op : Operation) : Decidable (op.HandedOut ids) :=
  inferInstanceAs (Decidable (∀ o ∈ op.operands, o.HandedOut ids))

/-- Decides where control goes on, and writes only what `ids` has not handed out. -/
def Operation.Selects (ids : Ids) (op : Operation) : Prop :=
  op.Dispatches ∧ ∀ o ∈ op.dest, ¬o.HandedOut ids

theorem Operation.Selects.mono (h : op.Selects hi)
    (htmps : lo.temps ≤ hi.temps) (hvars : lo.vars ≤ hi.vars) : op.Selects lo := by
  refine ⟨h.1, fun o ho hlo => h.2 o ho ?_⟩
  cases o with
  | temp t => exact lt_of_lt_of_le hlo htmps
  | var v => exact lt_of_lt_of_le hlo hvars
  | _ => trivial

namespace Routine

variable {r r' : Routine}

/-- `r'` is `r` with blocks built on behind its own. -/
structure Annex (lo : Ids) (r r' : Routine) : Prop where
  temps_le : r.ids.temps ≤ r'.ids.temps
  vars_le : r.ids.vars ≤ r'.ids.vars
  blocks_le : r.blocks.size ≤ r'.blocks.size
  /-- No new block is empty. -/
  nodes_le : r.nodes.size + (r'.blocks.size - r.blocks.size) ≤ r'.nodes.size
  op_eq : ∀ id < r.nodes.size, r'.op id = r.op id
  blockOps_eq : ∀ b < r.blocks.size, r'.blockOps b = r.blockOps b
  le_id : ∀ b, r.blocks.size ≤ b → ∀ id ∈ r'.blockOps b, r.nodes.size ≤ id
  selects : ∀ id, r.nodes.size ≤ id → id < r'.nodes.size → (r'.op id).Selects lo

namespace Annex

theorem of_nodes_eq (h : r.WellLinked) (hnodes : r'.nodes = r.nodes) (hfst : ∀ b, r'.first b = r.first b)
    (hsize : r'.blocks.size = r.blocks.size) (htmps : r.ids.temps ≤ r'.ids.temps)
    (hvars : r.ids.vars ≤ r'.ids.vars) : Annex lo r r' where
  temps_le := htmps
  vars_le := hvars
  blocks_le := le_of_eq hsize.symm
  nodes_le := by rw [hnodes, hsize]; omega
  op_eq id _ := by simp [op, node, hnodes]
  blockOps_eq b _ := by rw [blockOps_congr hnodes hfst]
  le_id b hb := by simp [blockOps_congr hnodes hfst, blockOps_of_size_le h hb]
  selects id hid hlt := absurd hlt (by rw [hnodes]; exact not_lt.2 hid)

theorem refl (h : r.WellLinked) : Annex lo r r :=
  of_nodes_eq h rfl (fun _ => rfl) rfl (le_refl _) (le_refl _)

theorem trans (h : Annex lo r r') (h' : Annex lo r' r'') : Annex lo r r'' := by
  have hblks := h.blocks_le
  have hblks' := h'.blocks_le
  have hnodes := h.nodes_le
  have hnodes' := h'.nodes_le
  refine
    { temps_le := Nat.le_trans h.temps_le h'.temps_le
      vars_le := Nat.le_trans h.vars_le h'.vars_le
      blocks_le := Nat.le_trans hblks hblks'
      nodes_le := by omega
      op_eq := fun id hid => ?_
      blockOps_eq := fun b hb => ?_
      le_id := fun b hb id hid => ?_
      selects := fun id hid hlt => ?_ }
  · rw [h'.op_eq id (by omega), h.op_eq id hid]
  · rw [h'.blockOps_eq b (by omega), h.blockOps_eq b hb]
  · by_cases hold : b < r'.blocks.size
    · rw [h'.blockOps_eq b hold] at hid
      exact h.le_id b hb id hid
    · exact Nat.le_trans (by omega) (h'.le_id b (Nat.le_of_not_lt hold) id hid)
  · by_cases hold : id < r'.nodes.size
    · rw [h'.op_eq id hold]
      exact h.selects id hid hold
    · exact h'.selects id (Nat.le_of_not_lt hold) hlt

theorem mono (h : Annex hi r r') (htmps : lo.temps ≤ hi.temps) (hvars : lo.vars ≤ hi.vars) :
    Annex lo r r' :=
  { h with selects := fun id hid hlt => (h.selects id hid hlt).mono htmps hvars }

theorem selects_code (h : Annex lo r r') (hlink : r'.WellLinked) (hb : r.blocks.size ≤ b)
    (hop : op ∈ r'.code b) : op.Selects lo := by
  obtain ⟨id, hid, rfl⟩ := mem_map.1 hop
  exact h.selects id (h.le_id b hb id hid) (hlink.lt b id hid)

end Annex

/-- What appending to a block does to the arena. -/
theorem WellLinked.arena_appendOps (h : r.WellLinked) (hb : b < r.blocks.size) (ops : List Operation) :
    (r.appendOps b ops).nodes.size = r.nodes.size + ops.length ∧
      (∀ id < r.nodes.size, (r.appendOps b ops).op id = r.op id) ∧
      (∀ c ≠ b, (r.appendOps b ops).blockOps c = r.blockOps c) ∧
      (∀ id ∈ (r.appendOps b ops).blockOps b, id ∈ r.blockOps b ∨ r.nodes.size ≤ id) ∧
      ∀ id, r.nodes.size ≤ id → id < r.nodes.size + ops.length → (r.appendOps b ops).op id ∈ ops := by
  induction ops generalizing r with
  | nil =>
    refine ⟨rfl, fun _ _ => rfl, fun _ _ => rfl, fun id hid => .inl hid, fun id hid hlt => ?_⟩
    simp only [length_nil] at hlt
    omega
  | cons op ops ih =>
    have hlink := h.push hb op
    obtain ⟨hnodes, hop, hother, hown, hnew⟩ := ih hlink (by rwa [blocks_size_push])
    have hsize : (r.push b op).2.nodes.size = r.nodes.size + 1 := by
      rw [h.push_eq]
      exact nodes_size_insertBetween ..
    have hpushed : ∀ id, (r.push b op).2.op id = if id = r.nodes.size then op else r.op id := by
      intro id
      rw [h.push_eq]
      exact h.op_insertBetween (by simp) op id
    have hlists : (r.push b op).2.blockOps = Function.update r.blockOps b (r.blockOps b ++ [r.nodes.size]) := by
      rw [h.push_eq]
      exact h.blockOps_insertBetween hb (by simp) op
    rw [hsize] at hnodes hop hown hnew
    rw [appendOps_cons, length_cons]
    refine ⟨by omega, fun id hid => ?_, fun c hc => ?_, fun id hid => ?_, fun id hid hlt => ?_⟩
    · rw [hop id (by omega), hpushed, if_neg (Nat.ne_of_lt hid)]
    · rw [hother c hc, hlists, Function.update_of_ne hc]
    · rcases hown id hid with hmem | hge
      · rw [hlists, Function.update_self, mem_append, mem_singleton] at hmem
        exact hmem.imp_right fun heq => le_of_eq heq.symm
      · exact .inr (by omega)
    · by_cases hid' : id = r.nodes.size
      · rw [hop id (by omega), hpushed, if_pos hid']
        exact mem_cons_self
      · exact mem_cons_of_mem _ (hnew id (by omega) (by omega))

/-- A block that is built on. Its operations may write what is handed out with it. -/
theorem annex_addFilledBlock (h : r.WellLinked) (ids : Ids) (htmps : r.ids.temps ≤ ids.temps)
    (hvars : r.ids.vars ≤ ids.vars) (hne : ops ≠ []) (hops : ∀ op ∈ ops, op.Selects lo) (next branch : Option Nat) :
    Annex lo r ({ r with ids }.addFilledBlock ops next branch) := by
  let base : Routine := { r with ids }
  have hbase : base.WellLinked := h.congr rfl (fun _ => rfl) fun _ => rfl
  have hlists : base.addBlock.2.blockOps = r.blockOps :=
    blockOps_congr rfl fun b => by
      change (base.addBlock.2.block b).first = _
      rw [block_addBlock]
      rfl
  obtain ⟨hnodes, hop, hother, hown, hnew⟩ :=
    hbase.addBlock.arena_appendOps (b := r.blocks.size) (by rw [blocks_size_addBlock]; exact lt_succ_self _) ops
  have hfilled : (base.addFilledBlock ops next branch).blockOps =
      (base.addBlock.2.appendOps r.blocks.size ops).blockOps :=
    blockOps_congr rfl (first_modify_edges next branch _ _)
  have hids : (base.addFilledBlock ops next branch).ids = ids := ids_addFilledBlock ..
  have hpos := length_pos_iff.2 hne
  have hsize : (base.addFilledBlock ops next branch).nodes.size = r.nodes.size + ops.length := hnodes
  have hemp : r.blockOps r.blocks.size = [] := blockOps_of_size_le h (le_refl _)
  refine
    { temps_le := by rw [hids]; exact htmps
      vars_le := by rw [hids]; exact hvars
      blocks_le := by rw [blocks_size_addFilledBlock]; exact le_succ _
      nodes_le := by
        rw [blocks_size_addFilledBlock, hsize]
        change r.nodes.size + (r.blocks.size + 1 - r.blocks.size) ≤ _
        omega
      op_eq := hop
      blockOps_eq := fun b hb => ?_
      le_id := fun b hb id hid => ?_
      selects := fun id hid hlt => hops _ (hnew id hid (hsize ▸ hlt)) }
  · rw [hfilled, hother b (Nat.ne_of_lt hb), hlists]
  · rw [hfilled] at hid
    by_cases hbsize : b = r.blocks.size
    · subst hbsize
      rcases hown id hid with hmem | hge
      · rw [hlists, hemp] at hmem
        cases hmem
      · exact hge
    · rw [hother b hbsize, hlists, blockOps_of_size_le h hb] at hid
      cases hid

theorem annex_addDispatch (h : r.WellLinked) (hlo : lo.temps ≤ r.ids.temps) (selector index target next : Nat) :
    Annex lo r (r.addDispatch (.var selector) index target next) := by
  refine annex_addFilledBlock h ⟨r.ids.temps + 1, r.ids.labels + 1, r.ids.vars⟩ (le_succ _) (le_refl _)
    (cons_ne_nil _ _) (forall_mem_cons.2 ⟨⟨.compare .., fun _ ho => ?_⟩,
      forall_mem_singleton.2 ⟨.branchIfTrue .., by simp⟩⟩) _ _
  obtain rfl := Option.some.inj ho
  exact not_lt.2 hlo

theorem annex_addLanding (h : r.WellLinked) (hlo : lo.vars ≤ selector) (index dispatch : Nat) :
    Annex lo r (r.addLanding (.var selector) index dispatch) := by
  refine annex_addFilledBlock h ⟨r.ids.temps, r.ids.labels + 1, r.ids.vars⟩ (le_refl _) (le_refl _)
    (cons_ne_nil _ _) (forall_mem_cons.2 ⟨⟨.copy .., fun _ ho => ?_⟩,
      forall_mem_singleton.2 ⟨.branch .., by simp⟩⟩) _ _
  obtain rfl := Option.some.inj ho
  exact not_lt.2 hlo

theorem annex_redirect (h : r.WellLinked) (l : Loop) (target landing : Nat) :
    Annex lo r (r.redirect l target landing) := by
  refine .of_nodes_eq h rfl (fun _ => ?_) (blocks_size_redirect ..) (le_refl _) (le_refl _)
  unfold first
  rw [block_redirect]
  split <;> rfl

theorem annex_foldl {f : Routine → α → Routine} (lo : Ids)
    (hf : ∀ q x, q.WellLinked → lo.temps ≤ q.ids.temps → (f q x).WellLinked ∧ Annex lo q (f q x))
    (xs : List α) (h : r.WellLinked) (hlo : lo.temps ≤ r.ids.temps) :
    (xs.foldl f r).WellLinked ∧ Annex lo r (xs.foldl f r) := by
  induction xs generalizing r with
  | nil => exact ⟨h, .refl h⟩
  | cons x xs ih =>
    obtain ⟨hlink, hannex⟩ := hf r x h hlo
    obtain ⟨hlink', hannex'⟩ := ih hlink (le_trans hlo hannex.temps_le)
    exact ⟨hlink', hannex.trans hannex'⟩

theorem annex_addDispatches (h : r.WellLinked) (hlo : lo.temps ≤ r.ids.temps) (selector : Nat) (next : Nat → Nat)
    (tests : List (Nat × Nat)) :
    let routed := tests.foldl
      (fun r (target, index) => r.addDispatch (.var selector) index target (next index)) r
    routed.WellLinked ∧ Annex lo r routed :=
  annex_foldl lo
    (fun _ _ hq hlo => ⟨(views_addDispatch hq _ _ _ _).1, annex_addDispatch hq hlo _ _ _ _⟩) tests h hlo

theorem annex_addLandings (h : r.WellLinked) (hlo : lo.temps ≤ r.ids.temps)
    (hsel : lo.vars ≤ selector) (l : Loop) (dispatch base : Nat) (exits : List (Nat × Nat)) :
    Annex lo r (exits.foldl
      (fun r (target, index) => (r.addLanding (.var selector) index dispatch).redirect l target (base + index)) r) := by
  refine (annex_foldl lo (fun _ x hq _ => ?_) exits h hlo).2
  have hlanded := (views_addLanding hq (.var selector) x.2 dispatch).1
  exact ⟨hlanded.redirect .., (annex_addLanding hq hsel _ _).trans (annex_redirect hlanded ..)⟩

theorem annex_routeExits (h : r.WellLinked) (l : Loop) :
    Annex r.ids r (r.routeExits l).1 ∧ r.ids.vars < (r.routeExits l).1.ids.vars := by
  have hlink : r.freshVar.2.WellLinked := h.congr rfl (fun _ => rfl) fun _ => rfl
  have hsel : Annex r.ids r r.freshVar.2 :=
    .of_nodes_eq h rfl (fun _ => rfl) rfl (le_refl _) (le_succ _)
  obtain ⟨htested, htests⟩ :=
    annex_addDispatches hlink hsel.temps_le r.ids.vars (r.nextTest l) l.exits.dropLast.zipIdx
  have hlands := annex_addLandings htested (le_trans hsel.temps_le htests.temps_le)
    (le_refl r.ids.vars) l r.blocks.size (r.landingBase l) l.exits.zipIdx
  have hadd := htests.trans hlands
  exact ⟨hsel.trans hadd, hadd.vars_le⟩

end Routine
end ShaderRecompiler
