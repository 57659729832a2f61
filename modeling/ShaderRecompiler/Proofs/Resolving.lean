import ShaderRecompiler.Proofs.Orderly
import ShaderRecompiler.Proofs.Replacement

/-! Passes keep temporaries in order: what stands in the place of an operation reads what
it read, and what stands behind finds what it assigned. -/
namespace ShaderRecompiler

open List Operation

variable {op : Operation}

/-- The expansion reads what the operation read and assigns what it assigned. -/
def Expansion.Reassigns (expand : Expansion) : Prop :=
  ∀ op : Operation, op.Computes → ∃ P, Resolves P op.sources op.assigned (expand op) Verdict.kept fun _ => True

theorem Expansion.Reassigns.assigning {expand : Expansion} (h : expand.Reassigns) (hop : op.Computes) (ids : Ids) :
    Assigning op.sources op.assigned ids.temps ((expand op).run { ids }).2.ids.temps (expand.piece ids op) := by
  obtain ⟨P, hresolves⟩ := h op hop
  obtain ⟨-, added, hadd, -, hassigning⟩ := hresolves { ids }
  have hpiece : expand.piece ids op = added ++ ((expand op).run { ids }).1.kept.toList := by
    change ((expand op).run { ids }).2.ops.toList ++ _ = _
    rw [hadd]
    rfl
  rw [hpiece]
  exact hassigning

theorem Pass.reassigns_expansion (x : PassContext) (pass : Pass) : (pass.expansion x).Reassigns := by
  have hdecides : ∀ {P op m}, Decides P (·.kept = some op) op m → op.Computes →
      ∃ P, Resolves P op.sources op.assigned m Verdict.kept fun _ => True :=
    fun h hop => ⟨_, (h.resolves (fun _ hkept => hkept) hop).mono fun _ _ => trivial⟩
  intro op
  cases pass with
  | drawParameters => exact fun hop => ⟨_, DrawParameters.resolves_expansion (B := .memories fun _ => True)
      (fun _ => trivial) hop⟩
  | vertexEmulation => exact hdecides (VertexEmulation.decides_expansion (B := .memories fun _ => True) x
      (fun _ _ => trivial) op)
  | geometryEmulation =>
    exact hdecides (GeometryEmulation.decides_expansion (B := .memories fun _ => True) x (fun _ _ => trivial)
      (fun _ => trivial) op)

namespace Routine

variable {r : Routine} {expand : Expansion} {b : Nat} {id : OpId} {xs ys : List OpId}

theorem SameFlow.graph_eq (h : r.SameFlow r') : r'.graph = r.graph := by
  unfold graph
  congr 1
  refine Array.ext (by simp [h.blocks_size]) fun i hi hi' => ?_
  rw [Array.size_map] at hi hi'
  have hnext := h.next_eq i
  have hbr := h.branch_eq i
  rw [block, block, Array.getD_eq_getD_getElem?, Array.getD_eq_getD_getElem?, Array.getElem?_eq_getElem hi,
    Array.getElem?_eq_getElem hi', Option.getD_some, Option.getD_some] at hnext hbr
  rw [Array.getElem_map, Array.getElem_map, Block.successors, Block.successors, hnext, hbr]

theorem code_expandOp (h : r.WellLinked) (hb : b < r.blocks.size) (hl : r.blockOps b = xs ++ id :: ys) (c : Nat) :
    (r.expandOp expand id).2.code c =
      if c = b then xs.map r.op ++ (expand.piece r.ids (r.op id) ++ ys.map r.op) else r.code c := by
  obtain ⟨new, hedit, hnew, -, hkeep⟩ := @expandOp_spec r expand b xs ys id h hb hl
  have hnd : (xs ++ id :: ys).Nodup := hl ▸ h.nodup b
  have hstays : ∀ c, ∀ j ∈ r.blockOps c, j ≠ id → (r.expandOp expand id).2.op j = r.op j :=
    fun c j hj hne => hkeep j (h.lt c j hj) hne
  rw [code, hedit.blockOps_eq]
  split
  · next hc =>
    subst hc
    have hmap : ∀ zs : List OpId, (∀ j ∈ zs, j ∈ xs ++ id :: ys ∧ j ≠ id) →
        zs.map (r.expandOp expand id).2.op = zs.map r.op :=
      fun zs hzs => map_congr_left fun j hj => hstays c j (hl ▸ (hzs j hj).1) (hzs j hj).2
    rw [Function.update_self, map_append, map_append, hnew.1, append_assoc]
    obtain ⟨-, hys, hdisj⟩ := nodup_append.1 hnd
    rw [hmap xs fun j hj => ⟨mem_append_left _ hj, hdisj j hj id mem_cons_self⟩,
      hmap ys fun j hj => ⟨mem_append_right _ (mem_cons_of_mem _ hj), fun heq => (nodup_cons.1 hys).1 (heq ▸ hj)⟩]
  · next hc =>
    rw [Function.update_of_ne hc]
    refine map_congr_left fun j hj => hstays c j hj ?_
    rintro rfl
    exact hc (Linked.unique h hj (by simp [hl]))

theorem perm_flatMap_range (hb : b < n) (hother : ∀ c, c ≠ b → g c = f c) (hat : (g b).Perm (f b ++ own)) :
    ((range n).flatMap g).Perm ((range n).flatMap f ++ own) := by
  induction n with
  | zero => exact absurd hb (Nat.not_lt_zero _)
  | succ n ih =>
    rw [range_succ, flatMap_append, flatMap_append, flatMap_singleton, flatMap_singleton]
    obtain hlt | rfl := Nat.lt_or_eq_of_le (Nat.le_of_lt_succ hb)
    · rw [hother n (Nat.ne_of_gt hlt)]
      refine ((ih hlt).append_right (f n)).trans ?_
      rw [append_assoc, append_assoc]
      exact perm_append_comm.append_left _
    · have hbef : (range b).flatMap g = (range b).flatMap f :=
        flatMap_congr fun c hc => hother c (Nat.ne_of_lt (mem_range.1 hc))
      rw [hbef, append_assoc]
      exact hat.append_left _

/-- A piece in the place of an operation reads what was there for the operation, and what
stands behind it still finds what the operation assigned. -/
theorem reads_splice {before after piece : List Operation} {first last : Nat} (known : Nat → Prop)
    (hold : ∀ front x rest, before ++ op :: after = front ++ x :: rest → ∀ t ∈ x.reads,
      t ∈ front.flatMap assigned ∨ known t)
    (hpiece : Assigning op.sources op.assigned first last piece) :
    ∀ front x rest, before ++ (piece ++ after) = front ++ x :: rest → ∀ t ∈ x.reads,
      t ∈ front.flatMap assigned ∨ known t := by
  intro front x rest hspl t ht
  obtain ⟨front, hrest, rfl⟩ | ⟨rest, rfl, -⟩ := Linked.append_cases hspl
  · rw [flatMap_append]
    obtain ⟨front, rfl, rfl⟩ | ⟨rest, rfl, -⟩ := Linked.append_cases hrest
    · obtain ⟨own, -, -, hperm⟩ := hpiece.temps
      refine (hold (before ++ op :: front) x rest (by simp) t ht).imp_left fun hmem => ?_
      simp only [flatMap_append, flatMap_cons, mem_append, hperm.mem_iff] at hmem ⊢
      tauto
    · obtain hsrc | hassigned := hpiece.reads front x rest rfl t ht
      · exact (hold before op after rfl t (mem_reads.2 hsrc)).imp_left (mem_append_left _)
      · exact .inl (mem_append_right _ hassigned)
  · exact hold front x (rest ++ op :: after) (by simp) t ht

section Step

variable (h : r.WellLinked) (hb : b < r.blocks.size) (hl : r.blockOps b = xs ++ id :: ys)
include hl

theorem code_eq_of_blockOps : r.code b = xs.map r.op ++ r.op id :: ys.map r.op := by
  rw [code, hl, map_append, map_cons]

include h hb

theorem sameFlow_expandOp : r.SameFlow (r.expandOp expand id).2 := by
  obtain ⟨new, hedit, -⟩ := @expandOp_spec r expand b xs ys id h hb hl
  exact hedit.flow

theorem perm_expandOp {own : List Nat}
    (hperm : ((expand.piece r.ids (r.op id)).flatMap assigned).Perm ((r.op id).assigned ++ own)) :
    ((r.expandOp expand id).2.live.flatMap assigned).Perm (r.live.flatMap assigned ++ own) := by
  rw [live, live, (sameFlow_expandOp h hb hl).blocks_size, flatMap_assoc, flatMap_assoc]
  refine perm_flatMap_range hb (fun _ hc => ?_) ?_
  · rw [code_expandOp h hb hl, if_neg hc]
  · rw [code_expandOp h hb hl, if_pos rfl, code_eq_of_blockOps hl, perm_iff_count]
    intro t
    have hcnt := hperm.count_eq t
    simp only [flatMap_append, flatMap_cons, count_append] at hcnt ⊢
    omega

theorem Orderly.expandOp (hr : r.Orderly) (hexp : expand.Reassigns) : (r.expandOp expand id).2.Orderly := by
  have hcode := code_eq_of_blockOps hl
  have hop : r.op id ∈ r.live := mem_live.2 ⟨b, hb, by simp [hcode]⟩
  have hassigning := hexp.assigning (hr.computes _ hop) r.ids
  rw [← ids_expandOp] at hassigning
  obtain ⟨own, hnd, hown, hperm⟩ := hassigning.temps
  have hlive := perm_expandOp h hb hl hperm
  have hflow := @sameFlow_expandOp r expand b id xs ys h hb hl
  have hkept : ∀ a t, t ∈ (r.code a).flatMap assigned → t ∈ ((r.expandOp expand id).2.code a).flatMap assigned := by
    intro a t ht
    rw [code_expandOp h hb hl]
    split
    · next ha =>
      rw [ha, hcode] at ht
      simp only [flatMap_append, flatMap_cons, mem_append, hperm.mem_iff] at ht ⊢
      tauto
    · exact ht
  refine ⟨hlive.nodup_iff.2 (nodup_append.2 ⟨hr.once, hnd, ?_⟩), fun t ht => ?_, fun x hx => ?_, ?_⟩
  · rintro t ht _ ht' rfl
    exact absurd (hr.below t ht) (Nat.not_lt.2 (hown t ht').1)
  · obtain ht | ht := mem_append.1 (hlive.mem_iff.1 ht)
    · exact Nat.lt_of_lt_of_le (hr.below t ht) hassigning.le
    · exact (hown t ht).2
  · obtain ⟨c, hc, hx⟩ := mem_live.1 hx
    rw [hflow.blocks_size] at hc
    rw [code_expandOp h hb hl] at hx
    split at hx
    · next hcb =>
      obtain hx | hx | hx : x ∈ xs.map r.op ∨ x ∈ expand.piece r.ids (r.op id) ∨ x ∈ ys.map r.op := by simpa using hx
      · exact hr.computes x (mem_live.2 ⟨b, hb, hcode ▸ mem_append_left _ hx⟩)
      · exact hassigning.computes x hx
      · exact hr.computes x (mem_live.2 ⟨b, hb, hcode ▸ mem_append_right _ (mem_cons_of_mem _ hx)⟩)
    · exact hr.computes x (mem_live.2 ⟨c, hc, hx⟩)
  · intro c hc before x after hspl t ht
    rw [hflow.blocks_size] at hc ⊢
    rw [hflow.graph_eq]
    have hold : t ∈ before.flatMap assigned ∨
        ∃ a < r.blocks.size, t ∈ (r.code a).flatMap assigned ∧ r.graph.Ties a c := by
      rw [code_expandOp h hb hl] at hspl
      split at hspl
      · next hcb =>
        subst hcb
        exact reads_splice _ (fun front x rest hspl => hr.reads c hc front x rest (hcode.trans hspl)) hassigning
          before x after hspl t ht
      · exact hr.reads c hc before x after hspl t ht
    refine hold.imp_right ?_
    rintro ⟨a, ha, hmem, hties⟩
    exact ⟨a, ha, hkept a t hmem, hties⟩

end Step

end Routine

variable {r : Routine}

theorem Routine.Orderly.expand {expand : Expansion} (hr : r.Orderly) (h : r.WellLinked) (hexp : expand.Reassigns) :
    (r.expand expand).2.Orderly := by
  have hfold : ∀ todo (state : PassReport × Routine), Underway expand 0 r state.2 todo → state.2.Orderly →
      (todo.foldl (turn expand) state).2.Orderly := by
    intro todo
    induction todo with
    | nil => exact fun _ _ hstate => hstate
    | cons x todo ih =>
      obtain ⟨b, id⟩ := x
      intro state hunderway hstate
      obtain ⟨done, front, -, hfront, -⟩ := hunderway.parts b
      rw [pending_cons, if_pos rfl] at hfront
      have hb : b < state.2.blocks.size := by
        rw [hunderway.flow.blocks_size]
        exact hunderway.bound _ mem_cons_self
      exact ih _ (hunderway.step expand.respects_zero) (expandOp hunderway.linked hb hfront hstate hexp)
  rw [(sweep_expand h expand).2]
  exact hfold r.allOps ({}, r) (.start h (Nat.zero_le _)) hr

theorem Routine.Orderly.runPasses (hr : r.Orderly) (h : r.WellLinked) (x : PassContext) (features : Features) :
    (r.runPasses x features).routine.Orderly ∧ (r.runPasses x features).routine.WellLinked ∧
      r.SameFlow (r.runPasses x features).routine := by
  have hfold : ∀ (passes : List Pass) (state : Passed), state.routine.Orderly → state.routine.WellLinked →
      (passes.foldl (Passed.run x) state).routine.Orderly ∧ (passes.foldl (Passed.run x) state).routine.WellLinked ∧
        state.routine.SameFlow (passes.foldl (Passed.run x) state).routine := by
    intro passes
    induction passes with
    | nil => exact fun _ hstate hlink => ⟨hstate, hlink, .refl _⟩
    | cons pass passes ih =>
      intro state hstate hlink
      rw [foldl_cons]
      by_cases henabled : pass.isEnabled x.config.guestStage state.features
      · have hrun : (state.run x pass).routine = (state.routine.expand (pass.expansion x)).2 :=
          congrArg Passed.routine (Passed.run_of_enabled henabled)
        obtain ⟨hlink', -, hflow, -⟩ :=
          expand_spec hlink (Nat.zero_le _) (Expansion.respects_zero (pass.expansion x))
        have horderly := hstate.expand hlink (pass.reassigns_expansion x)
        rw [← hrun] at hlink' hflow horderly
        obtain ⟨hdone, hdoneLinked, hdoneFlow⟩ := ih _ horderly hlink'
        exact ⟨hdone, hdoneLinked, hflow.trans hdoneFlow⟩
      · rw [Passed.run_of_disabled henabled]
        exact ih state hstate hlink
  exact hfold Pass.all { routine := r, features } hr h

end ShaderRecompiler
