import ShaderRecompiler.Proofs.Blocks
import ShaderRecompiler.Proofs.Emission

/-! When a list of operations can be cut into blocks: labels stand where they
belong, none is marked twice, and those branched to are marked. -/
namespace ShaderRecompiler

open List Operation

variable {ops : List Operation} {op : Operation}

/-- Branches and marks name a label. -/
def Operation.Labelled (op : Operation) : Prop :=
  op.inst.isStraight = false → op.inst ≠ .ret → ∃ l, op.source? 0 = some (.label l)

theorem Operation.Labelled.label?_eq (h : op.Labelled) (hs : op.inst.isStraight = false) (hret : op.inst ≠ .ret) :
    ∃ l, op.label? = .ok l ∧ op.label = [l] := by
  obtain ⟨l, hl⟩ := h hs hret
  exact ⟨l, by simp [label?, hl, Operand.asLabel?], by simp [label, hl, Operand.asLabel?]⟩

namespace Segment

theorem labels_cons : (cons op rest).flatMap labels = op.marks ++ rest.flatMap labels := by
  unfold cons marks
  split
  · cases rest <;> simp [label]
  · split
    · split <;> simp
    · simp

theorem labels_ofOperations (ops : List Operation) : (ofOperations ops).flatMap labels = ops.flatMap marks := by
  induction ops with
  | nil => rfl
  | cons op ops ih =>
    rw [flatMap_cons, ← ih]
    exact labels_cons

theorem mem_cons (hs : s ∈ cons op rest) (hx : x ∈ s.ops) : x = op ∨ ∃ s' ∈ rest, x ∈ s'.ops := by
  unfold cons at hs
  split at hs
  · cases rest with
    | nil =>
      obtain rfl : s = _ := mem_singleton.1 hs
      cases hx
    | cons s' later =>
      obtain rfl | hs := List.mem_cons.1 hs
      · exact .inr ⟨s', mem_cons_self .., hx⟩
      · exact .inr ⟨s, mem_cons_of_mem _ hs, hx⟩
  · split at hs
    · split at hs
      · obtain rfl | hs := List.mem_cons.1 hs
        · exact .inl (mem_singleton.1 hx)
        · exact .inr ⟨s, hs, hx⟩
      · obtain rfl | hs := List.mem_cons.1 hs
        · exact (List.mem_cons.1 hx).imp_right fun hx => ⟨_, mem_cons_self, hx⟩
        · exact .inr ⟨s, mem_cons_of_mem _ hs, hx⟩
    · obtain rfl | hs := List.mem_cons.1 hs
      · exact .inl (mem_singleton.1 hx)
      · exact .inr ⟨s, hs, hx⟩

theorem mem_ofOperations (hs : s ∈ ofOperations ops) (hx : x ∈ s.ops) : x ∈ ops := by
  induction ops generalizing s with
  | nil => simp [ofOperations] at hs
  | cons op ops ih =>
    have hs : s ∈ cons op (ofOperations ops) := hs
    obtain rfl | ⟨s', hs', hx⟩ := mem_cons hs hx
    · exact mem_cons_self
    · exact mem_cons_of_mem _ (ih hs' hx)

theorem checkLabels_eq_ok {marked : List Nat} (hlabelled : ∀ op ∈ ops, op.Labelled)
    (hnd : (ops.flatMap marks).Nodup)
    (hnew : ∀ l ∈ ops.flatMap marks, l ∉ marked) : checkLabels ops marked = .ok () := by
  induction ops generalizing marked with
  | nil => rfl
  | cons op ops ih =>
    obtain ⟨hop, hops⟩ := forall_mem_cons.1 hlabelled
    rw [flatMap_cons, nodup_append] at hnd
    rw [flatMap_cons] at hnew
    rw [checkLabels]
    by_cases hmark : op.inst = .markLabel
    · obtain ⟨l, hl, hlab⟩ := hop.label?_eq (by simp [hmark, Instruction.isStraight]) (by simp [hmark])
      have hmarks : op.marks = [l] := by rw [marks, if_pos hmark, hlab]
      rw [hmarks] at hnd hnew
      rw [if_pos hmark, hl]
      dsimp only [bind, Except.bind]
      rw [if_neg (by simpa using hnew l (by simp))]
      refine ih hops hnd.2.1 fun k hk hmem => ?_
      obtain rfl | hmem := List.mem_cons.1 hmem
      · exact hnd.2.2 k (by simp) k hk rfl
      · exact hnew k (mem_append_right _ hk) hmem
    · rw [if_neg hmark]
      exact ih hops hnd.2.1 fun k hk => hnew k (mem_append_right _ hk)

/-- Every branch of a labelled segment finds its target. -/
theorem exists_edges {segments : List Segment} (hlabelled : ∀ op ∈ s.ops, op.Labelled)
    (htgts : ∀ op ∈ s.ops, ∀ l ∈ op.targets, l ∈ segments.flatMap labels) (index : Nat) :
    ∃ e, edges segments index s = .ok e := by
  unfold edges
  dsimp only
  cases hlast : s.ops.getLast? with
  | none => exact ⟨_, rfl⟩
  | some op =>
    have hop := mem_of_getLast? hlast
    dsimp only
    split
    · exact ⟨_, rfl⟩
    next hret =>
    split
    · next hterm =>
      have hs := Instruction.isStraight_of_isTerminator hterm
      obtain ⟨l, hl, hlab⟩ := (hlabelled op hop).label?_eq hs hret
      have htgt : l ∈ segments.flatMap labels := htgts op hop l (by
        rw [targets, if_pos hterm, hlab]
        exact mem_singleton_self l)
      obtain ⟨s', hs', hmem⟩ := mem_flatMap.1 htgt
      cases hfind : segments.findIdx? (·.labels.contains l) with
      | none =>
        rw [findIdx?_eq_none_iff] at hfind
        simpa [hmem] using hfind s' hs'
      | some target =>
        rw [hl]
        dsimp only [bind, Except.bind]
        rw [hfind]
        exact ⟨_, rfl⟩
    · exact ⟨_, rfl⟩

end Segment

theorem exists_mapM_ok {α β ε : Type} {f : α → Except ε β} {xs : List α}
    (h : ∀ x ∈ xs, ∃ y, f x = .ok y) : ∃ ys, xs.mapM f = .ok ys := by
  induction xs with
  | nil => exact ⟨[], rfl⟩
  | cons x xs ih =>
    obtain ⟨⟨y, hy⟩, hxs⟩ := forall_mem_cons.1 h
    obtain ⟨ys, hys⟩ := ih hxs
    exact ⟨y :: ys, by rw [mapM_cons, hy]; simp [hys, bind, Except.bind, pure, Except.pure]⟩

theorem forM_eq_ok_iff {α ε : Type} {f : α → Except ε Unit} {xs : List α} :
    xs.forM f = .ok () ↔ ∀ x ∈ xs, f x = .ok () := by
  induction xs with
  | nil => exact iff_of_true rfl (by simp)
  | cons x xs ih =>
    rw [forall_mem_cons, ← ih]
    change (f x >>= fun _ => xs.forM f) = .ok () ↔ _
    cases f x <;> simp [bind, Except.bind]

theorem Routine.exists_ofOperations (hne : ops ≠ [])
    (hlabelled : ∀ op ∈ ops, op.Labelled) (hnd : (ops.flatMap marks).Nodup)
    (htgts : ∀ l ∈ ops.flatMap targets, l ∈ ops.flatMap marks) (ids : Ids) :
    ∃ r, ofOperations ops ids = .ok r := by
  have hlabs : Segment.checkLabels ops [] = .ok () :=
    Segment.checkLabels_eq_ok hlabelled hnd (by simp)
  have hedges : ∃ edges, ((Segment.ofOperations ops).zipIdx.mapM fun x =>
      Segment.edges (Segment.ofOperations ops) x.2 x.1) = .ok edges := by
    apply exists_mapM_ok
    rintro ⟨s, index⟩ hs
    have hs := fst_mem_of_mem_zipIdx hs
    refine Segment.exists_edges (fun op hop => hlabelled op (Segment.mem_ofOperations hs hop))
      (fun op hop l hl => ?_) index
    rw [Segment.labels_ofOperations]
    exact htgts l (mem_flatMap.2 ⟨op, Segment.mem_ofOperations hs hop, hl⟩)
  obtain ⟨edges, hedges⟩ := hedges
  unfold ofOperations
  rw [if_neg (by simpa using hne)]
  simp only [hlabs, hedges, bind, Except.bind, pure, Except.pure]
  exact ⟨_, rfl⟩

theorem Routine.mem_code_ofOperations {ids : Ids} (h : ofOperations ops ids = .ok r) (hop : op ∈ r.code b) :
    op ∈ ops := by
  have hb : b < r.blocks.size := by
    by_contra hb
    rw [code, blockOps_of_size_le (.ofOperations h) (Nat.le_of_not_lt hb)] at hop
    cases hop
  obtain ⟨i, s, e, hs, -, f, hview, -⟩ := mem_views_ofOperations h (mem_views.2 ⟨b, hb, rfl⟩)
  have hcode : r.code b = s.ops := congrArg View.ops hview
  exact Segment.mem_ofOperations (mem_of_getElem? hs) (hcode ▸ hop)

end ShaderRecompiler
