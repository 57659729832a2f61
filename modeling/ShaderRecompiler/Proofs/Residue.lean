import ShaderRecompiler.Proofs.Layout
import ShaderRecompiler.Proofs.Pieces

/-! What the passes leave behind. A pass leaves an operation as it is, or puts operations in
its place that it would leave itself, and none puts in what an earlier one looks for. So
the passes find nothing to do in what they made, and report the same about it. -/
namespace ShaderRecompiler

open Emit List DrawParameters Nat

variable {expand : Expansion} {v : IoVariable} {op : Operation} {x : PassContext}

namespace Expansion

def report (expand : Expansion) (op : Operation) : Option Unresolved := ((expand op).run {}).1.unresolved

/-- What stands in the place of an operation is left as it is, and the same is reported
about it. -/
structure Finishes (expand : Expansion) : Prop where
  report_eq : ∀ op ids, ((expand op).run { ids }).1.unresolved = expand.report op
  leaves : ∀ op ids, ∀ o ∈ expand.piece ids op, expand.Leaves o
  reports : ∀ op ids, (expand.piece ids op).filterMap expand.report = (expand.report op).toList

theorem Finishes.filterMap_report {floor : Nat} (h : expand.Finishes) (he : expand.Expands floor old new) :
    new.filterMap expand.report = old.filterMap expand.report := by
  induction he with
  | nil => rfl
  | @snoc old new op ids _ _ ih =>
    have hop : [op].filterMap expand.report = (expand.report op).toList := by
      cases hrep : expand.report op <;> simp [hrep]
    rw [filterMap_append, filterMap_append, ih, h.reports, hop]

end Expansion

namespace Routine

variable {r : Routine} {todo : List (Nat × OpId)} {id : OpId}

theorem setOp_op (r : Routine) (id : OpId) : r.setOp id (r.op id) = r := by
  have hnodes : r.nodes.modify id (fun n => { n with op := r.op id }) = r.nodes := by
    refine Array.ext (by simp) fun _ _ hi' => ?_
    rw [Array.getElem_modify]
    split
    · next h =>
      subst h
      simp [op, node, hi']
    · rfl
  unfold setOp modifyNode
  rw [hnodes]

theorem expandOp_of_leaves (h : expand.Leaves (r.op id)) : (r.expandOp expand id).2 = r := by
  obtain ⟨v, hv, hkept⟩ := h
  have hrun : (expand (r.op id)).run { ids := r.ids } = (v, { ids := r.ids }) := by
    rw [hv]
    rfl
  simp [expandOp, hrun, hkept, setOp_op]

theorem expand_of_leaves (hlink : r.WellLinked) (h : ∀ op ∈ r.live, expand.Leaves op) : (r.expand expand).2 = r := by
  have hfold : ∀ todo : List (Nat × OpId), todo ⊆ r.allOps →
      ∀ report, (todo.foldl (turn expand) (report, r)).2 = r := by
    intro todo
    induction todo with
    | nil => exact fun _ _ => rfl
    | cons x todo ih =>
      intro hsub report
      have hx : r.op x.2 ∈ r.live := by
        rw [live_eq]
        exact mem_map_of_mem (hsub mem_cons_self)
      have hturn : turn expand (report, r) x = ((turn expand (report, r) x).1, r) :=
        Prod.ext rfl (expandOp_of_leaves (h _ hx))
      rw [foldl_cons, hturn]
      exact ih (fun _ hy => hsub (mem_cons_of_mem _ hy)) _
  rw [(sweep_expand hlink expand).2]
  exact hfold _ (Subset.refl _) _

theorem Underway.unresolved_eq (h : expand.Finishes) {state : PassReport × Routine}
    (u : Underway expand 0 r₀ state.2 todo) : (todo.foldl (turn expand) state).1.unresolved =
      state.1.unresolved ++ todo.filterMap fun x => expand.report (r₀.op x.2) := by
  induction todo generalizing state with
  | nil => simp
  | cons x todo ih =>
    have hturn : (turn expand state x).1.unresolved = state.1.unresolved ++ (expand.report (r₀.op x.2)).toList := by
      rw [← u.next_op.1, ← h.report_eq _ state.2.ids]
      rfl
    rw [foldl_cons, ih (u.step expand.respects_zero), hturn, append_assoc]
    cases hrep : expand.report (r₀.op x.2) <;> simp [hrep]

theorem unresolved_expand (hlink : r.WellLinked) (h : expand.Finishes) :
    (r.expand expand).1.unresolved = r.live.filterMap expand.report := by
  have hstart : Underway expand 0 r (({}, r) : PassReport × Routine).2 r.allOps := .start hlink (zero_le _)
  rw [(sweep_expand hlink expand).2, hstart.unresolved_eq h, live_eq, filterMap_map]
  rfl

/-- The code of an expanded routine is left as it is, and the same is reported about it. -/
theorem live_expand (hlink : r.WellLinked) (h : expand.Finishes) :
    (∀ op ∈ (r.expand expand).2.live, expand.Leaves op) ∧
      (r.expand expand).2.live.filterMap expand.report = r.live.filterMap expand.report := by
  obtain ⟨-, -, hflow, hcode, -⟩ := expand_spec hlink (zero_le _) expand.respects_zero
  refine ⟨fun op hop => ?_, ?_⟩
  · obtain ⟨b, -, hop⟩ := mem_live.1 hop
    obtain ⟨op', -, ids, -, hpiece⟩ := (hcode b).exists_of_mem hop
    exact h.leaves op' ids op hpiece
  · simp only [live, hflow.blocks_size, filterMap_flatMap]
    exact congrArg (flatMap · _) (funext fun b => h.filterMap_report (hcode b))

theorem wellLinked_expand (hlink : r.WellLinked) (expand : Expansion) : (r.expand expand).2.WellLinked :=
  (expand_spec hlink (zero_le _) expand.respects_zero).1

theorem expand_expand (hlink : r.WellLinked) (h : expand.Finishes) :
    ((r.expand expand).2.expand expand).2 = (r.expand expand).2 ∧
      ((r.expand expand).2.expand expand).1.unresolved = (r.expand expand).1.unresolved := by
  obtain ⟨hleaves, hreps⟩ := live_expand hlink h
  have hlink' := wellLinked_expand hlink expand
  refine ⟨expand_of_leaves hlink' hleaves, ?_⟩
  rw [unresolved_expand hlink' h, unresolved_expand hlink h, hreps]

end Routine

/-! Emulation. -/

/-- Everywhere, with no inputs but those that a dispatch has. -/
def Reach.dispatched : Reach := ⟨fun _ _ => True, fun v => v.isDispatchInput, fun _ h => h⟩

theorem Operation.Beside.isAway_eq
    (h : op.Beside B into known) (hload : op.isLoad .input = false) : op.isAway = false := by
  refine isAway_eq_false_iff.2 ⟨hload, fun hinst => ?_, fun hinst => ?_⟩ <;>
    · obtain hpln | hpln := h.plain <;> simp [hinst, Instruction.hasDestination] at hpln

/-- An expansion that leaves an operation or replaces it by code beside the program. -/
structure Expansion.Replaces (expand : Expansion) : Prop where
  decides : ∀ op : Operation, expand.Leaves op ∨
    Appends 0 (Operation.Beside .dispatched op.dest op.sources) (expand op) (· = .drop)
  keeps : ∀ {op : Operation} {into known}, op.Beside .dispatched into known → expand op = pure (.keep op)

namespace Expansion.Replaces

variable (h : expand.Replaces)
include h

theorem cases (op : Operation) : expand.Leaves op ∨ ∀ ids, ((expand op).run { ids }).1 = .drop ∧
    ∀ o ∈ expand.piece ids op, o.Beside .dispatched op.dest op.sources := by
  refine (h.decides op).imp_right fun hdrop ids => ?_
  obtain ⟨added, _, hpiece, hadd, rfl⟩ := hdrop.piece (zero_le ids.temps)
  rw [hpiece]
  exact ⟨(hdrop { ids } (zero_le _)).1, forall_mem_append.2 ⟨hadd, by simp [Verdict.drop]⟩⟩

theorem finishes : expand.Finishes where
  report_eq op ids := by
    obtain ⟨v, hv, -⟩ | hdrop := h.cases op
    · rw [report, hv]
      rfl
    · rw [report, (hdrop ids).1, (hdrop {}).1]
  leaves op ids o ho := by
    obtain hleaves | hdrop := h.cases op
    · rw [hleaves.piece_eq, mem_singleton] at ho
      exact ho ▸ hleaves
    · exact ⟨_, h.keeps ((hdrop ids).2 o ho), rfl⟩
  reports op ids := by
    obtain hleaves | hdrop := h.cases op
    · rw [hleaves.piece_eq]
      cases hrep : expand.report op <;> simp [hrep]
    · have hnone : ∀ o ∈ expand.piece ids op, expand.report o = none := by
        intro o ho
        rw [report, h.keeps ((hdrop ids).2 o ho)]
        rfl
      rw [filterMap_eq_nil_iff.2 hnone, report, (hdrop {}).1]
      rfl

theorem settled (hop : ∀ o ∈ op.sources, Settled x o) (hmem : op' ∈ expand.piece ids op) :
    ∀ o ∈ op'.sources, Settled x o := by
  obtain hleaves | hdrop := h.cases op
  · rw [hleaves.piece_eq, mem_singleton] at hmem
    exact hmem ▸ hop
  · intro o ho
    cases hbuf : o.isConstantBuffer with
    | true => exact hop o (((hdrop ids).2 op' hmem).reads o ho hbuf)
    | false => exact settled_of_isConstantBuffer x hbuf

end Expansion.Replaces

theorem Decides.leaves (h : Decides (x.Inserts .dispatched op) (·.kept = some op) op (expand op)) : expand.Leaves op ∨
      Appends 0 (Operation.Beside .dispatched op.dest op.sources) (expand op) (· = .drop) :=
  h.imp_right fun h => h.elim fun _ h => h.2.2.appends.imp fun _ ho => ho.beside

namespace VertexEmulation

variable (x : PassContext)

theorem replaces_expansion : (expansion x).Replaces where
  decides op := (decides_expansion x (fun _ _ => trivial) op).leaves
  keeps {op into known} h := by
    cases hload : op.isLoad .input with
    | true =>
      obtain ⟨v, hv, hdisp⟩ := h.input hload
      exact expansion_of_dispatch x hload hv hdisp
    | false => exact expansion_of_still x hload h.output

end VertexEmulation

theorem IoVariable.isRecorded_of_isDispatchInput (h : v.isDispatchInput) : v.isRecorded = false := by
  cases v <;> first | rfl | cases h

namespace GeometryEmulation

variable (hrecord : ∀ slot ∈ x.resources.reservations.inputRecord, slot.io.isRecorded)
include hrecord

theorem expansion_of_dispatch (hload : op.isLoad .input)
    (hv : op.ioVariable? = some v) (hdisp : v.isDispatchInput) : expansion x op = pure (.keep op) := by
  by_cases hm : ∃ d r v i, x.resources.emulation = some (.geometry d r v i)
  · obtain ⟨_, _, _, _, hm⟩ := hm
    rw [expansion_of_load hm hload, expandInput]
    cases op.dest with
    | none => rfl
    | some dest =>
      dsimp only
      have hoff : op.recordOffset? x.resources.reservations .input = none :=
        Operation.recordOffset?_eq_none hv (IoVariable.isRecorded_of_isDispatchInput hdisp) hrecord
      rw [reservations, hoff, hv]
      cases v <;> first | rfl | cases hdisp
  · exact expansion_of_foreign hm op

theorem replaces_expansion : (expansion x).Replaces where
  decides op := (decides_expansion x (fun _ _ => trivial) (fun _ => trivial) op).leaves
  keeps {op into known} h := by
    cases hload : op.isLoad .input with
    | true =>
      obtain ⟨v, hv, hdisp⟩ := h.input hload
      exact expansion_of_dispatch hrecord hload hv hdisp
    | false => exact expansion_of_still x (h.isAway_eq hload) h.output

end GeometryEmulation

namespace DrawParameters

variable (x : PassContext)

theorem unresolved_eq_none (op : Operation) (ids : Ids) : ((expansion x op).run { ids }).1.unresolved = none :=
  (appends_expansion x op { ids } (zero_le _)).1.1

theorem report_eq_none (op : Operation) : (expansion x).report op = none := unresolved_eq_none x op {}

theorem settled_piece (h : op' ∈ (expansion x).piece ids op) : ∀ o ∈ op'.sources, Settled x o := by
  obtain ⟨loads, sources, hpiece, hloads, -, hset⟩ := Pass.piece_drawParameters x op (zero_le ids.temps)
  have h : op' ∈ loads ++ [{ op with sources }] := hpiece ▸ h
  obtain hload | hkept := mem_append.1 h
  · obtain ⟨v, ⟨t, -, rfl⟩, -⟩ := hloads op' hload
    exact forall_mem_singleton.2 (settled_of_isConstantBuffer x rfl)
  · obtain rfl := mem_singleton.1 hkept
    exact hset

theorem finishes_expansion : (expansion x).Finishes where
  report_eq op ids := (unresolved_eq_none x op ids).trans (report_eq_none x op).symm
  leaves _ _ _ h := leaves_expansion x (settled_piece x h)
  reports op ids := by
    rw [filterMap_eq_nil_iff.2 fun o _ => report_eq_none x o, report_eq_none]
    rfl

end DrawParameters

/-! The passes together. -/

theorem Reservations.isRecorded_of_mem {r : Reservations}
    (hr : ∃ feedback emulated input output, r = .ofUsage feedback emulated input output) :
    ∀ slot ∈ r.inputRecord, slot.io.isRecorded := by
  obtain ⟨feedback, emulated, input, output, rfl⟩ := hr
  intro slot h
  unfold ofUsage at h
  split at h
  · cases input with
    | none => cases h
    | some usage => exact RecordUsage.isRecorded_of_mem h
  · cases h

namespace Routine

variable {r : Routine} {features : Features}

theorem emulated_runPasses (r : Routine) (x : PassContext) (features : Features) :
    (r.runPasses x features).features.emulated = features.emulated := by
  have hrun : ∀ (state : Passed) (pass : Pass), (state.run x pass).features.emulated = state.features.emulated := by
    intro state pass
    unfold Passed.run
    split <;> simp [Features.union]
  simp [runPasses, Pass.all, hrun]

theorem unresolved_drawParameters (hlink : r.WellLinked) : (r.expand (expansion x)).1.unresolved = [] := by
  rw [unresolved_expand hlink (finishes_expansion x)]
  exact filterMap_eq_nil_iff.2 fun op _ => report_eq_none x op

theorem settled_expand (hlink : r.WellLinked) :
    ∀ op ∈ ((r.expand (expansion x)).2.expand (VertexEmulation.expansion x)).2.live,
      ∀ o ∈ op.sources, Settled x o := by
  obtain ⟨hlink', -, -, hdraw, -⟩ := expand_spec hlink (zero_le _) (Expansion.respects_zero _)
  obtain ⟨-, -, -, hvtx, -⟩ := expand_spec hlink' (zero_le _) (Expansion.respects_zero _)
  intro op hop
  obtain ⟨b, -, hop⟩ := mem_live.1 hop
  obtain ⟨op', hop', ids, -, hpiece⟩ := (hvtx b).exists_of_mem hop
  obtain ⟨_, -, ids', -, hpiece'⟩ := (hdraw b).exists_of_mem hop'
  exact (VertexEmulation.replaces_expansion x).settled (settled_piece x hpiece') hpiece

/-- The passes find nothing to do in what they made. -/
theorem runPasses_runPasses (hlinked : r.WellLinked) (x : PassContext) (features : Features)
    (hreserved : ∃ feedback emulated input output,
      x.resources.reservations = .ofUsage feedback emulated input output) :
    ((r.runPasses x features).routine.runPasses x (r.runPasses x features).features).routine =
        (r.runPasses x features).routine ∧
      ((r.runPasses x features).routine.runPasses x (r.runPasses x features).features).unresolved =
        (r.runPasses x features).unresolved := by
  have hfeatures := emulated_runPasses r x features
  generalize (r.runPasses x features).features = left at hfeatures
  by_cases hvertex : x.config.guestStage = .vertex
  · cases hemulated : features.emulated with
    | true =>
      obtain ⟨hroutine, hreports⟩ := @runPasses_vertex r x features hvertex hemulated
      obtain ⟨hroutine', hreports'⟩ := @runPasses_vertex (r.runPasses x features).routine x left hvertex
        (hfeatures.trans hemulated)
      have hlinked' := wellLinked_expand hlinked (DrawParameters.expansion x)
      have hlinked'' := wellLinked_expand hlinked' (VertexEmulation.expansion x)
      have hsettled : (((r.expand (DrawParameters.expansion x)).2.expand (VertexEmulation.expansion x)).2.expand
          (DrawParameters.expansion x)).2 = _ :=
        expand_of_leaves hlinked'' fun op hop => DrawParameters.leaves_expansion x (settled_expand hlinked op hop)
      rw [hroutine', hreports', hroutine, hreports, unresolved_drawParameters hlinked,
        unresolved_drawParameters hlinked'', hsettled]
      exact expand_expand hlinked' (VertexEmulation.replaces_expansion x).finishes
    | false =>
      obtain ⟨hroutine, hreports⟩ := @runPasses_native r x features hvertex hemulated
      obtain ⟨hroutine', hreports'⟩ := @runPasses_native (r.runPasses x features).routine x left hvertex
        (hfeatures.trans hemulated)
      rw [hroutine', hreports', hroutine, hreports]
      exact expand_expand hlinked (DrawParameters.finishes_expansion x)
  · by_cases hgeometry : x.config.guestStage = .geometry ∧ features.emulated = true
    · obtain ⟨hgeometry, hemulated⟩ := hgeometry
      have hrecord := Reservations.isRecorded_of_mem hreserved
      obtain ⟨hroutine, hreports⟩ := @runPasses_geometry r x features hgeometry hemulated
      obtain ⟨hroutine', hreports'⟩ := @runPasses_geometry (r.runPasses x features).routine x left hgeometry
        (hfeatures.trans hemulated)
      rw [hroutine', hreports', hroutine, hreports]
      exact expand_expand hlinked (GeometryEmulation.replaces_expansion hrecord).finishes
    · obtain ⟨hroutine, hreports⟩ := @runPasses_disabled r x features hvertex (by simpa using hgeometry)
      obtain ⟨hroutine', hreports'⟩ := @runPasses_disabled (r.runPasses x features).routine x left hvertex
        (by simpa [hfeatures] using hgeometry)
      rw [hroutine', hreports', hroutine, hreports]
      exact ⟨rfl, rfl⟩

/-- Reads the draw index, an attribute at a place that depends on it, and writes an output
that is in no record. -/
def straying : Routine := (addBlock {}).2.appendOps 0 [⟨.copy, .none, some (.register ⟨0⟩), [.constantBuffer 0 402]⟩,
    ⟨.load, .input, some (.register ⟨1⟩), [IoVariable.userDefined.operand, .word 0, .register ⟨0⟩]⟩,
    ⟨.store, .output, none, [IoVariable.userDefined.operand, .word 3, .word 0, .register ⟨1⟩]⟩,
    ⟨.ret, .none, none, []⟩]

theorem wellLinked_straying : straying.WellLinked := (wellLinked_empty {}).addBlock.appendOps one_pos _

theorem reservations_relayContext : relayContext.resources.reservations = relay.reservationsFor true := by
  decide +kernel

theorem runPasses_runPasses_straying :
    let once := straying.runPasses relayContext { emulated := true }
    let twice := once.routine.runPasses relayContext once.features
    once.unresolved = [⟨false, "DrawIndex"⟩, ⟨false, "UserDefined[dynamic]"⟩, ⟨true, "UserDefined"⟩] ∧
      once.routine.allOps.length = 5 ∧ twice.routine = once.routine ∧ twice.unresolved = once.unresolved :=
  ⟨by decide +kernel, by decide +kernel, runPasses_runPasses wellLinked_straying relayContext { emulated := true }
      ⟨_, _, _, _, reservations_relayContext⟩⟩

end Routine
end ShaderRecompiler
