import ShaderRecompiler.Proofs.Residue

/-! Accesses to the stage interface that emulation leaves in place. Each of them is an
operation that the pass found, and is reported; nothing else is, and nothing else of the
interface remains but what a dispatch has too. -/
namespace ShaderRecompiler

open List Operation IoVariable Option

namespace Expansion

variable {expand : Expansion} {r : Routine} {id : OpId}

theorem FillsAll.exists_of_mem (h : expand.FillsAll floor r₀ r old new) (hid : id ∈ new) :
    ∃ j ∈ old, ∃ ids added, expand.Fills ids r₀ r j added ∧ id ∈ added := by
  induction h with
  | nil => cases hid
  | @snoc old new added j ids _ hadd _ ih =>
    obtain hid | hid := mem_append.1 hid
    · obtain ⟨j, hj, hfills⟩ := ih hid
      exact ⟨j, mem_append_left _ hj, hfills⟩
    · exact ⟨j, by simp, ids, added, hadd, hid⟩

theorem Fills.of_leaves (h : expand.Fills ids r₀ r id new) (hleaves : expand.Leaves (r₀.op id)) :
    new = [id] ∧ r.op id = r₀.op id := by
  obtain ⟨hnew, put, -, hids⟩ := h
  rw [hleaves.piece_eq] at hnew
  obtain ⟨v, hv, hkept⟩ := hleaves
  have hids : new = put ++ (v.kept.map fun _ => id).toList := by
    rw [hv] at hids
    exact hids
  rw [hkept] at hids
  obtain rfl : put = [] := by
    have hlen := congrArg length hnew
    rw [hids] at hlen
    exact length_eq_zero_iff.1 (by simpa using hlen)
  obtain rfl : new = [id] := hids
  exact ⟨rfl, singleton_inj.1 hnew⟩

end Expansion

namespace Routine

variable {r : Routine} {expand : Expansion} {id : OpId}

theorem blockOps_expand_cases (hlink : r.WellLinked) (h : expand.Replaces) (hid : id ∈ (r.expand expand).2.blockOps b) :
    (r.nodes.size ≤ id ∧ ∃ into known, ((r.expand expand).2.op id).Beside .dispatched into known) ∨
      id ∈ r.blockOps b ∧ (r.expand expand).2.op id = r.op id ∧ expand.Leaves (r.op id) := by
  have hfills := (underway_expand hlink (Nat.zero_le _) expand.respects_zero).fillsAll b
  obtain ⟨j, hj, ids, added, hadd, hid⟩ := hfills.exists_of_mem hid
  obtain hleaves | hdrop := h.cases (r.op j)
  · obtain ⟨rfl, hop⟩ := hadd.of_leaves hleaves
    obtain rfl := mem_singleton.1 hid
    exact .inr ⟨hj, hop, hleaves⟩
  · obtain ⟨hver, hbeside⟩ := hdrop ids
    obtain ⟨hnew, put, hput, hids⟩ := hadd
    rw [hver] at hids
    obtain rfl : added = put := hids.trans (append_nil _)
    refine .inl ⟨hput id hid, _, _, hbeside _ ?_⟩
    rw [← hnew]
    exact mem_map_of_mem hid

end Routine

/-! What remains and what is reported. -/

def EmulationMemory.stage : EmulationMemory → Stage
  | vertex .. => .vertex
  | geometry .. => .geometry

namespace Operation

/-- How an input is named. A generic vertex attribute that remains is read at a computed
place. -/
def inputName (stage : Stage) (op : Operation) : String :=
  if stage = .vertex ∧ op.ioVariable? = some .userDefined then "UserDefined[dynamic]" else op.ioName

/-- Loads an input that a dispatch does not have, or accesses an output. -/
def foreign? (stage : Stage) (op : Operation) : Option Unresolved :=
  if op.isLoad .input then
    if op.ioVariable?.any isDispatchInput then none else some ⟨false, op.inputName stage⟩
  else if op.accessesOutput then some ⟨true, op.ioName⟩ else none

theorem Beside.foreign?_eq {op : Operation}
    (h : op.Beside .dispatched into known) (stage : Stage) : op.foreign? stage = none := by
  unfold foreign?
  split
  · next hload =>
    obtain ⟨v, hv, hdisp⟩ := h.input hload
    have hdisp : v.isDispatchInput := hdisp
    simp [hv, hdisp]
  · simp [h.output]

end Operation

theorem Expansion.Leaves.run_ne_drop {expand : Expansion} (h : expand.Leaves op) : ((expand op).run {}).1 ≠ .drop := by
  obtain ⟨v, hv, hkept⟩ := h
  rw [hv]
  rintro rfl
  cases hkept

theorem Expansion.Leaves.report_eq {expand : Expansion} (h : expand.Leaves op) {x : PassContext}
    (hm : x.resources.emulation = some memory) (hload : op.isLoad .input = false)
    (hout : op.accessesOutput → expand op = expandOutput x op)
    (hother : op.accessesOutput = false → expand op = pure (.keep op)) (stage : Stage) :
    expand.report op = op.foreign? stage := by
  have hdrop := h.run_ne_drop
  rw [report, foreign?, hload]
  cases hacc : op.accessesOutput with
  | true =>
    rw [hout hacc] at hdrop ⊢
    cases hoff : op.recordOffset? x.resources.reservations .output with
    | none =>
      rw [expandOutput_none hm hoff]
      rfl
    | some offset =>
      refine absurd ?_ hdrop
      simp only [expandOutput, hm, hoff]
      split <;> rfl
  | false =>
    rw [hother hacc]
    rfl

/-- Reports of an emulated stage are about what is foreign to a dispatch, and vertices and
primitives are not handed over as they were. -/
structure Expansion.Discloses (expand : Expansion) (stage : Stage) : Prop where
  report_eq : ∀ op : Operation, expand.Leaves op → (op.isLoad .input → op.dest.isSome) →
    expand.report op = op.foreign? stage
  emits : stage = .geometry → ∀ op : Operation, expand.Leaves op → op.inst ≠ .emitVertex ∧ op.inst ≠ .endPrimitive

namespace VertexEmulation

variable {vertexData vertexRate instanceRate : Nat}

theorem unresolved_expandInput (e : VertexEmulation) {op : Operation} {dest : Operand} (hdest : op.dest = some dest)
    (h : ((e.expandInput op).run {}).1 ≠ .drop) : ((e.expandInput op).run {}).1.unresolved =
      if op.ioVariable?.any isDispatchInput then none else some ⟨false, op.inputName .vertex⟩ := by
  revert h
  unfold expandInput
  split
  · next hnone => cases hnone.symm.trans hdest
  · next hv =>
    have hname : op.inputName .vertex = op.ioName := if_neg (by simp [hv])
    rw [hv, hname]
    exact fun _ => rfl
  · next hv =>
    split
    · exact fun h => absurd rfl h
    · have hname : op.inputName .vertex = "UserDefined[dynamic]" := if_pos ⟨rfl, hv⟩
      rw [hv, hname]
      exact fun _ => rfl
  · next v huser _ hv =>
    split
    · exact fun h => absurd rfl h
    · have hname : op.inputName .vertex = v.name := by
        rw [inputName, if_neg (by simpa [hv] using huser), ioName, hv]
        rfl
      rw [hv, hname, any_some]
      cases v.isDispatchInput <;> exact fun _ => rfl

theorem discloses_expansion {x : PassContext}
    (hm : x.resources.emulation = some (.vertex vertexData vertexRate instanceRate)) :
    (expansion x).Discloses .vertex where
  emits := by simp
  report_eq op hleaves hdest := by
    cases hload : op.isLoad .input with
    | true =>
      obtain ⟨dest, hdest⟩ := isSome_iff_exists.1 (hdest hload)
      have hexp := expansion_of_load hm hload
      have hdrop := hleaves.run_ne_drop
      rw [hexp] at hdrop
      rw [Expansion.report, hexp, foreign?, if_pos hload]
      exact unresolved_expandInput _ hdest hdrop
    | false =>
      exact hleaves.report_eq hm hload (expansion_of_output hm) (expansion_of_still x hload) .vertex

end VertexEmulation

namespace GeometryEmulation

variable {x : PassContext} {vertexData topologyRemap vertexCounter indexCounter : Nat}

theorem unresolved_expandInput (e : GeometryEmulation)
    (hrec : ∀ slot ∈ e.reservations.inputRecord, slot.io.isRecorded) {op : Operation} {dest : Operand}
    (hdest : op.dest = some dest) (h : ((e.expandInput op).run {}).1 ≠ .drop) :
    ((e.expandInput op).run {}).1.unresolved =
      if op.ioVariable?.any isDispatchInput then none else some ⟨false, op.inputName .geometry⟩ := by
  have hname : op.inputName .geometry = op.ioName := if_neg (by simp)
  revert h
  unfold expandInput
  rw [hname]
  split
  · next hnone => cases hnone.symm.trans hdest
  split
  · next offset hoff =>
    split
    · have hforeign : op.ioVariable?.any isDispatchInput = false := by
        refine Bool.eq_false_iff.2 fun hany => ?_
        obtain ⟨v, hv, hdisp⟩ := (any_eq_true _ _).1 hany
        have hnone : op.recordOffset? e.reservations .input = none :=
          recordOffset?_eq_none hv (isRecorded_of_isDispatchInput hdisp) hrec
        cases hnone.symm.trans hoff
      rw [hforeign]
      exact fun _ => rfl
    · exact fun h => absurd rfl h
  · split
    · exact fun h => absurd rfl h
    · next v _ hv =>
      rw [hv, any_some]
      cases v.isDispatchInput <;> exact fun _ => rfl
    · next hv =>
      rw [hv]
      exact fun _ => rfl

theorem discloses_expansion
    (hm : x.resources.emulation = some (.geometry vertexData topologyRemap vertexCounter indexCounter))
    (hrec : ∀ slot ∈ x.resources.reservations.inputRecord, slot.io.isRecorded) :
    (expansion x).Discloses .geometry := by
  have hemits : ∀ op : Operation, (expansion x).Leaves op → op.inst ≠ .emitVertex ∧ op.inst ≠ .endPrimitive := by
    intro op hleaves
    have hdrop := hleaves.run_ne_drop
    rw [expansion, hm] at hdrop
    constructor
    all_goals
      intro hinst
      simp only [hinst] at hdrop
      exact hdrop rfl
  refine ⟨fun op hleaves hdest => ?_, fun _ => hemits⟩
  obtain ⟨hemit, hend⟩ := hemits op hleaves
  cases hload : op.isLoad .input with
  | true =>
    obtain ⟨dest, hdest⟩ := isSome_iff_exists.1 (hdest hload)
    have hexp := expansion_of_load hm hload
    have hdrop := hleaves.run_ne_drop
    rw [hexp] at hdrop
    rw [Expansion.report, hexp, foreign?, if_pos hload]
    exact unresolved_expandInput (.mk x vertexData topologyRemap vertexCounter indexCounter) hrec hdest hdrop
  | false =>
    have haway := isAway_eq_false_iff.2 ⟨hload, hemit, hend⟩
    exact hleaves.report_eq hm hload (expansion_of_output hm) (expansion_of_still x haway) .geometry

end GeometryEmulation

namespace Routine

variable {r : Routine} {expand : Expansion}

theorem disclosed_expand (hlink : r.WellLinked) (hrepl : expand.Replaces) (hdiscloses : expand.Discloses stage)
    (hdest : ∀ b, ∀ op ∈ r.code b, op.isLoad .input → op.dest.isSome) :
    (stage = .geometry → ∀ op ∈ (r.expand expand).2.live, op.inst ≠ .emitVertex ∧ op.inst ≠ .endPrimitive) ∧
      (r.expand expand).1.unresolved = (r.expand expand).2.live.filterMap (foreign? stage) ∧
      ∀ b, ∀ id ∈ (r.expand expand).2.blockOps b, (((r.expand expand).2.op id).foreign? stage).isSome →
        id ∈ r.blockOps b ∧ (r.expand expand).2.op id = r.op id := by
  obtain ⟨hleaves, hreps⟩ := live_expand hlink hrepl.finishes
  refine ⟨fun hstg op hop => hdiscloses.emits hstg op (hleaves op hop), ?_, fun b id hid hforeign => ?_⟩
  · rw [unresolved_expand hlink hrepl.finishes, ← hreps]
    refine filterMap_congr fun op hop => ?_
    obtain ⟨b, -, hmem⟩ := mem_live.1 hop
    obtain ⟨id, hid, rfl⟩ := mem_map.1 hmem
    obtain ⟨-, into, known, hbeside⟩ | ⟨hold, heq, hleft⟩ := blockOps_expand_cases hlink hrepl hid
    · rw [hbeside.foreign?_eq, Expansion.report, hrepl.keeps hbeside]
      rfl
    · rw [heq]
      exact hdiscloses.report_eq _ hleft (hdest b _ (mem_map_of_mem hold))
  · obtain ⟨-, into, known, hbeside⟩ | ⟨hold, heq, -⟩ := blockOps_expand_cases hlink hrepl hid
    · simp [hbeside.foreign?_eq] at hforeign
    · exact ⟨hold, heq⟩

theorem run_drawParameters {x : PassContext} (hstg : x.config.guestStage = .vertex) (features : Features) :
    (Passed.run x { routine := r, features } .drawParameters).routine =
      (r.expand (DrawParameters.expansion x)).2 := by
  rw [Passed.run_of_enabled (by simp [Pass.isEnabled, hstg])]
  rfl

/-- What stands in a block after draw parameters is the load of one, or stood there before. -/
theorem blockOps_drawParameters_cases {id : OpId} (hlink : r.WellLinked)
    (hid : id ∈ (r.expand (DrawParameters.expansion x)).2.blockOps b) :
    (r.nodes.size ≤ id ∧ ∃ v, ∃ op ∈ r.code b,
      DrawParameters.Loads 0 op ((r.expand (DrawParameters.expansion x)).2.op id) v) ∨
    id ∈ r.blockOps b ∧ ∃ sources, (r.expand (DrawParameters.expansion x)).2.op id = { r.op id with sources } := by
  have hfills := (underway_expand hlink (Nat.zero_le _) (DrawParameters.expansion x).respects_zero).fillsAll b
  obtain ⟨j, hj, ids, added, ⟨hnew, put, hput, hadd⟩, hid⟩ := hfills.exists_of_mem hid
  obtain ⟨loads, sources, hpiece, hloads, -⟩ := Pass.piece_drawParameters x (r.op j) (Nat.zero_le ids.temps)
  obtain ⟨-, _, hkept, -⟩ := (DrawParameters.appends_expansion x (r.op j) { ids } (Nat.zero_le _)).1
  have hadd : added = put ++ [j] := by
    rw [hkept] at hadd
    exact hadd
  have hnew : (put ++ [j]).map (r.expand (DrawParameters.expansion x)).2.op = loads ++ [{ r.op j with sources }] :=
    hadd ▸ hnew.trans hpiece
  rw [map_append] at hnew
  obtain ⟨hputs, hlast⟩ := append_inj' hnew rfl
  rw [hadd] at hid
  obtain hid | hid := mem_append.1 hid
  · obtain ⟨v, hv⟩ := hloads _ (hputs ▸ mem_map_of_mem hid)
    exact .inl ⟨hput id hid, v, r.op j, mem_map_of_mem hj, hv⟩
  · obtain rfl := mem_singleton.1 hid
    exact .inr ⟨hj, sources, singleton_inj.1 hlast⟩

/-- What is left of the interface of an emulated stage, and what is reported about it, in
program order. An operation that remains was found by the pass of emulation as it stands. -/
theorem unresolved_runPasses (hlinked : r.WellLinked) {x : PassContext}
    (hcheck : r.check x.config x.resources = .ok ()) {features : Features} (hemulated : features.emulated = true)
    (hmemory : x.resources.emulation.map EmulationMemory.stage = some x.config.guestStage)
    (hreserved : ∃ feedback emulated input output,
      x.resources.reservations = .ofUsage feedback emulated input output) :
    let before := (Passed.run x { routine := r, features } .drawParameters).routine
    let after := (r.runPasses x features).routine
    (x.config.guestStage = .geometry → ∀ op ∈ after.live, op.inst ≠ .emitVertex ∧ op.inst ≠ .endPrimitive) ∧
      (r.runPasses x features).unresolved = after.live.filterMap (Operation.foreign? x.config.guestStage) ∧
      ∀ b, ∀ id ∈ after.blockOps b, ((after.op id).foreign? x.config.guestStage).isSome = true →
        id ∈ before.blockOps b ∧ after.op id = before.op id := by
  have hchecked := hlinked.obeys_of_check hcheck
  have hdest : ∀ b, ∀ op ∈ r.code b, op.isLoad .input = true → op.dest.isSome = true := by
    intro b op hop hload
    rw [(hchecked.holds b op hop).dest, (Operation.isLoad_eq hload).1]
    rfl
  obtain ⟨memory, hm, hstage⟩ := Option.map_eq_some_iff.1 hmemory
  cases memory with
  | vertex vertexData vertexRate instanceRate =>
    have hstage : x.config.guestStage = .vertex := hstage.symm
    obtain ⟨hroutine, hreports⟩ := @runPasses_vertex r x features hstage hemulated
    rw [hroutine, hreports, unresolved_drawParameters hlinked, List.nil_append, run_drawParameters hstage, hstage]
    refine disclosed_expand (wellLinked_expand hlinked _) (VertexEmulation.replaces_expansion x)
      (VertexEmulation.discloses_expansion hm) fun b op hop hload => ?_
    obtain ⟨id, hid, rfl⟩ := List.mem_map.1 hop
    obtain ⟨-, v, _, -, ⟨t, -, heq⟩, -⟩ | ⟨hold, sources, heq⟩ := blockOps_drawParameters_cases hlinked hid
    · rw [heq]
      rfl
    · rw [heq] at hload ⊢
      exact hdest b (r.op id) (List.mem_map_of_mem hold) hload
  | geometry vertexData topologyRemap vertexCounter indexCounter =>
    have hstage : x.config.guestStage = .geometry := hstage.symm
    obtain ⟨hroutine, hreports⟩ := @runPasses_geometry r x features hstage hemulated
    have hrun : (Passed.run x { routine := r, features } .drawParameters).routine = r := by
      rw [Passed.run_of_disabled (by simp [Pass.isEnabled, hstage])]
    rw [hroutine, hreports, hrun, hstage]
    exact disclosed_expand hlinked (GeometryEmulation.replaces_expansion (Reservations.isRecorded_of_mem hreserved))
      (GeometryEmulation.discloses_expansion hm (Reservations.isRecorded_of_mem hreserved)) hdest

theorem unresolved_runPasses_straying :
    let passed := straying.runPasses relayContext { emulated := true }
    straying.check relayContext.config relayContext.resources = .ok () ∧
      passed.unresolved = passed.routine.live.filterMap (Operation.foreign? .vertex) ∧
      passed.routine.live.filterMap (Operation.foreign? .vertex) =
        [⟨false, "DrawIndex"⟩, ⟨false, "UserDefined[dynamic]"⟩, ⟨true, "UserDefined"⟩] := by
  intro passed
  have hcheck : straying.check relayContext.config relayContext.resources = .ok () := by decide +kernel
  obtain ⟨-, hreports, -⟩ := @unresolved_runPasses straying wellLinked_straying relayContext hcheck
    { emulated := true } rfl (by decide +kernel) ⟨_, _, _, _, reservations_relayContext⟩
  exact ⟨hcheck, hreports, by decide +kernel⟩

end Routine

/-! Draw parameters of an emulated vertex stage. -/

namespace Routine

variable {r : Routine} {x : PassContext} {features : Features} {vertexData vertexRate instanceRate : Nat}

end Routine
end ShaderRecompiler
