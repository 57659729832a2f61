import ShaderRecompiler.Proofs.Emulation
import ShaderRecompiler.Proofs.Invocation

/-! The ranges of a primitive. What an emulated geometry stage appends for a primitive goes
one by one to the ranges that belong to it in the buffers of vertices and of indices, and
its epilogue fills what is left of the range of indices. -/
namespace ShaderRecompiler

open Lowering Routine

universe u

variable {r : Routine}

theorem Routine.nodup_marks {ids : Ids} (h : ofOperations ops ids = .ok r) : (ops.flatMap Operation.marks).Nodup :=
  (Segment.nodup_of_checkLabels (ofOperations_eq h).2.1).1

namespace StageContext

variable {s : StageContext} {lowered : Lowered} {code : Nat → List Operation}

/-- Behind what comes before the program, the epilogue of an emulated stage begins here. -/
def EpilogueAt (s : StageContext) (lowered : Lowered) (pc : Nat) : Prop :=
  (s.emulatedLowering (s.program.blockLabels {})).EndsAt lowered.ops lowered.bodyStart pc

/-- Blocks of local memory that are no counters. -/
def Spares (n : Nat) : Prop := UInt32.ofNat n ≠ 2 ∧ UInt32.ofNat n ≠ 3

section Geometry

variable (hstage : s.config.stage = .geometry) (hguest : s.config.guestStage = .geometry)
  (hlower : s.lower true (s.prepared true) {} {} = .ok lowered)
include hstage hlower

theorem lowered_geometry : lowered.resources.emulation = some (.geometry 0 1 2 3) ∧
    lowered.resources.reservations = s.reservations := by
  obtain ⟨hres, hmem, -⟩ := s.resources_geometry hstage
  rw [resources_lowered hlower]
  exact ⟨s.extends_emulatedResources.emulation.trans hmem, s.extends_emulatedResources.reservations.trans hres⟩

theorem spares_currentLocal (hop : .st src count .localMemory base offset ∈ s.program.ops) (hcnt : count ≠ 0) :
    Spares (s.emulatedResources.currentLocal.getD 0) := by
  obtain ⟨n, hn⟩ := exists_currentLocal hlower hop hcnt
  obtain rfl := currentLocal_eq hn
  rw [hn, (s.resources_geometry hstage).2.2]
  exact ⟨by decide, by decide⟩

include hguest

/-- The block graph of an emulated geometry stage runs as its lowered program does with the
code of the pass in the place of each operation. -/
theorem exists_code (hr : ofOperations lowered.ops lowered.ids = .ok r) :
    ∃ code, (∀ pc op, lowered.ops[pc]? = some op →
        Pass.Turns (s.passContext lowered) lowered.ids.temps (s.passes lowered) [op] (code pc)) ∧
      (s.passed lowered r).routine.RunsAs lowered.ops code := by
  have hemulable : s.Emulable := ⟨hguest.trans hstage.symm, .inr hstage⟩
  obtain ⟨hflow, hparts, -⟩ := hemulable.passed_spec hlower hr
  obtain ⟨hmem, -⟩ := lowered_geometry hstage hlower
  choose parts hparts using hparts
  refine exists_runsAs hr hflow (fun b => (hparts b).old_eq) (fun b => (hparts b).new_eq) (fun b p hp => ?_)
    (fun b p hp => (hparts b).turns p hp) fun op => ?_
  · have hturns := (hparts b).turns p hp
    refine ⟨fun hterm => ?_, fun hterm => ?_⟩
    · obtain ⟨ids, -, hpiece⟩ := piece_of_turns hguest hturns
      have hems := GeometryEmulation.emulates_aside (x := s.passContext lowered) hmem (by decide) (by decide)
      obtain ⟨haway, hacc⟩ := Operation.isAway_terminator hterm
      rw [hpiece, Expansion.piece, hems.other p.1 haway hacc]
      rfl
    · obtain ⟨hem, hres⟩ := hemulable.emulate hlower
      have hbecomes := hem.becomes hturns
      rw [hres] at hbecomes
      exact hbecomes.plain hterm
  · rw [passes_geometry hguest]
    exact ⟨_, _, Expansion.Expands.nil.snoc lowered.ids (Nat.le_refl _), rfl⟩

/-- Where the program of an emulated geometry stage ends stands the loop that fills its range. -/
theorem padding_lowered {labels : List (Nat × Operand)}
    (hending : (s.emulatedLowering labels).Ending ending) (hst : Flat.Stands lowered.ops pc ending) :
    ∃ head temp, temp + 2 < lowered.ids.temps ∧
      ending = (s.emulatedLowering labels).padding 3 head temp ++ [.returning] := by
  obtain ⟨hmem, -⟩ := lowered_geometry hstage hlower
  rw [resources_lowered hlower] at hmem
  obtain ⟨head, temp, rfl⟩ := padding_of_ending (l := s.emulatedLowering labels) rfl rfl hguest hmem hending
  refine ⟨head, temp, ?_, rfl⟩
  have hload : lowered.ops[pc + 4]? = some (padLoad temp) := hst.left.right.right.tail.head
  have hwithin := within_lowered hlower _ (List.mem_of_getElem? hload) (.temp (temp + 2)) (by
    simp [padLoad, Operation.operands])
  exact hwithin.2

end Geometry

section Invocation

variable {G : Nat → Prop} (hstage : s.config.stage = .geometry) (hguest : s.config.guestStage = .geometry)
  (hlower : s.lower true (s.prepared true) {} {} = .ok lowered)
  (hr : ofOperations lowered.ops lowered.ids = .ok r)
  (hG : ∀ src count slot base offset, .st src count (.global slot) base offset ∈ s.program.ops →
    G (s.emulatedResources.useStorageBuffer slot).1)
include hstage hguest hlower hr hG

/-- The list of an emulated geometry stage resets its counters, and from there on leaves them
to what the pass puts in. -/
theorem exists_front_course : ∃ front, front <+: lowered.ops ∧ front.length = lowered.bodyStart ∧
    Nonempty (Lowering.Front front) ∧
    Nonempty ((s.emulatedLowering (s.program.blockLabels {})).Course (Operation.Elsewhere Spares G) lowered.ops
      lowered.bodyStart) := by
  obtain ⟨hmem, -⟩ := lowered_geometry hstage hlower
  rw [resources_lowered hlower] at hmem
  obtain ⟨front, blocks, closing, hops, hfront, -, -, -, -, hstart⟩ := Guest.Program.exists_pieces (lower_ok hlower)
  refine ⟨front, hops ▸ List.prefix_append _ _, hstart, ?_, ?_⟩
  · exact exists_front (l := s.emulatedLowering (s.program.blockLabels {})) rfl hguest hmem hfront
  · refine Guest.Program.exists_course (lower_ok hlower) (nodup_marks hr) ?_
    intro op hop hexit produced hproduced
    refine elsewhere_op ?_ ?_ hexit hproduced
    · rintro src count base offset rfl hcnt
      exact spares_currentLocal hstage hlower hop hcnt
    · rintro src count slot base offset rfl
      exact hG src count slot base offset hop

variable (hcode : ∀ pc op, lowered.ops[pc]? = some op →
    Pass.Turns (s.passContext lowered) lowered.ids.temps (s.passes lowered) [op] (code pc)) {w : World}
    {M : Device σ w Cell.Private} (hcompares : w.Compares)
  (hstride : s.config.indexStride < UInt32.size) {count primitive instanceId : Nat} {start : σ}
  (hworks : M.Works s.reservations count primitive instanceId start)
include hcode hcompares hstride hworks

theorem invokes_geometry (n : Nat) : M.Invokes (s.passContext lowered) G (instanceId * count + primitive) lowered.ops
    code (s.EpilogueAt lowered) start n := by
  let l := s.emulatedLowering (s.program.blockLabels {})
  obtain ⟨front, hfront, hlen, ⟨F⟩, ⟨C⟩⟩ := exists_front_course hstage hguest hlower hr hG
  obtain ⟨hmem, hres⟩ := lowered_geometry hstage hlower
  have hfills : GeometryEmulation.Fills (s.passContext lowered) lowered.ids.temps lowered.ops code :=
    fun pc op hop => piece_of_turns hguest (hcode pc op hop)
  have hcontext : s.passContext lowered = ⟨l.config, l.resources, s.host⟩ := by
    rw [passContext, resources_lowered hlower]
    rfl
  have hrec : ∀ slot ∈ s.reservations.inputRecord, slot.io.isRecorded :=
    fun slot hslot => RecordUsage.isRecorded_of_mem (u := s.vertexRecord) hslot
  have hending : ∀ ending pc, l.Ending ending → Flat.Stands lowered.ops pc ending →
      ∃ head temp, temp + 2 < lowered.ids.temps ∧ ending = l.padding 3 head temp ++ [.returning] :=
    fun ending pc hending hst => padding_lowered hstage hguest hlower hending hst
  have hzero : Spares 0 := ⟨by decide, by decide⟩
  rw [resources_lowered hlower] at hmem hres
  rw [hcontext] at hfills ⊢
  rw [← hres] at hworks hrec
  exact invokes F C hmem hfills hfront hlen hcompares hrec hending hstride (fun _ => id) hzero hworks n

end Invocation
theorem exists_split {σ : Type u} {body rest before after : List (Visit σ)} {v : Visit σ}
    (h : body ++ rest = before ++ v :: after) (hrest : ∀ v ∈ rest, v.op.isCalm) (hv : v.op.isCalm = false) :
    ∃ later, body = before ++ v :: later := by
  have hnot : v ∉ rest := fun hmem => by simp [hrest v hmem] at hv
  obtain ⟨middle, rfl, -⟩ | ⟨later, hbody, -⟩ := Routine.Linked.append_cases h
  · exact absurd (List.mem_append_right _ List.mem_cons_self) hnot
  · exact ⟨later, hbody⟩

/-- What an invocation of an emulated geometry stage appends for its primitive. Wherever a
vertex is emitted, its index goes to the next element of the range of indices, and the
words of its record to the next place in the range of vertices; wherever a primitive ends,
the index that restarts goes to the next element. An epilogue fills the elements that are
left with this index, and the invocation stops. -/
theorem appends_to_ranges (hstage : s.config.stage = .geometry) (hguest : s.config.guestStage = .geometry)
    (hstride : s.config.indexStride < UInt32.size) (hlower : s.lower true (s.prepared true) {} {} = .ok lowered)
    {r : Routine} (hr : Routine.ofOperations lowered.ops lowered.ids = .ok r) :
    ∃ code, (∀ pc op, lowered.ops[pc]? = some op →
        Pass.Turns (s.passContext lowered) lowered.ids.temps (s.passes lowered) [op] (code pc)) ∧
      (s.passed lowered r).routine.RunsAs lowered.ops code ∧
      ∀ {σ : Type u} {w : World} (M : Device σ w Cell.Private), w.Compares →
      ∀ {count primitive instanceId start}, M.Works s.reservations count primitive instanceId start → ∀ n,
        (∀ before v after,
          (Spliced.run M.toInterpretation lowered.ops code n (some 0, start)).1 = before ++ v :: after →
          (v.op.inst = .emitVertex → M.written v.code v.state =
            vertexEntry s.config s.reservations (instanceId * count + primitive) (Visit.vertices before)
              (Visit.entries before) fun offset => M.cell (recordCell 0 offset) v.state) ∧
          (v.op.inst = .endPrimitive → M.written v.code v.state =
            restartEntry s.config s.reservations (instanceId * count + primitive) (Visit.entries before))) ∧
        ∀ visits pc t, Spliced.run M.toInterpretation lowered.ops code n (some 0, start) = (visits, some pc, t) →
          s.EpilogueAt lowered pc →
          (∀ m < n, ∀ pc, (Spliced.run M.toInterpretation lowered.ops code m (some 0, start)).2.1 = some pc →
            ¬s.EpilogueAt lowered pc) →
          Visit.entries visits < UInt32.size →
          ∃ m rest t', Spliced.run M.toInterpretation lowered.ops code m (some pc, t) = (rest, none, t') ∧
            rest.flatMap (fun v => M.written v.code v.state) =
              (List.range' (Visit.entries visits) (s.config.indexStride - Visit.entries visits)).flatMap
                (restartEntry s.config s.reservations (instanceId * count + primitive)) := by
  obtain ⟨code, hcode, hruns⟩ := exists_code hstage hguest hlower hr
  refine ⟨code, hcode, hruns, fun M hcompares count primitive instanceId start hworks n => ?_⟩
  obtain ⟨⟨body, rest, hrun, hlogs, hcalm, -⟩, harrival⟩ :=
    invokes_geometry (G := fun _ => True) hstage hguest hlower hr
    (fun _ _ _ _ _ _ => trivial) hcode hcompares hstride hworks n
  obtain ⟨-, hreservations⟩ := lowered_geometry hstage hlower
  have hreservations : (s.passContext lowered).resources.reservations = s.reservations := hreservations
  rw [hreservations] at harrival
  refine ⟨fun before v after hsplit => ?_, fun visits pc t hrun hends hfirst hentries => ?_⟩
  · have hlogs : v.op.isCalm = false → M.Logs (s.passContext lowered) (fun _ => True) (instanceId * count + primitive)
        before v := by
      intro hv
      obtain ⟨later, hbody⟩ := exists_split (hrun.symm.trans hsplit) hcalm hv
      exact hlogs before v later hbody
    rw [← hreservations]
    refine ⟨fun hemit => ?_, fun hend => ?_⟩
    · exact (hlogs (by simp [Operation.isCalm, hemit])).emitVertex hemit
    · exact (hlogs (by simp [Operation.isCalm, hend])).endPrimitive hend
  · obtain ⟨m, rest, t', hrest, hwritten, -⟩ := harrival visits pc t hrun hends hfirst
    rw [Nat.mod_eq_of_lt hentries] at hwritten
    exact ⟨m, rest, t', hrest, hwritten⟩

/-- Words that are compared are taken for numbers. -/
def comparing : World where
  constant _ _ := 0
  result inst _ words := if inst = .compare .greaterOrEqual .u32 ∧ words[1]?.getD 0 ≤ words[0]?.getD 0 then 1 else 0

theorem compares_comparing : comparing.Compares := by
  intro a b
  change (if _ ∧ b ≤ a then (1 : UInt32) else 0) ≠ 0 ↔ b ≤ a
  simp

/-- Emits three vertices and ends the primitive. -/
def strip : StageContext :=
  let program : Guest.Program :=
    { blocks := [⟨0, [⟨0, {}, .out true false⟩, ⟨8, {}, .out true false⟩, ⟨16, {}, .out true true⟩, ⟨24, {}, .exit⟩]⟩] }
  ofProgram program { stage := .geometry, outputTopology := .triangleStrip, maxOutputVertices := 3 } default {}

def stripLowered : Lowered := (strip.lower true (strip.prepared true) {} {}).toOption.get (by decide +kernel)

def stripRoutine : Routine :=
  (ofOperations stripLowered.ops stripLowered.ids).toOption.get (by decide +kernel)

/-- The second primitive of the second of two instances with five vertices. -/
def assembling : Valuation × (Cell → UInt32) :=
  (fun _ => 0, fun c => if c.storage = .constantBuffer then 5 else if c.storage = .input then 1 else 0)

theorem works_assembling (r : Reservations) : (comparing.device Cell.Private).Works r 5 1 1 assembling :=
  ⟨rfl, rfl, rfl⟩

theorem appends_to_ranges_strip :
    ∃ code, (strip.passed stripLowered stripRoutine).routine.RunsAs stripLowered.ops code ∧
    ∀ n before v after, (Spliced.run (comparing.device Cell.Private).toInterpretation stripLowered.ops code n
      (some 0, assembling)).1 = before ++ v :: after → v.op.inst = .endPrimitive →
      (comparing.device Cell.Private).written v.code v.state =
        [(strip.reservations.indexCell (6 * 4 + Visit.entries before), 0xffffffff)] := by
  obtain ⟨code, -, hruns, happends⟩ := @appends_to_ranges strip stripLowered rfl rfl (by decide) (eq_ok_get _)
    stripRoutine (eq_ok_get _)
  refine ⟨code, hruns, fun n before v after hrun hend => ?_⟩
  obtain ⟨hvisits, -⟩ := happends (comparing.device Cell.Private) compares_comparing (works_assembling _) n
  exact (hvisits before v after hrun).2 hend

end StageContext
end ShaderRecompiler
