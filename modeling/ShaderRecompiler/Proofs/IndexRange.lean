import ShaderRecompiler.Proofs.Ranges

/-! When a primitive keeps to its range of indices. The range has room for the vertices that
may be emitted and for one restart after each whole primitive of them; a program can end
primitives more often, and then it writes to the range behind its own. -/
namespace ShaderRecompiler

open List Operation Visit

open UInt32 (ofNat size)

universe u

variable {c : Config} {bound : Nat} {r : Reservations}

namespace Device

variable {σ : Type u} {w : World} {M : Device σ w Cell.Private} {primitive : Nat}

/-- What the visits write to the buffer of indices goes to the first `bound` elements from
where the range of the primitive begins. -/
def KeepsTo (M : Device σ w Cell.Private) (c : Config) (r : Reservations) (primitive bound : Nat)
    (visits : List (Visit σ)) : Prop :=
  ∀ entry ∈ visits.flatMap fun v => M.written v.code v.state,
    entry.1.address.head? = some (ofNat r.geometryIndexOutput) →
      ∃ j < bound, entry.1 = r.indexCell (primitive * c.indexStride + j)

theorem KeepsTo.append {xs : List (Visit σ)}
    (hx : M.KeepsTo c r primitive bound xs) (hy : M.KeepsTo c r primitive bound ys) :
    M.KeepsTo c r primitive bound (xs ++ ys) := by
  intro entry hent
  rw [flatMap_append] at hent
  exact (mem_append.1 hent).elim (hx entry) (hy entry)

theorem keepsTo_logged {body : List (Visit σ)}
    (h : M.LogsAll x (fun n => ofNat n ≠ ofNat x.resources.reservations.geometryIndexOutput) primitive body)
    (hverts : ofNat x.resources.reservations.geometryVertexOutput ≠ ofNat x.resources.reservations.geometryIndexOutput) :
    M.KeepsTo x.config x.resources.reservations primitive (entries body) body := by
  intro entry hmem hidx
  obtain ⟨v, hv, hent⟩ := mem_flatMap.1 hmem
  obtain ⟨before, after, rfl⟩ := append_of_mem hv
  have hlogs := h before v after rfl
  have hlt : v.op.isCalm = false → entries before < entries (before ++ v :: after) := by
    intro hv
    rw [entries_append]
    simp [entries, hv]
  by_cases hemit : v.op.inst = .emitVertex
  · rw [hlogs.emitVertex hemit] at hent
    obtain rfl | hent := mem_cons.1 hent
    · exact ⟨_, hlt (by simp [isCalm, hemit]), rfl⟩
    · obtain ⟨offset, -, rfl⟩ := mem_map.1 hent
      exact absurd (Option.some.inj hidx) hverts
  · by_cases hend : v.op.inst = .endPrimitive
    · rw [hlogs.endPrimitive hend] at hent
      obtain rfl := mem_singleton.1 hent
      exact ⟨_, hlt (by simp [isCalm, hend]), rfl⟩
    · obtain ⟨n, hn, hhead⟩ := hlogs.calm (by simp [isCalm, hemit, hend]) entry hent
      exact absurd (Option.some.inj (hhead.symm.trans hidx)) hn

theorem KeepsTo.mono {bound' : Nat}
    (h : M.KeepsTo c r primitive bound visits) (hle : bound ≤ bound') : M.KeepsTo c r primitive bound' visits := by
  intro entry hent hidx
  obtain ⟨j, hj, heq⟩ := h entry hent hidx
  exact ⟨j, Nat.lt_of_lt_of_le hj hle, heq⟩

theorem Logs.exists_entry {G : Nat → Prop} (h : M.Logs x G primitive before v) (hv : v.op.isCalm = false) :
    ∃ value, (x.resources.reservations.indexCell (primitive * x.config.indexStride + entries before), value) ∈
      M.written v.code v.state := by
  obtain hemit | hend : v.op.inst = .emitVertex ∨ v.op.inst = .endPrimitive := by
    by_contra hnone
    obtain ⟨hemit, hend⟩ := not_or.1 hnone
    simp [isCalm, hemit, hend] at hv
  · rw [h.emitVertex hemit]
    exact ⟨_, mem_cons_self⟩
  · rw [h.endPrimitive hend]
    exact ⟨_, mem_cons_self⟩

end Device

theorem Visit.exists_entry {σ : Type u} {visits : List (Visit σ)} (h : n < entries visits) :
    ∃ before v after, visits = before ++ v :: after ∧ entries before = n ∧ v.op.isCalm = false := by
  induction visits generalizing n with
  | nil => cases h
  | cons v visits ih =>
    cases hv : v.op.isCalm with
    | true =>
      have hskip : ∀ visits, entries (v :: visits) = entries visits := fun visits => by simp [entries, hv]
      obtain ⟨before, u, after, rfl, hbef, hu⟩ := ih (by rwa [hskip] at h)
      exact ⟨v :: before, u, after, rfl, (hskip before).trans hbef, hu⟩
    | false =>
      have hcnt : ∀ visits, entries (v :: visits) = entries visits + 1 := fun visits => by simp [entries, hv]
      cases n with
      | zero => exact ⟨[], v, visits, rfl, rfl, hv⟩
      | succ n =>
        obtain ⟨before, u, after, rfl, hbef, hu⟩ := ih (n := n) (by rw [hcnt] at h; omega)
        exact ⟨v :: before, u, after, rfl, (hcnt before).trans (congrArg (· + 1) hbef), hu⟩

namespace StageContext

variable {s : StageContext} {lowered : Lowered}

theorem geometryIndexOutput_lt : s.reservations.geometryVertexOutput < s.reservations.geometryIndexOutput ∧
    s.reservations.geometryIndexOutput < s.reservations.storageBuffers := by
  have hverts : s.reservations.geometryVertexOutput = s.reservations.feedbackStorage + 1 := rfl
  have hidxs : s.reservations.geometryIndexOutput = s.reservations.feedbackStorage + 2 := rfl
  have hall : s.reservations.storageBuffers = s.reservations.feedbackStorage + 3 := rfl
  omega

theorem useStorageBuffer_ne (hstg : s.config.stage = .geometry)
    (hbindings : s.reservations.storageBuffers + s.emulatedResources.guestStorage.length < size) (slot : Nat) :
    ofNat (s.emulatedResources.useStorageBuffer slot).1 ≠ ofNat s.reservations.geometryIndexOutput := by
  have hbind : (s.emulatedResources.useStorageBuffer slot).1 =
      s.reservations.storageBuffers + s.emulatedResources.guestStorage.idxOf slot := by
    rw [← s.extends_emulatedResources.reservations.trans (s.resources_geometry hstg).1]
    unfold Resources.useStorageBuffer
    split <;> rfl
  have hle := idxOf_le_length (l := s.emulatedResources.guestStorage) (a := slot)
  have hlt := (geometryIndexOutput_lt (s := s)).2
  have hsize : s.reservations.geometryIndexOutput < size := by omega
  rw [hbind]
  intro heq
  exact absurd (ofNat_inj (Nat.lt_of_le_of_lt (Nat.add_le_add_left hle _) hbindings) hsize heq) (by omega)

/-- An invocation of an emulated geometry stage keeps to the range of indices of its primitive
just as long as it appends no more entries, for vertices and for ends of primitives
together, than the range has elements. -/
theorem keepsTo_indexRange_iff (hstage : s.config.stage = .geometry) (hguest : s.config.guestStage = .geometry)
    (hbindings : s.reservations.storageBuffers + s.emulatedResources.guestStorage.length < UInt32.size)
    (hlower : s.lower true (s.prepared true) {} {} = .ok lowered) {r : Routine}
    (hr : Routine.ofOperations lowered.ops lowered.ids = .ok r) :
    ∃ code, (∀ pc op, lowered.ops[pc]? = some op →
        Pass.Turns (s.passContext lowered) lowered.ids.temps (s.passes lowered) [op] (code pc)) ∧
      (s.passed lowered r).routine.RunsAs lowered.ops code ∧
      ∀ {σ : Type u} {w : World} (M : Device σ w Cell.Private), w.Compares →
      ∀ {count primitive instanceId start}, M.Works s.reservations count primitive instanceId start →
        (instanceId * count + primitive + 1) * s.config.indexStride < UInt32.size → ∀ n visits last,
        Spliced.run M.toInterpretation lowered.ops code n (some 0, start) = (visits, last) →
        (M.KeepsTo s.config s.reservations (instanceId * count + primitive) s.config.indexStride visits ↔
          Visit.entries visits ≤ s.config.indexStride) := by
  obtain ⟨code, hcode, hruns⟩ := exists_code hstage hguest hlower hr
  refine ⟨code, hcode, hruns, fun M hcompares count primitive instanceId start hworks hrange n visits last hrun => ?_⟩
  let P := instanceId * count + primitive
  let stride := s.config.indexStride
  have hstride : stride < UInt32.size := Nat.lt_of_le_of_lt (Nat.le_mul_of_pos_left _ (Nat.succ_pos _)) hrange
  obtain ⟨⟨body, rest, hvisits, hlogs, hcalm, hrest⟩, -⟩ := invokes_geometry
    (G := fun n => UInt32.ofNat n ≠ UInt32.ofNat s.reservations.geometryIndexOutput) hstage hguest hlower hr
    (fun _ _ slot _ _ _ => useStorageBuffer_ne hstage hbindings slot) hcode hcompares hstride hworks n
  obtain rfl : visits = body ++ rest := by rw [← hvisits, hrun]
  have hentries : Visit.entries (body ++ rest) = Visit.entries body := by
    rw [Visit.entries_append, (Visit.count_calm hcalm).2, Nat.add_zero]
  obtain ⟨-, hreservations⟩ := lowered_geometry hstage hlower
  have hcontext : (s.passContext lowered).resources.reservations = s.reservations := hreservations
  rw [hcontext] at hrest
  rw [hentries]
  refine ⟨fun hkeeps => ?_, fun hle => ?_⟩
  · by_contra hmore
    -- the entry behind a full range is the first one of the next range
    obtain ⟨before, v, after, rfl, hbefore, hv⟩ := Visit.exists_entry (Nat.lt_of_not_le hmore)
    obtain ⟨value, hmem⟩ := (hlogs before v after rfl).exists_entry hv
    rw [hcontext, hbefore] at hmem
    obtain ⟨j, hj, heq⟩ := hkeeps _ (List.mem_flatMap.2 ⟨v, by simp, hmem⟩) rfl
    have hwords : UInt32.ofNat (P * stride + stride) = UInt32.ofNat (P * stride + j) := by
      have haddress := congrArg Cell.address heq
      exact (List.cons.inj (List.cons.inj (List.cons.inj haddress).2).2).1
    rw [Nat.succ_mul] at hrange
    exact absurd (ofNat_inj hrange (Nat.lt_trans (Nat.add_lt_add_left hj _) hrange) hwords) (by omega)
  · have hvertices : UInt32.ofNat s.reservations.geometryVertexOutput ≠ UInt32.ofNat s.reservations.geometryIndexOutput := by
      obtain ⟨hlt, hlt'⟩ := geometryIndexOutput_lt (s := s)
      have hsize : s.reservations.geometryIndexOutput < UInt32.size := by omega
      intro heq
      exact absurd (ofNat_inj (Nat.lt_trans hlt hsize) hsize heq) (Nat.ne_of_lt hlt)
    rw [← hcontext] at hlogs hvertices
    have hbody := Device.keepsTo_logged hlogs hvertices
    rw [hcontext] at hbody
    refine (hbody.mono hle).append ?_
    intro entry hentry hindex
    obtain ⟨j, hj, hentry⟩ := List.mem_flatMap.1 (hrest.subset hentry)
    obtain rfl := List.mem_singleton.1 hentry
    refine ⟨j, ?_, rfl⟩
    obtain ⟨hge, hlt⟩ : _ ≤ j ∧ j < Visit.entries body % UInt32.size + (stride - Visit.entries body % UInt32.size) :=
      List.mem_range'_1.1 hj
    omega

/-- Ends three primitives and emits no vertex. -/
def cutting : StageContext :=
  let program : Guest.Program :=
    { blocks := [⟨0, [⟨0, {}, .out false true⟩, ⟨8, {}, .out false true⟩, ⟨16, {}, .out false true⟩,
      ⟨24, {}, .exit⟩]⟩] }
  ofProgram program { stage := .geometry } default {}

def cuttingLowered : Lowered := (cutting.lower true (cutting.prepared true) {} {}).toOption.get (by decide +kernel)

def cuttingRoutine : Routine :=
  (Routine.ofOperations cuttingLowered.ops cuttingLowered.ids).toOption.get (by decide +kernel)

theorem keepsTo_indexRange_iff_cutting :
    ∃ code, (cutting.passed cuttingLowered cuttingRoutine).routine.RunsAs cuttingLowered.ops code ∧
      ∀ n visits last, Spliced.run (comparing.device Cell.Private).toInterpretation cuttingLowered.ops code n
        (some 0, assembling) = (visits, last) →
      ((comparing.device Cell.Private).KeepsTo cutting.config cutting.reservations 6 2 visits ↔
        Visit.entries visits ≤ 2) := by
  obtain ⟨code, -, hruns, hkeeps⟩ := @keepsTo_indexRange_iff cutting cuttingLowered rfl rfl (by decide +kernel)
    (eq_ok_get _) cuttingRoutine (eq_ok_get _)
  refine ⟨code, hruns, fun n visits last hrun => ?_⟩
  exact hkeeps (comparing.device Cell.Private) compares_comparing (works_assembling _) (by decide) n visits last hrun

/-- The third restart goes to the first element of the range of the next primitive. -/
theorem cutting_leaves_range : (∀ op ∈ cuttingLowered.ops, op.inst ≠ .emitVertex) ∧
      (comparing.device Cell.Private).Works cutting.reservations 5 1 1 assembling ∧
      (cutting.reservations.indexCell ((6 + 1) * cutting.config.indexStride), 0xffffffff) ∈
        (comparing.device Cell.Private).written
          (((cutting.passed cuttingLowered cuttingRoutine).routine.run
            (comparing.device Cell.Private).toInterpretation 4
            (some 0, assembling)).1.map (cutting.passed cuttingLowered cuttingRoutine).routine.op) assembling :=
  ⟨by decide +kernel, works_assembling _, by decide +kernel⟩

end StageContext
end ShaderRecompiler
