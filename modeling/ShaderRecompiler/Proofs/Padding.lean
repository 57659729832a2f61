import ShaderRecompiler.Proofs.Course
import ShaderRecompiler.Proofs.Strips

/-! The rest of a primitive's index range. Where the program of an emulated geometry stage
ends, a loop fills the entries of the range that are still free with the restart index. -/
namespace ShaderRecompiler

open List Operation Instruction Spliced UInt32

open UInt32 (ofNat size)

universe u

variable {l : Lowering} {count indices instanceId primitive temp vertices : Nat} {w : World} {s : σ}

/-- Comparisons of words with a bound decide which one is greater. -/
def World.Compares (w : World) : Prop :=
  ∀ a b : UInt32, w.compute (.compare .greaterOrEqual .u32) .none [a, b] ≠ 0 ↔ b ≤ a

theorem Device.written_run (M : Device σ w owns) (ops : List Operation)
    (code : Nat → List Operation) (n : Nat) (c : Option Nat × σ) :
    ((run M.toInterpretation ops code n c).1.flatMap fun v => M.written v.code v.state) =
      M.written ((run M.toInterpretation ops code n c).1.flatMap Visit.code) c.2 := by
  induction n generalizing c with
  | zero => rfl
  | succ n ih =>
    rw [run_succ, flatMap_append, flatMap_append, written_append, ih]
    obtain ⟨hvisit, hstep⟩ | ⟨pc, op, -, -, -, hvisit, hstep⟩ :=
      visit_cases M.toInterpretation ops code c
    · rw [hvisit, hstep]
      rfl
    · rw [hvisit, hstep, flatMap_singleton, flatMap_singleton]

namespace Device

variable {M : Device σ w Cell.Private}

theorem performs_padTest (temp : Nat) (h : M.Tally l.reservations count primitive instanceId vertices indices s) :
    M.read (.temp temp) (M.performAll (l.padTest 3 temp) s) = ofNat indices ∧
      M.read (.temp (temp + 1)) (M.performAll (l.padTest 3 temp) s) = w.compute (.compare .greaterOrEqual .u32) .none
        [ofNat indices, ofNat l.config.indexStride] ∧
      M.Tally l.reservations count primitive instanceId vertices indices (M.performAll (l.padTest 3 temp) s) := by
  have hruns : M.Runs (Emit.load .localMemory [.word 3] >>= fun n =>
      Emit.compare .greaterOrEqual .u32 n (.word l.config.indexStride) >>= fun done => pure (n, done))
      { ids := { temps := temp } } s fun a e' s' => M.Onward (fun _ => False) { ids := { temps := temp } } s e' s' ∧
        M.Means e' s' a.1 (ofNat indices) ∧ M.Means e' s' a.2 (w.compute (.compare .greaterOrEqual .u32) .none
          [ofNat indices, ofNat l.config.indexStride]) := by
    apply Runs.bind (Runs.load (W := fun _ => False) (.cons (M.means_word ..) .nil) (.inl rfl) h.indices_eq)
    rintro n e₁ s₁ ⟨h₁, hn⟩
    apply Runs.bind (Runs.value (W := fun _ => False) (.cons hn (.cons (M.means_word ..) .nil)) rfl (by simp) rfl)
    rintro done e₂ s₂ ⟨h₂, hdone⟩
    exact Runs.pure ⟨h₁.trans h₂, hn.mono h₂, hdone⟩
  obtain ⟨honw, hn, hdone⟩ := hruns.of_append (l.padTest 3 temp) rfl
  exact ⟨hn.read, hdone.read, h.onward (honw.mono fun _ => False.elim)⟩

/-- The number of the primitive is computed where it is loaded. -/
theorem performs_padLoad {x : PassContext} (hmemory : x.resources.emulation = some (.geometry 0 1 2 3))
    (hrec : ∀ slot ∈ x.resources.reservations.inputRecord, slot.io.isRecorded)
    (h : M.Tally x.resources.reservations count primitive instanceId vertices indices s) {ids : Ids}
    (hids : temp + 2 < ids.temps) {code : List Operation}
    (hcode : code = (GeometryEmulation.expansion x).piece ids (Lowering.padLoad temp)) :
    M.written code s = [] ∧ M.read (.temp temp) (M.performAll code s) = M.read (.temp temp) s ∧
      M.read (.temp (temp + 2)) (M.performAll code s) = ofNat (instanceId * count + primitive) ∧
      M.Tally x.resources.reservations count primitive instanceId vertices indices (M.performAll code s) := by
  let g := GeometryEmulation.mk x 0 1 2 3
  have hoff : (Lowering.padLoad temp).recordOffset? g.reservations .input = none :=
    recordOffset?_eq_none (ioVariable?_cons rfl rfl) rfl hrec
  have hexp : GeometryEmulation.expansion x (Lowering.padLoad temp) =
      (g.primitiveId >>= fun p => Emit.copy (.temp (temp + 2)) p >>= fun _ => pure .drop) := by
    rw [GeometryEmulation.expansion_of_load hmemory rfl, GeometryEmulation.expandInput, hoff]
    rfl
  obtain ⟨added, hadd, -, honw, hmeans⟩ := runs_primitiveId (g := g) (e := { ids }) h.toWorks
  have hcopied : code = added ++ [⟨.copy, .none, some (.temp (temp + 2)), [(g.primitiveId.run { ids }).1]⟩] := by
    rw [hcode, Expansion.piece, hexp]
    change ((g.primitiveId.run { ids }).2.ops.push _).toList ++ [] = _
    rw [append_nil, Array.toList_push, hadd]
    rfl
  have hquiet : ∀ op ∈ added, op.isStore .storageBuffer = false := by
    intro op hop
    simp [isStore, g.unstored_primitiveId.of_append hadd op hop]
  rw [hcopied, written_append, written_eq_nil hquiet, performAll_append]
  refine ⟨rfl, ?_, ?_, ?_⟩
  · refine (M.read_kept _ _ _ fun hdest => ?_).trans (honw.reads _ ?_)
    · exact absurd (Operand.temp.inj (Option.some.inj hdest)) (by omega)
    · rintro t ⟨⟩
      exact Nat.lt_of_add_right_lt hids
  · exact (M.read_result _ _ _ rfl rfl rfl).trans hmeans.read
  · refine (h.onward (honw.mono fun _ => False.elim)).congr fun c hc => ?_
    exact M.cell_kept _ c _ hc.private fun hstore => by cases hstore

theorem performs_padEntry (h : M.Tally l.reservations count primitive instanceId vertices indices s)
    (hidxs : M.read (.temp temp) s = ofNat indices)
    (hprim : M.read (.temp (temp + 2)) s = ofNat (instanceId * count + primitive)) :
    M.written (l.padEntry 3 temp) s = restartEntry l.config l.reservations (instanceId * count + primitive) indices ∧
      M.Tally l.reservations count primitive instanceId vertices (indices + 1)
        (M.performAll (l.padEntry 3 temp) s) := by
  let e : Emitter := { ids := { temps := temp + 3 } }
  have hn : M.Means e s (.temp temp) (ofNat indices) :=
    ⟨by rintro t ⟨⟩; exact Nat.lt_add_of_pos_right (by decide), hidxs⟩
  have hp : M.Means e s (.temp (temp + 2)) (ofNat (instanceId * count + primitive)) :=
    ⟨by rintro t ⟨⟩; exact Nat.lt_succ_self _, hprim⟩
  have hwrites : M.Writes (Emit.imul (.temp (temp + 2)) (.word l.config.indexStride) >>= fun base =>
      Emit.iadd base (.temp temp) >>= fun index =>
      Emit.store .storageBuffer [.word l.reservations.geometryIndexOutput, .word 0, index,
        .constant 0xffffffff] >>= fun _ =>
      Emit.iadd (.temp temp) (.word 1) >>= fun next =>
      Emit.store .localMemory [.word 3, next]) e s
      (restartEntry l.config l.reservations (instanceId * count + primitive) indices)
      fun _ _ s' => M.Tally l.reservations count primitive instanceId vertices (indices + 1) s' := by
    refine Writes.after_runs (Runs.imul (W := fun _ => False) hp (M.means_word ..)) (.value fun _ _ => rfl) ?_
    rintro base e₁ s₁ ⟨h₁, hbase⟩
    refine Writes.after_runs (Runs.iadd (W := fun _ => False) hbase (hn.mono h₁)) (.value fun _ _ => rfl) ?_
    rintro index e₂ s₂ ⟨h₂, hidx⟩
    rw [← ofNat_mul, ← ofNat_add] at hidx
    rw [restartEntry, ← append_nil [_]]
    refine Writes.bind (Writes.store [.word l.reservations.geometryIndexOutput, .word 0, index]
      (·.storage = .storageBuffer) rfl
      (means_words (.cons hidx .nil)) (M.means_constant ..)) ?_
    intro _ e₃ s₃ h₃
    refine Writes.after_runs (Runs.iadd (W := fun _ => False) (((hn.mono h₁).mono h₂).mono h₃) (M.means_word ..))
      (.value fun _ _ => rfl) ?_
    rintro next e₄ s₄ ⟨h₄, hnext⟩
    have htally := ((h.onward ((h₁.trans h₂).mono fun _ => False.elim)).onward h₃).onward (h₄.mono fun _ => False.elim)
    refine Writes.of_runs ((Runs.store (.cons (M.means_word ..) .nil) hnext (.inl rfl)).mono ?_) (.op rfl)
    rintro - e₅ s₅ ⟨h₅, hcell⟩
    refine ⟨htally.toWorks.onward h₅ (by rintro c rfl; simp), ?_, ?_⟩
    · exact (h₅.cells (counterCell 2) (.inl rfl) (by simp [counterCell])).trans htally.vertices_eq
    · exact hcell.trans (ofNat_add ..).symm
  obtain ⟨added, hadd, hwr, htally⟩ := hwrites
  obtain rfl : added = l.padEntry 3 temp := hadd.symm
  exact ⟨hwr, htally⟩

end Device

/-- Everywhere in the list stands the code of the geometry pass, with new temporaries. -/
def GeometryEmulation.Fills (x : PassContext) (floor : Nat) (ops : List Operation)
    (code : Nat → List Operation) : Prop :=
  ∀ pc op, ops[pc]? = some op → ∃ ids : Ids, floor ≤ ids.temps ∧ code pc = (expansion x).piece ids op

/-- Neither emits a vertex nor ends a primitive. -/
def Operation.isCalm (op : Operation) : Bool := op.inst != .emitVertex && op.inst != .endPrimitive

/-- What fills a range of indices from an entry on. -/
def restarts (c : Config) (r : Reservations) (primitive first : Nat) : List (Cell × UInt32) :=
  (range' first (c.indexStride - first)).flatMap (restartEntry c r primitive)

/-- The visits write `log`, and are all calm. -/
structure Device.Pads {σ : Type u} {w : World} {owns : Cell → Prop} (M : Device σ w owns) (log : List (Cell × UInt32))
    (visits : List (Visit σ)) : Prop where
  written_eq : visits.flatMap (fun v => M.written v.code v.state) = log
  calm : ∀ v ∈ visits, v.op.isCalm

namespace Lowering

open Device

section Loop

variable {host : Host} {ops plain : List Operation} {code : Nat → List Operation} {floor pc head : Nat}
    {M : Device σ w Cell.Private}
  (hmemory : l.resources.emulation = some (.geometry 0 1 2 3))
  (hfills : GeometryEmulation.Fills ⟨l.config, l.resources, host⟩ floor ops code)
include hmemory hfills

theorem stands_plain (h : Flat.Stands ops pc plain)
    (hpln : ∀ op ∈ plain, op.isAway = false ∧ op.accessesOutput = false) :
    Stands ops code pc (plain.map fun op => (op, [op])) := by
  refine ⟨by rw [map_map]; simpa [Function.comp_def] using h, fun i _ hp => ?_⟩
  rw [getElem?_map] at hp
  obtain ⟨op, hop, rfl⟩ := Option.map_eq_some_iff.1 hp
  obtain ⟨ids, -, hpiece⟩ := hfills (pc + i) op (by rw [h.getElem? (List.getElem?_eq_some_iff.1 hop).1, hop])
  obtain ⟨haway, hacc⟩ := hpln op (mem_of_getElem? hop)
  have hems := GeometryEmulation.emulates_aside (x := ⟨l.config, l.resources, host⟩) hmemory (by decide) (by decide)
  rw [hpiece, Expansion.piece, hems.other op haway hacc]
  rfl

theorem run_plain (h : Flat.Stands ops pc plain)
    (hpln : ∀ op ∈ plain, op.inst.isStraight ∧ op.isAway = false ∧ op.accessesOutput = false)
    (M : Device σ w Cell.Private) (s : σ) :
    ∃ visits, run M.toInterpretation ops code plain.length (some pc, s) =
        (visits, some (pc + plain.length), M.performAll plain s) ∧
      visits.flatMap (fun v => M.written v.code v.state) = M.written plain s ∧ visits.map Visit.op = plain := by
  have hflat : (plain.map fun op => (op, [op])).flatMap Prod.snd = plain := by
    rw [flatMap_map]
    exact flatMap_singleton' plain
  have hstr : ∀ p ∈ plain.map fun op => (op, [op]), p.1.inst.isStraight := by
    intro p hp
    obtain ⟨op, hop, rfl⟩ := mem_map.1 hp
    exact (hpln op hop).1
  obtain ⟨visits, hrun, hops, hcodes⟩ := run_straight (I := M.toInterpretation)
    (stands_plain hmemory hfills h fun op hop => (hpln op hop).2) hstr s
  rw [hflat, length_map] at hrun
  have hwr := M.written_run ops code plain.length (some pc, s)
  have hcode : visits.flatMap Visit.code = plain := by rw [flatMap_def, hcodes, ← flatMap_def, hflat]
  rw [hrun, hcode] at hwr
  exact ⟨visits, hrun, hwr, by simpa [Function.comp_def] using hops⟩

variable (hstands : Flat.Stands ops pc (l.padding 3 head temp ++ [.returning])) (hnodup : (ops.flatMap marks).Nodup)
  (htally : M.Tally l.reservations count primitive instanceId vertices indices s)
include hstands hnodup htally

theorem run_padTest : ∃ visits, run M.toInterpretation ops code 4 (some pc, s) =
      (visits, some (if w.compute (.compare .greaterOrEqual .u32) .none
        [ofNat indices, ofNat l.config.indexStride] ≠ 0 then pc + 11 else pc + 4),
        M.performAll (l.padTest 3 temp) s) ∧ M.Pads [] visits := by
  have hmark : run M.toInterpretation ops code 1 (some pc, s) = ([], some (pc + 1), s) :=
    run_marks hstands.left.left (by simp [marking]) s
  have hpln : ∀ op ∈ l.padTest 3 temp, op.inst.isStraight ∧ op.isAway = false ∧ op.accessesOutput = false := by
    simp [padTest, isStraight, isAway, accessesOutput, isLoad, isStore]
  obtain ⟨visits, hrun, hwr, hops⟩ := run_plain hmemory hfills hstands.left.right.left hpln M s
  have hrun : run M.toInterpretation ops code 2 (some (pc + 1), s) =
      (visits, some (pc + 3), M.performAll (l.padTest 3 temp) s) := hrun
  obtain ⟨-, hread, -⟩ := performs_padTest temp htally
  have htgt : Flat.mark? ops (head + 1) = some (pc + 11) :=
    Flat.mark?_eq hnodup (hstands.getElem? (i := 11) (by simp [padding, padTest, padEntry])) mem_cons_self
  have htrue : (branchIfTrue == branchIfFalse) = false := rfl
  have hbr : ops[pc + 3]? = some _ := hstands.left.right.right.head
  refine ⟨visits, ?_, ?_, fun _ hv => ?_⟩
  · change run M.toInterpretation ops code (1 + (2 + 1)) (some pc, s) = _
    rw [stepwise.chain hmark, stepwise.chain hrun, run_bent_one hbr rfl, Flat.follow_conditional rfl]
    simp [source?, M.holds_eq, hread, Flat.target?, Operand.asLabel?, htgt, htrue, apply_ite]
  · rw [hwr]
    exact written_eq_nil (by simp [padTest, isStore]) s
  · have hcalm : ∀ op ∈ l.padTest 3 temp, op.isCalm := by simp [padTest, isCalm]
    exact hcalm _ (hops ▸ mem_map_of_mem hv)

theorem run_padding_done (hdone : w.compute (.compare .greaterOrEqual .u32) .none
      [ofNat indices, ofNat l.config.indexStride] ≠ 0) :
    ∃ visits s', run M.toInterpretation ops code 6 (some pc, s) = (visits, none, s') ∧ M.Pads [] visits := by
  obtain ⟨visits, hrun, hpads⟩ := run_padTest hmemory hfills hstands hnodup htally
  rw [if_pos hdone] at hrun
  have hmark : run M.toInterpretation ops code 1 (some (pc + 11), M.performAll (l.padTest 3 temp) s) =
      ([], some (pc + 12), M.performAll (l.padTest 3 temp) s) :=
    run_marks hstands.left.right.right.tail.right.tail (by simp [marking]) _
  have hret : ops[pc + 12]? = some .returning := hstands.right.head
  refine ⟨visits, M.performAll (l.padTest 3 temp) s, ?_, hpads⟩
  change run M.toInterpretation ops code (4 + (1 + 1)) (some pc, s) = _
  rw [stepwise.chain hrun, stepwise.chain hmark, run_bent_one hret rfl, nil_append, append_nil]
  rfl

/-- A range with a free entry: it is filled, and control is back at the test. -/
theorem run_padding_more (hrec : ∀ slot ∈ l.reservations.inputRecord, slot.io.isRecorded)
    (hfloor : temp + 2 < floor) (hmore : w.compute (.compare .greaterOrEqual .u32) .none
      [ofNat indices, ofNat l.config.indexStride] = 0) :
    ∃ visits s', run M.toInterpretation ops code 11 (some pc, s) = (visits, some pc, s') ∧
      M.Tally l.reservations count primitive instanceId vertices (indices + 1) s' ∧
      M.Pads (restartEntry l.config l.reservations (instanceId * count + primitive) indices) visits := by
  obtain ⟨visits, hrun, hnothing, hcalm⟩ := run_padTest hmemory hfills hstands hnodup htally
  rw [if_neg (not_not.2 hmore)] at hrun
  obtain ⟨hidxs, -, htested⟩ := performs_padTest temp htally
  -- the pass has put the number of the primitive in the place of the load
  have hload : ops[pc + 4]? = some (padLoad temp) := hstands.left.right.right.tail.head
  obtain ⟨ids, hids, hpiece⟩ := hfills (pc + 4) (padLoad temp) hload
  obtain ⟨hquiet, hkept, hprim, hloaded⟩ := performs_padLoad (x := ⟨l.config, l.resources, host⟩) hmemory hrec
    htested (Nat.lt_of_lt_of_le hfloor hids) hpiece
  have hstep : run M.toInterpretation ops code 1 (some (pc + 4), M.performAll (l.padTest 3 temp) s) =
      ([⟨padLoad temp, code (pc + 4), M.performAll (l.padTest 3 temp) s⟩], some (pc + 5),
        M.performAll (code (pc + 4)) (M.performAll (l.padTest 3 temp) s)) := run_straight_one hload rfl
  generalize hloaded' : M.performAll (code (pc + 4)) (M.performAll (l.padTest 3 temp) s) = t at *
  have hpln : ∀ op ∈ l.padEntry 3 temp, op.inst.isStraight ∧ op.isAway = false ∧ op.accessesOutput = false := by
    simp [padEntry, isStraight, isAway, accessesOutput, isLoad, isStore]
  obtain ⟨visits', hent, hentries, hops⟩ := run_plain hmemory hfills hstands.left.right.right.tail.tail.left hpln M t
  have hent : run M.toInterpretation ops code 5 (some (pc + 5), t) =
      (visits', some (pc + 10), M.performAll (l.padEntry 3 temp) t) := hent
  obtain ⟨hwr, hcounted⟩ := performs_padEntry hloaded (hkept.trans hidxs) hprim
  have hback : run M.toInterpretation ops code 1 (some (pc + 10), M.performAll (l.padEntry 3 temp) t) =
      ([], some pc, M.performAll (l.padEntry 3 temp) t) := by
    have hjump : ops[pc + 10]? = some ⟨.branch, .none, none, [.label head]⟩ :=
      hstands.left.right.right.tail.right.head
    rw [run_bent_one hjump rfl]
    exact congrArg₂ (fun place t => ([], place, t)) (Flat.mark?_eq hnodup hstands.head mem_cons_self) rfl
  refine ⟨visits ++ ⟨padLoad temp, code (pc + 4), M.performAll (l.padTest 3 temp) s⟩ :: visits', _,
    ?_, hcounted, ?_, ?_⟩
  · change run M.toInterpretation ops code (4 + (1 + (5 + 1))) (some pc, s) = _
    rw [stepwise.chain hrun, stepwise.chain hstep, stepwise.chain hent, hback]
    simp
  · rw [flatMap_append, flatMap_cons, hnothing, hquiet, hentries, hwr]
    rfl
  · have hcalm' : ∀ op ∈ padLoad temp :: l.padEntry 3 temp, op.isCalm := by
      simp [padLoad, padEntry, isCalm]
    rw [← hops] at hcalm'
    obtain ⟨hfst, hrest⟩ := forall_mem_cons.1 hcalm'
    exact forall_mem_append.2 ⟨hcalm, forall_mem_cons.2 ⟨hfst, forall_mem_map.1 hrest⟩⟩

theorem run_padding (hcompares : w.Compares) (hrec : ∀ slot ∈ l.reservations.inputRecord, slot.io.isRecorded)
    (hfloor : temp + 2 < floor) (hstride : l.config.indexStride < size) (hidxs : indices < size) :
    ∃ m visits s', run M.toInterpretation ops code m (some pc, s) = (visits, none, s') ∧
      M.Pads (restarts l.config l.reservations (instanceId * count + primitive) indices) visits := by
  have hcompare : ∀ n < size, w.compute (.compare .greaterOrEqual .u32) .none
      [ofNat n, ofNat l.config.indexStride] ≠ 0 ↔ l.config.indexStride ≤ n := by
    intro n hn
    rw [hcompares, le_iff_toNat_le, toNat_ofNat_of_lt' hstride, toNat_ofNat_of_lt' hn]
  unfold restarts
  induction hfree : l.config.indexStride - indices generalizing indices s with
  | zero =>
    obtain ⟨visits, s', hrun, hpads⟩ :=
      run_padding_done hmemory hfills hstands hnodup htally ((hcompare indices hidxs).2 (by omega))
    exact ⟨6, visits, s', hrun, hpads⟩
  | succ free ih =>
    have hlt : indices < l.config.indexStride := by omega
    obtain ⟨visits, s', hrun, hcounted, hwr, hcalm⟩ := run_padding_more hmemory hfills hstands hnodup htally hrec
      hfloor (not_not.1 fun h => absurd ((hcompare indices hidxs).1 h) (Nat.not_le.2 hlt))
    obtain ⟨m, visits', s'', hrun', hwr', hcalm'⟩ := ih hcounted (Nat.lt_of_le_of_lt hlt hstride) (by omega)
    refine ⟨11 + m, visits ++ visits', s'', ?_, ?_, forall_mem_append.2 ⟨hcalm, hcalm'⟩⟩
    · rw [stepwise.chain hrun, hrun']
    · rw [flatMap_append, hwr, hwr', range'_succ, flatMap_cons]

end Loop
end Lowering
end ShaderRecompiler
