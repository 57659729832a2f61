import ShaderRecompiler.Proofs.Cutting
import ShaderRecompiler.Proofs.Joining
import ShaderRecompiler.Proofs.Recording

/-! Outputs of an emulated stage, before and after its passes. Wherever the two programs
stand at corresponding points, the word of the record holds what the output holds, as
long as all that is read from outside is the same for both. -/
namespace ShaderRecompiler

open List Operation IoVariable Routine RecordUsage

universe u v

variable {record : List Slot} {first : Nat} {op : Operation} {r : Routine} {s : StageContext}

/-- Reads or writes an output that a record can hold. -/
def Operation.accessesRecord (op : Operation) : Bool := op.accessesOutput && op.ioVariable?.any isRecorded

/-- An access to the output of a word. -/
structure Operation.AccessesSlot (c : Config) (op : Operation) (slot : Slot) : Prop where
  ioVariable?_eq : op.ioVariable? = some slot.io
  slot?_eq : op.slot? = some slot
  dest_eq : op.inst = .store → op.dest = none
  sources : ∃ vertex trailing, length trailing = (if op.inst == .store then 1 else 0) ∧
    op.sources = c.accessSources .output slot.io (.word slot.location) vertex (.word slot.component) ++ trailing

namespace StageContext

/-- An access to an output is one to a word of the record, or the output is in no
record. -/
theorem output_cases (hsound : op.Sound (s.configFor true) s.Recorded B) (h : op.accessesOutput) :
    (∃ slot offset, s.record.slots[offset]? = some slot ∧ op.recordOffset? s.reservations .output = some offset ∧
      op.AccessesSlot (s.configFor true) slot) ∨
    ∃ v, v.isRecorded = false ∧ op.ioVariable? = some v ∧ op.recordOffset? s.reservations .output = none ∧
      (op.inst = .store → ∃ rest, op.sources.dropLast = v.operand :: rest) := by
  have hstor := (access_of_output h).2
  have hio : op.storage.isIo := by rw [hstor]; rfl
  obtain ⟨v, location, vertex, component, haccess, hplc, hdest⟩ := hsound.access hio
  have hvar := haccess.ioVariable?_eq hio
  have hslot := haccess.slot?_eq hio
  obtain ⟨trailing, hlen, hsrc⟩ := haccess.sources
  have hoffset := op.recordOffset?_eq s.reservations .output
  cases hrec : v.isRecorded with
  | true =>
    obtain ⟨slot, hmem, rfl, rfl, rfl⟩ := hplc hstor hrec
    rw [slotAt?_of_mem hmem] at hslot
    obtain ⟨offset, hget⟩ := getElem?_of_mem hmem
    refine .inl ⟨slot, offset, hget, ?_, hvar, hslot, hdest, vertex, trailing, hlen, ?_⟩
    · rw [hoffset, hslot]
      exact (idxOf?_eq_some_iff (nodup_slots _)).2 hget
    · rwa [hstor] at hsrc
  | false =>
    refine .inr ⟨v, hrec, hvar, ?_, fun hstore => ?_⟩
    · exact recordOffset?_eq_none hvar hrec fun _ hslot => isRecorded_of_mem hslot
    · rw [hstore] at hlen
      obtain ⟨value, rfl⟩ := length_eq_one_iff.1 hlen
      rw [hsrc, dropLast_concat]
      exact ⟨_, rfl⟩

end StageContext

namespace Device

section Aside

variable {σ : Type u} {M : Device σ w owns}

theorem read_aside (h : op.Aside first result) (htemp : ∀ t, o = .temp t → t < first)
    (hres : result ≠ some o) (s : σ) : M.read o (M.perform op s) = M.read o s := by
  apply M.read_kept
  intro hdest
  obtain ⟨t, ht, rfl⟩ | heq := h.assigns o hdest
  · exact absurd (htemp t rfl) (Nat.not_lt.2 ht)
  · exact absurd heq hres

theorem cell_of_block (hblk : op.isStore .localMemory →
      ∃ n rest, op.sources = .word n :: rest ∧ UInt32.ofNat n ≠ 0) (howns : owns (recordCell 0 offset))
    (s : σ) : M.cell (recordCell 0 offset) (M.perform op s) = M.cell (recordCell 0 offset) s := by
  apply M.cell_kept _ _ s howns
  intro hstore htgt
  have hlocal : op.storage = .localMemory := (congrArg Cell.storage htgt).symm
  obtain ⟨n, rest, hsrc, hn⟩ := hblk (by simp [Operation.isStore, hstore, hlocal])
  have haddr := congrArg Cell.address htgt
  simp only [recordCell, Operation.target, hsrc] at haddr
  cases rest with
  | nil => cases haddr
  | cons o rest =>
    obtain ⟨hhead, -⟩ := List.cons.inj haddr
    exact hn (hhead.trans (M.read_constant _ s)).symm

theorem performAll_aside {code : List Operation} (hcode : ∀ o ∈ code, o.Aside first result) (s : σ) :
    (∀ o, (∀ t, o = .temp t → t < first) → result ≠ some o → M.read o (M.performAll code s) = M.read o s) ∧
      ∀ offset, owns (recordCell 0 offset) →
        M.cell (recordCell 0 offset) (M.performAll code s) = M.cell (recordCell 0 offset) s := by
  induction code generalizing s with
  | nil => exact ⟨fun _ _ _ => rfl, fun _ _ => rfl⟩
  | cons op code ih =>
    obtain ⟨hop, hcode⟩ := forall_mem_cons.1 hcode
    obtain ⟨hreads, hcells⟩ := ih hcode (M.perform op s)
    refine ⟨fun o htemp hres => ?_, fun offset howns => ?_⟩
    · exact (hreads o htemp hres).trans (read_aside hop htemp hres s)
    · exact (hcells offset howns).trans (cell_of_block hop.block howns s)

end Aside

variable {σ : Type u} {σ' : Type v} {w : World} {owns owns' : Cell → Prop} {M : Device σ w owns}
  {M' : Device σ' w owns'} {code : List Operation} {a : σ} {b : σ'}

/-- The operands of the program hold the same words in both states, and each output in
the first one what its word of the record holds in the second one. -/
structure Agree (M : Device σ w owns) (M' : Device σ' w owns') (record : List Slot) (first : Nat) (a : σ) (b : σ') :
    Prop where
  reads : ∀ o : Operand, o.isConstantBuffer = false → (∀ t, o = .temp t → t < first) → M.read o a = M'.read o b
  outputs : ∀ offset slot, record[offset]? = some slot → M.cell slot.cell a = M'.cell (recordCell 0 offset) b

/-- An operation and the code in its place read the same from outside, outputs of the
record apart. -/
structure ReadsAlike (M : Device σ w owns) (M' : Device σ' w owns') (op : Operation) (code : List Operation) (a : σ)
    (b : σ') : Prop where
  /-- What the operation is given. -/
  result : op.inst.readsOutside → op.accessesRecord = false → ∀ dest, op.dest = some dest →
    M.read dest (M.perform op a) = M'.read dest (M'.performAll code b)
  /-- Words of guest constant buffers among its operands. -/
  operands : op.inst.readsOutside = false → ∀ before last, code = before ++ [last] →
    ∀ p ∈ op.sources.zip last.sources, p.1.isConstantBuffer → M.read p.1 a = M'.read p.2 (M'.performAll before b)

theorem Agree.aside (h : M.Agree M' record first a b)
    (howns : ∀ offset < record.length, owns' (recordCell 0 offset)) (hcode : ∀ o ∈ code, o.Aside first none) :
    M.Agree M' record first a (M'.performAll code b) := by
  obtain ⟨hreads, hcells⟩ := performAll_aside hcode b
  refine ⟨fun o hbuf htemp => ?_, fun offset slot hslot => ?_⟩
  · exact (h.reads o hbuf htemp).trans (hreads o htemp (by simp)).symm
  · obtain ⟨hlt, -⟩ := List.getElem?_eq_some_iff.1 hslot
    exact (h.outputs offset slot hslot).trans (hcells offset (howns offset hlt)).symm

theorem map_read_settled (h : M.Agree M' record first a b) {sources : List Operand}
    (hsrc : Forall₂ (Operand.Settles first) sources sources')
    (hwithin : ∀ o ∈ sources, ∀ t, o = .temp t → t < first)
    (hbufs : ∀ p ∈ sources.zip sources', p.1.isConstantBuffer → M.read p.1 a = M'.read p.2 b) :
    Forall₂ (fun o o' => M.read o a = M'.read o' b) sources sources' := by
  induction hsrc with
  | nil => exact .nil
  | @cons o o' rest rest' ho _ ih =>
    rw [zip_cons_cons] at hbufs
    obtain ⟨hfst, hwithin⟩ := forall_mem_cons.1 hwithin
    obtain ⟨hbuf, hbufs⟩ := forall_mem_cons.1 hbufs
    refine .cons ?_ (ih hwithin hbufs)
    cases hconst : o.isConstantBuffer with
    | true => exact hbuf hconst
    | false =>
      rw [ho.eq hconst]
      exact h.reads o hconst hfst

section Step

variable (howns : ∀ slot ∈ s.record.slots, owns slot.cell)
  (howns' : ∀ offset < s.record.slots.length, owns' (recordCell 0 offset))
  (hsound : op.Sound (s.configFor true) s.Recorded fun n => UInt32.ofNat n ≠ 0)

include hsound

theorem accessesRecord_eq_false (hout : op.accessesOutput → op.recordOffset? s.reservations .output = none) :
    op.accessesRecord = false := by
  unfold accessesRecord
  cases haccess : op.accessesOutput with
  | false => rfl
  | true =>
    obtain ⟨slot, offset, -, hoffset, -⟩ | ⟨v, hrec, hvar, -⟩ := StageContext.output_cases hsound haccess
    · rw [hout haccess] at hoffset
      cases hoffset
    · simp [hvar, hrec]

include howns

theorem cell_output_kept (hout : op.accessesOutput → op.recordOffset? s.reservations .output = none)
    (hslot : slot ∈ s.record.slots) : M.cell slot.cell (M.perform op a) = M.cell slot.cell a := by
  apply M.cell_kept _ _ a (howns slot hslot)
  intro hstore htgt
  have hstor : op.storage = .output := (congrArg Cell.storage htgt).symm
  have haccess : op.accessesOutput := by simp [accessesOutput, Operation.isStore, hstore, hstor]
  obtain ⟨slot', offset, -, hoffset, -⟩ | ⟨v, hrec, -, -, hsrc⟩ := StageContext.output_cases hsound haccess
  · rw [hout haccess] at hoffset
    cases hoffset
  · obtain ⟨rest, hsrc⟩ := hsrc hstore
    have haddr := congrArg Cell.address htgt
    simp only [Slot.cell, Operation.target, hsrc, List.map_cons, List.cons_append, List.nil_append] at haddr
    obtain ⟨hhead, -⟩ := List.cons.inj haddr
    have hnum := hhead.trans (M.read_constant _ a)
    obtain rfl := number_inj (ofNat_inj (number_lt _) (number_lt _) hnum)
    rw [isRecorded_of_mem hslot] at hrec
    cases hrec

include howns'

theorem Agree.kept (h : M.Agree M' s.record.slots first a b)
    (hwithin : ∀ o ∈ op.operands, ∀ t, o = .temp t → t < first) {before : List Operation} {sources : List Operand}
    (hbef : ∀ o ∈ before, o.Aside first none)
    (hsrc : Forall₂ (Operand.Settles first) op.sources sources)
    (hout : op.accessesOutput → op.recordOffset? s.reservations .output = none)
    (hreads : M.ReadsAlike M' op (before ++ [{ op with sources }]) a b) :
    M.Agree M' s.record.slots first (M.perform op a) (M'.performAll (before ++ [{ op with sources }]) b) := by
  have hbtw := h.aside howns' hbef
  have hblk : Operation.isStore { op with sources } .localMemory →
      ∃ n rest, sources = .word n :: rest ∧ UInt32.ofNat n ≠ 0 := by
    intro hstore
    obtain ⟨n, rest, hop, hn⟩ := hsound.block hstore
    rw [hop] at hsrc
    obtain ⟨o, rest', ho, -, rfl⟩ := forall₂_cons_left_iff.1 hsrc
    exact ⟨n, rest', by rw [ho.eq rfl], hn⟩
  refine ⟨fun o hbuf htemp => ?_, fun offset slot hslot => ?_⟩
  · by_cases hdest : op.dest = some o
    · cases houtside : op.inst.readsOutside with
      | true => exact hreads.result houtside (accessesRecord_eq_false hsound hout) o hdest
      | false =>
        have hwords := map_read_settled hbtw hsrc (fun o ho => hwithin o (mem_append_right _ ho))
          (hreads.operands houtside before _ rfl)
        have hwords : op.sources.map (M.read · a) = sources.map (M'.read · (M'.performAll before b)) :=
          forall₂_eq_eq_eq ▸ forall₂_map_left_iff.2 (forall₂_map_right_iff.2 hwords)
        have hassignable := hsound.assignable o hdest
        rw [performAll_append, M.read_result op o a hdest hassignable houtside, hwords]
        exact (M'.read_result { op with sources } o _ hdest hassignable houtside).symm
    · rw [performAll_append, M.read_kept op o a fun hop => absurd hop hdest]
      refine (hbtw.reads o hbuf htemp).trans ?_
      exact (M'.read_kept { op with sources } o _ fun hop => absurd hop hdest).symm
  · obtain ⟨hlt, -⟩ := List.getElem?_eq_some_iff.1 hslot
    rw [performAll_append, cell_output_kept howns hsound hout (mem_of_getElem? hslot)]
    exact (hbtw.outputs offset slot hslot).trans (cell_of_block hblk (howns' offset hlt) _).symm

theorem Agree.away (h : M.Agree M' s.record.slots first a b) (hcode : ∀ o ∈ code, o.Aside first op.dest)
    (haway : op.isAway = true) (hreads : M.ReadsAlike M' op code a b) :
    M.Agree M' s.record.slots first (M.perform op a) (M'.performAll code b) := by
  obtain ⟨hsame, hcells⟩ := performAll_aside hcode b
  have hout := accessesOutput_of_isAway haway
  have houtside : op.inst.readsOutside = true := by
    obtain hload | hinst | hinst := isAway_iff.1 haway
    · rw [(isLoad_eq hload).1]
      rfl
    · rw [hinst]
      rfl
    · rw [hinst]
      rfl
  refine ⟨fun o hbuf htemp => ?_, fun offset slot hslot => ?_⟩
  · by_cases hdest : op.dest = some o
    · exact hreads.result houtside (by simp [accessesRecord, hout]) o hdest
    · rw [M.read_kept op o a fun hop => absurd hop hdest, hsame o htemp hdest]
      exact h.reads o hbuf htemp
  · obtain ⟨hlt, -⟩ := List.getElem?_eq_some_iff.1 hslot
    rw [cell_output_kept howns hsound (by simp [hout]) (mem_of_getElem? hslot), hcells offset (howns' offset hlt)]
    exact h.outputs offset slot hslot

end Step

theorem map_read_place (M : Device σ w owns) (offset : Nat) (a : σ) :
    [Operand.word 0, .word offset].map (M.read · a) = [UInt32.ofNat 0, UInt32.ofNat offset] :=
  map_read_of_means (.cons (M.means_word {} a 0) (.cons (M.means_word {} a offset) .nil))

section Recorded

variable {c : Config} (hguest : c.guestStage.hasArrayedOutputs = false) {slot : Slot}
  (haccess : op.accessesOutput) (hslot : op.AccessesSlot c slot)
include hguest haccess hslot

theorem source_eq_cell (hload : op.inst = .load) : op.source (M.read · a) = slot.cell := by
  obtain ⟨vertex, trailing, hlen, hsrc⟩ := hslot.sources
  rw [hload] at hlen
  obtain rfl := eq_nil_of_length_eq_zero hlen
  rw [source, hsrc, append_nil, (access_of_output haccess).2,
    map_read_of_means (M.means_access hguest slot.io slot.location slot.component vertex {} a)]
  rfl

theorem target_eq_cell (hstore : op.inst = .store) : op.target (M.read · a) = slot.cell := by
  obtain ⟨vertex, trailing, hlen, hsrc⟩ := hslot.sources
  rw [hstore] at hlen
  obtain ⟨value, rfl⟩ := List.length_eq_one_iff.1 hlen
  rw [Operation.target, hsrc, List.dropLast_concat, (Operation.access_of_output haccess).2,
    map_read_of_means (M.means_access hguest slot.io slot.location slot.component vertex {} a)]
  rfl

variable (howns : ∀ slot ∈ s.record.slots, owns slot.cell)
  (howns' : ∀ offset < s.record.slots.length, owns' (recordCell 0 offset)) {offset : Nat}
  (hoffset : s.record.slots[offset]? = some slot)
include howns howns' hoffset

theorem Agree.load (h : M.Agree M' s.record.slots first a b) (hload : op.inst = .load)
    (hassignable : ∀ dest, op.dest = some dest → dest.isAssignable) :
    M.Agree M' s.record.slots first (M.perform op a) (M'.perform (op.recorded offset) b) := by
  obtain ⟨hlt, -⟩ := List.getElem?_eq_some_iff.1 hoffset
  have hsrc := source_eq_cell (M := M) (a := a) hguest haccess hslot hload
  have hrec : op.recorded offset = ⟨.load, .localMemory, op.dest, [.word 0, .word offset]⟩ := by
    simp [recorded, hload]
  have hsrc' : (op.recorded offset).source (M'.read · b) = recordCell 0 offset := by
    rw [hrec]
    exact congrArg (Cell.mk _) (map_read_place M' offset b)
  have hinst : (op.recorded offset).inst = .load := by rw [hrec]
  have hdest' : (op.recorded offset).dest = op.dest := by rw [hrec]
  refine ⟨fun o hbuf htemp => ?_, fun offset' slot' hslot' => ?_⟩
  · by_cases hdest : op.dest = some o
    · have hmem := mem_of_getElem? hoffset
      rw [M.read_load op o a hdest (hassignable o hdest) hload (by rw [hsrc]; exact howns slot hmem), hsrc,
        M'.read_load _ o b (hdest'.trans hdest) (hassignable o hdest) hinst (by rw [hsrc']; exact howns' offset hlt),
        hsrc']
      exact h.outputs offset slot hoffset
    · rw [M.read_kept op o a fun hop => absurd hop hdest,
        M'.read_kept _ o b fun hop => absurd (hdest'.symm.trans hop) hdest]
      exact h.reads o hbuf htemp
  · obtain ⟨hlt', -⟩ := List.getElem?_eq_some_iff.1 hslot'
    rw [M.cell_kept op _ a (howns slot' (mem_of_getElem? hslot')) (by simp [hload]),
      M'.cell_kept _ _ b (howns' offset' hlt') (by simp [hinst])]
    exact h.outputs offset' slot' hslot'

/-- A store to an output is one to its word. -/
theorem Agree.store (h : M.Agree M' s.record.slots first a b) (hstore : op.inst = .store)
    (hstored : M.read op.stored a = M'.read op.stored b) :
    M.Agree M' s.record.slots first (M.perform op a) (M'.perform (op.recorded offset) b) := by
  obtain ⟨hlt, -⟩ := List.getElem?_eq_some_iff.1 hoffset
  have htgt := target_eq_cell (M := M) (a := a) hguest haccess hslot hstore
  have hrec : op.recorded offset = ⟨.store, .localMemory, none, [.word 0, .word offset, op.stored]⟩ :=
    if_pos hstore
  have htgt' : (op.recorded offset).target (M'.read · b) = recordCell 0 offset := by
    rw [hrec]
    exact congrArg (Cell.mk _) (map_read_place M' offset b)
  have hinst : (op.recorded offset).inst = .store := by rw [hrec]
  have hstored' : (op.recorded offset).stored = op.stored := by
    rw [hrec]
    rfl
  refine ⟨fun o hbuf htemp => ?_, fun offset' slot' hslot' => ?_⟩
  · have hdest : op.dest = none := hslot.dest_eq hstore
    rw [M.read_kept op o a (by simp [hdest]), M'.read_kept _ o b (by simp [hrec])]
    exact h.reads o hbuf htemp
  · obtain ⟨hlt', -⟩ := List.getElem?_eq_some_iff.1 hslot'
    have hmem := mem_of_getElem? hoffset
    have hmem' := mem_of_getElem? hslot'
    by_cases hsame : offset' = offset
    · subst hsame
      obtain rfl := Option.some.inj (hoffset.symm.trans hslot')
      have hcell := M.cell_store op a hstore (by rw [htgt]; exact howns slot hmem)
      have hcell' := M'.cell_store _ b hinst (by rw [htgt']; exact howns' offset' hlt)
      rw [htgt] at hcell
      rw [htgt', hstored'] at hcell'
      rw [hcell, hcell']
      exact hstored
    · have hbound := s.record.length_slots_lt
      rw [M.cell_kept op _ a (howns slot' hmem'), M'.cell_kept _ _ b (howns' offset' hlt')]
      · exact h.outputs offset' slot' hslot'
      · intro _ heq
        rw [htgt'] at heq
        have hwords := congrArg Cell.address heq
        simp only [recordCell, List.cons.injEq, and_true, true_and] at hwords
        exact hsame (ofNat_inj (Nat.lt_trans hlt' hbound) (Nat.lt_trans hlt hbound) hwords)
      · intro _ heq
        rw [htgt] at heq
        obtain rfl := Slot.cell_inj (canonical_of_mem hmem') (canonical_of_mem hmem) heq
        exact hsame (((getElem?_inj hlt' (nodup_slots _)).1 (hslot'.trans hoffset.symm)))

end Recorded
end Device

/-- An operation of an emulated stage, and the code that its passes put in its place. -/
structure StageContext.Part (s : StageContext) (first : Nat) (op : Operation) (code : List Operation) : Prop where
  sound : op.Sound (s.configFor true) s.Recorded fun n => UInt32.ofNat n ≠ 0
  within : ∀ o ∈ op.operands, ∀ t, o = .temp t → t < first
  becomes : op.Becomes s.reservations first code

namespace Device

variable {σ : Type u} {σ' : Type v} {w : World} {owns owns' : Cell → Prop} {M : Device σ w owns}
  {M' : Device σ' w owns'} {code : List Operation} {a : σ} {b : σ'}
  (hguest : s.config.guestStage.hasArrayedOutputs = false) (howns : ∀ slot ∈ s.record.slots, owns slot.cell)
  (howns' : ∀ offset < s.record.slots.length, owns' (recordCell 0 offset))
include hguest howns howns'

theorem Agree.step (h : M.Agree M' s.record.slots first a b) (hpart : s.Part first op code)
    (hreads : M.ReadsAlike M' op code a b) :
    M.Agree M' s.record.slots first (M.perform op a) (M'.performAll code b) := by
  obtain ⟨hsound, hwithin, hbecomes⟩ := hpart
  cases hbecomes with
  | kept hbef hsrc hout => exact h.kept howns howns' hsound hwithin hbef hsrc hout hreads
  | away hcode haway => exact h.away howns howns' hsound hcode haway hreads
  | @recorded before sources offset hbef hsrc haccess hoffset =>
    obtain ⟨slot, offset', hget, hoff', hslot⟩ | ⟨v, -, -, hnone, -⟩ := StageContext.output_cases hsound haccess
    · obtain rfl := Option.some.inj (hoff'.symm.trans hoffset)
      have hbtw := h.aside howns' hbef
      have hguest : (s.configFor true).guestStage.hasArrayedOutputs = false := hguest
      rw [performAll_append]
      obtain hload | hstore := (access_of_output haccess).1
      · have hsame : recorded { op with sources } offset' = op.recorded offset' := by
          simp [recorded, hload]
        rw [hsame]
        exact hbtw.load hguest haccess hslot howns howns' hget hload hsound.assignable
      · have hbufs := hsound.operands (.inl (hslot.dest_eq hstore))
        obtain rfl := Operand.Settles.list_eq hsrc hbufs
        refine hbtw.store hguest haccess hslot howns howns' hget hstore ?_
        obtain ⟨vertex, trailing, hlen, heq⟩ := hslot.sources
        rw [hstore] at hlen
        obtain ⟨value, rfl⟩ := length_eq_one_iff.1 hlen
        have hstored : op.stored = value := by simp [stored, heq]
        have hmem : value ∈ op.sources := by simp [heq]
        rw [hstored]
        exact hbtw.reads value (hbufs value hmem) (hwithin value (mem_append_right _ hmem))
    · rw [hnone] at hoffset
      cases hoffset

omit hguest howns howns'

/-- All the operations of a block read alike with the code in their place. -/
def AlikeAlong (M : Device σ w owns) (M' : Device σ' w owns') : List (Operation × List Operation) → σ → σ' → Prop
  | [], _, _ => True
  | (op, code) :: parts, a, b =>
    M.ReadsAlike M' op code a b ∧ M.AlikeAlong M' parts (M.perform op a) (M'.performAll code b)

variable {parts : List (Operation × List Operation)} (hparts : ∀ p ∈ parts, s.Part first p.1 p.2)
include hguest howns howns' hparts

theorem Agree.along (h : M.Agree M' s.record.slots first a b) (halike : M.AlikeAlong M' parts a b) (i : Nat) :
    M.Agree M' s.record.slots first (M.performAll ((parts.take i).map Prod.fst) a)
      (M'.performAll ((parts.take i).flatMap Prod.snd) b) := by
  induction parts generalizing a b i with
  | nil =>
    rw [take_nil]
    exact h
  | cons p parts ih =>
    obtain ⟨hpart, hparts⟩ := forall_mem_cons.1 hparts
    obtain ⟨hreads, halike⟩ := halike
    cases i with
    | zero => exact h
    | succ i =>
      rw [take_succ_cons, map_cons, flatMap_cons, performAll_append]
      exact ih hparts (h.step hguest howns howns' hpart hreads) halike i

omit hguest howns howns' hparts

theorem alikeAlong_of_forall (h : ∀ p ∈ parts, ∀ a b, M.ReadsAlike M' p.1 p.2 a b) (a : σ) (b : σ') :
    M.AlikeAlong M' parts a b := by
  induction parts generalizing a b with
  | nil => trivial
  | cons p parts ih =>
    obtain ⟨hp, h⟩ := forall_mem_cons.1 h
    exact ⟨hp a b, ih h _ _⟩

variable {r' : Routine}

theorem target_eq (hflow : r.SameFlow r') (block : Nat) {sources : List Operand}
    (hsrc : Forall₂ (fun o o' => M.read o a = M'.read o' b) op.sources sources) :
    r.target M.toInterpretation block op a = r'.target M'.toInterpretation block { op with sources } b := by
  obtain ⟨inst, storage, dest, old⟩ := op
  unfold Routine.target source?
  rw [hflow.next_eq, hflow.branch_eq]
  dsimp only at hsrc ⊢
  cases hsrc with
  | nil => rfl
  | cons _ hrest =>
    cases hrest with
    | nil => rfl
    | @cons cond cond' _ _ hread _ =>
      have hholds : M.holds cond a = M'.holds cond' b := by rw [M.holds_eq, M'.holds_eq, hread]
      simp only [getElem?_cons_succ, getElem?_cons_zero, hholds]

include hguest howns howns' hparts

/-- A block is left for the same block, in states that agree. -/
theorem Agree.runFrom (hflow : r.SameFlow r') (h : M.Agree M' s.record.slots first a b)
    (halike : M.AlikeAlong M' parts a b) (block : Nat) {ids ids' : List OpId}
    (hids : ids.map r.op = parts.map Prod.fst) (hids' : ids'.map r'.op = parts.flatMap Prod.snd) :
    (r.runFrom M.toInterpretation block ids a).2.1 = (r'.runFrom M'.toInterpretation block ids' b).2.1 ∧
      M.Agree M' s.record.slots first (r.runFrom M.toInterpretation block ids a).2.2
        (r'.runFrom M'.toInterpretation block ids' b).2.2 := by
  induction parts generalizing a b ids ids' with
  | nil =>
    obtain rfl := map_eq_nil_iff.1 hids
    obtain rfl := map_eq_nil_iff.1 hids'
    exact ⟨(hflow.next_eq block).symm, h⟩
  | cons p parts ih =>
    obtain ⟨op, code⟩ := p
    obtain ⟨hpart, hlater⟩ := forall_mem_cons.1 hparts
    obtain ⟨hreads, halike⟩ := halike
    obtain ⟨id, rest, rfl, rfl, hrest⟩ := map_eq_cons_iff.1 hids
    rw [flatMap_cons] at hids'
    obtain ⟨front, rest', rfl, hfront, hrest'⟩ := map_eq_append_iff.1 hids'
    have hpart : s.Part first (r.op id) code := hpart
    have hfront : front.map r'.op = code := hfront
    cases hterm : (r.op id).inst.isTerminator with
    | true =>
      obtain ⟨before, sources, rfl, hbef, hsrc⟩ := hpart.becomes.terminator hterm
      obtain ⟨placed, last, rfl, hplaced, hlast⟩ := map_eq_append_iff.1 hfront
      obtain ⟨id', rfl, hid'⟩ := map_eq_singleton_iff.1 hlast
      have houtside : (r.op id).inst.readsOutside = false := by
        revert hterm
        cases (r.op id).inst <;> simp [Instruction.isTerminator, Instruction.readsOutside]
      have hbtw := h.aside howns' hbef
      have hwords := map_read_settled hbtw hsrc (fun o ho => hpart.within o (mem_append_right _ ho))
        (hreads.operands houtside before _ rfl)
      have hpln : ∀ x ∈ placed, (r'.op x).inst.isTerminator = false := by
        intro x hx
        have hmem : r'.op x ∈ before := hplaced ▸ mem_map_of_mem hx
        exact (hbef _ hmem).plain
      have hterm' : (r'.op id').inst.isTerminator = true := by
        rw [hid']
        exact hterm
      rw [append_assoc, runFrom_append hpln, performAll_eq, hplaced, singleton_append,
        runFrom, runFrom, if_pos hterm, if_pos hterm', hid']
      exact ⟨target_eq hflow block hwords, hbtw⟩
    | false =>
      have hpln : ∀ x ∈ front, (r'.op x).inst.isTerminator = false := by
        intro x hx
        exact hpart.becomes.plain hterm _ (hfront ▸ mem_map_of_mem hx)
      rw [runFrom_append hpln, performAll_eq, hfront, runFrom, hterm, if_neg Bool.false_ne_true]
      exact ih hlater (h.step hguest howns howns' hpart hreads) halike hrest hrest'

omit hguest howns howns' hparts

/-- In the first `n` blocks of two runs all that is read from outside, outputs of the
record apart, is the same. -/
def RunsAlike (M : Device σ w owns) (M' : Device σ' w owns') (r r' : Routine)
    (parts : Nat → List (Operation × List Operation)) (n : Nat) (a : σ) (b : σ') : Prop :=
  ∀ m < n, ∀ block x y, (r.run M.toInterpretation m (some 0, a)).2 = (some block, x) →
    (r'.run M'.toInterpretation m (some 0, b)).2 = (some block, y) → M.AlikeAlong M' (parts block) x y

include hguest howns howns'

theorem Agree.run {parts : Nat → List (Operation × List Operation)} (hflow : r.SameFlow r')
    (hcode : ∀ b, (parts b).map Prod.fst = r.code b) (hcode' : ∀ b, (parts b).flatMap Prod.snd = r'.code b)
    (hparts : ∀ b, ∀ p ∈ parts b, s.Part first p.1 p.2) (h : M.Agree M' s.record.slots first a b)
    (halike : M.RunsAlike M' r r' parts n a b) (hm : m ≤ n) :
    (r.run M.toInterpretation m (some 0, a)).2.1 = (r'.run M'.toInterpretation m (some 0, b)).2.1 ∧
      M.Agree M' s.record.slots first (r.run M.toInterpretation m (some 0, a)).2.2
        (r'.run M'.toInterpretation m (some 0, b)).2.2 := by
  induction m with
  | zero => exact ⟨rfl, h⟩
  | succ m ih =>
    obtain ⟨hplc, hagree⟩ := ih (Nat.le_of_succ_le hm)
    have hreads := halike m hm
    rw [stepwise.add m 1, stepwise.add m 1]
    generalize (r.run M.toInterpretation m (some 0, a)).2 = place at *
    generalize (r'.run M'.toInterpretation m (some 0, b)).2 = place' at *
    obtain ⟨block, x⟩ := place
    obtain ⟨block', y⟩ := place'
    obtain rfl : block = block' := hplc
    cases block with
    | none =>
      rw [run_none, run_none]
      exact ⟨rfl, hagree⟩
    | some block =>
      rw [run_one, run_one]
      exact hagree.runFrom hguest howns howns' (hparts block) hflow (hreads block x y rfl rfl) block
        (hcode block).symm (hcode' block).symm

end Device

/-! Operations that find nothing outside. -/

namespace Operation

/-- Loads from a buffer, or an input that a dispatch has. -/
def loadsOutside (op : Operation) : Bool :=
  op.inst == .load && op.sources.all (fun o => (DrawParameters.parameter? o).isNone) &&
    op.dest.all Operand.isAssignable &&
    (op.storage == .constantBuffer || op.storage == .input && op.ioVariable?.any isDispatchInput)

theorem untouched_of_loadsOutside (h : op.loadsOutside) : op.Untouched := by
  simp only [loadsOutside, Bool.and_eq_true, Bool.or_eq_true, beq_iff_eq, all_eq_true,
    Option.isNone_iff_eq_none, Option.any_eq_true] at h
  obtain ⟨⟨⟨-, hsrc⟩, -⟩, hstor⟩ := h
  refine .of_sources hsrc ?_ fun hinp => ?_
  · obtain h | ⟨h, -⟩ := hstor <;> rw [h] <;> decide
  · obtain h | ⟨-, h⟩ := hstor
    · cases h.symm.trans hinp
    · exact h

end Operation

namespace Device

variable {w : World} {owns owns' : Cell → Prop} [DecidablePred owns] [DecidablePred owns']

/-- Operations that do not look outside, or find nothing there. -/
theorem readsAlike_still (howns : ∀ c, owns c ∨ owns' c → c.storage = .output ∨ c.storage = .localMemory)
    (hop : op.loadsOutside ∨ op.inst.readsOutside = false ∧ ∀ o ∈ op.sources, o.isConstantBuffer = false)
    {code : List Operation}
    (hturns : Pass.Turns x floor [.drawParameters, .vertexEmulation] [op] code) (a b : Valuation × (Cell → UInt32)) :
    (w.still owns).ReadsAlike (w.still owns') op code a b := by
  obtain hload | ⟨hins, hbufs⟩ := hop
  · obtain rfl : code = [op] := by
      have huntch := untouched_of_loadsOutside hload
      obtain ⟨between, hdraw, after, hvtx, rfl⟩ := hturns
      obtain ⟨ids, -, rfl⟩ := hdraw.of_singleton
      rw [huntch x ids .drawParameters (by decide)] at hvtx
      obtain ⟨ids', -, rfl⟩ := hvtx.of_singleton
      exact huntch x ids' .vertexEmulation (by decide)
    simp only [loadsOutside, Bool.and_eq_true, Bool.or_eq_true, beq_iff_eq] at hload
    obtain ⟨⟨⟨hinst, -⟩, hassignable⟩, hstor⟩ := hload
    have hunowned : ∀ c : Cell, c.storage = op.storage → ¬ (owns c ∨ owns' c) := by
      intro c hc hcell
      obtain hout | hlocal := howns c hcell
      · obtain h | ⟨h, -⟩ := hstor <;> cases (hc.symm.trans hout).symm.trans h
      · obtain h | ⟨h, -⟩ := hstor <;> cases (hc.symm.trans hlocal).symm.trans h
    refine ⟨fun _ _ dest hdest => ?_, fun hins => ?_⟩
    · have hassignable : dest.isAssignable := by simpa [hdest] using hassignable
      trans (0 : UInt32)
      · exact World.read_still hdest hassignable hinst fun h => hunowned _ rfl (.inl h)
      · exact (World.read_still hdest hassignable hinst fun h => hunowned _ rfl (.inr h)).symm
    · rw [hinst] at hins
      cases hins
  · refine ⟨fun houtside => ?_, fun _ _ _ _ p hp hbuf => ?_⟩
    · cases hins.symm.trans houtside
    · rw [hbufs p.1 (of_mem_zip hp).1] at hbuf
      cases hbuf

end Device

theorem IoVariable.isRecorded_eq (v : IoVariable) : v.isRecorded =
    ["UserDefined", "Position", "Layer", "ViewportIndex", "PointSize", "ClipDistance"].contains v.name := by
  cases v <;> rfl

namespace StageContext

variable {lowered : Lowered}
  (hsound : ∀ op ∈ lowered.ops, op.Sound (s.configFor true) s.Recorded fun n => UInt32.ofNat n ≠ 0)
include hsound

theorem Emulable.part (h : s.Emulable) (hlow : s.lower true (s.prepared true) {} {} = .ok lowered)
    (hr : ofOperations lowered.ops lowered.ids = .ok r) {code : List Operation}
    (hparts : Pass.Parts (s.passContext lowered) lowered.ids.temps (s.passes lowered) (r.code b) code parts) :
    ∀ p ∈ parts, s.Part lowered.ids.temps p.1 p.2 := by
  intro p hp
  obtain ⟨hem, hres⟩ := h.emulate hlow
  have hcode : p.1 ∈ r.code b := hparts.old_eq ▸ mem_map_of_mem hp
  have hop := mem_code_ofOperations hr hcode
  refine ⟨hsound _ hop, fun o ho _ ht => ?_, hres ▸ hem.becomes (hparts.turns p hp)⟩
  have hwithin := within_lowered hlow _ hop o ho
  rw [ht] at hwithin
  exact hwithin.2

theorem not_mem_unresolved {unresolved : List Unresolved}
    (hreps : ∀ report ∈ unresolved, report.isOutput → ∃ op ∈ lowered.ops, op.accessesOutput ∧
      op.recordOffset? s.reservations .output = none ∧ report.name = op.ioName)
    {v : IoVariable} (hv : v.isRecorded) : ⟨true, v.name⟩ ∉ unresolved := by
  intro hmem
  obtain ⟨op, hop, haccess, hnone, hname⟩ := hreps _ hmem rfl
  obtain ⟨slot, offset, -, hoffset, -⟩ | ⟨v', hrec, hvar, -⟩ := output_cases (hsound op hop) haccess
  · cases hnone.symm.trans hoffset
  · have hname : v.name = v'.name := by
      rw [ioName, hvar] at hname
      exact hname
    rw [isRecorded_eq, hname, ← isRecorded_eq, hrec] at hv
    cases hv

omit hsound

/-- A vertex or geometry stage that is emulated, that computes no place of an output and
captures no transform feedback, keeps its outputs in its record. Each access to an output
of the kinds that records hold is to a word of its own and is not reported. The program
before and after the passes, started in states that agree and given the same by all that
they read otherwise, enter the same blocks and at every point between two operations
the outputs of the one are the words of the record of the other. -/
theorem emulates_outputs (h : s.Configured) (hemulable : s.Emulable)
    (hfeedback : s.host.emulatesTransformFeedback = false) (hindex : ∀ op ∈ s.program.ops, op.indexesOutput = false)
    (hlower : s.lower true (s.prepared true) {} {} = .ok lowered) {r : Routine}
    (hr : Routine.ofOperations lowered.ops lowered.ids = .ok r) :
    lowered.resources.emulation.map EmulationMemory.vertexData = some 0 ∧
    (∀ op ∈ lowered.ops, op.accessesRecord = true → ∃ slot offset, op.ioVariable? = some slot.io ∧
      op.slot? = some slot ∧ s.reservations.offset? .output slot.io slot.location slot.component = some offset ∧
      op.recordOffset? s.reservations .output = some offset) ∧
    (∀ v : IoVariable, v.isRecorded = true → ⟨true, v.name⟩ ∉ (s.passed lowered r).unresolved) ∧
    (∀ slot slot' : Slot, ∀ offset, s.reservations.offset? .output slot.io slot.location slot.component = some offset →
      offset < s.reservations.outputSize ∧
        (s.reservations.offset? .output slot'.io slot'.location slot'.component = some offset → slot' = slot)) ∧
    (∀ b, ∃ parts, Pass.Parts (s.passContext lowered) lowered.ids.temps (s.passes lowered) (r.code b)
      ((s.passed lowered r).routine.code b) parts) ∧
    ∀ parts : Nat → List (Operation × List Operation),
      (∀ b, Pass.Parts (s.passContext lowered) lowered.ids.temps (s.passes lowered) (r.code b)
        ((s.passed lowered r).routine.code b) (parts b)) →
    ∀ {σ : Type u} {σ' : Type v} {w : World} {owns owns' : Cell → Prop} (M : Device σ w owns) (M' : Device σ' w owns'),
      (∀ slot ∈ s.reservations.outputRecord, owns slot.cell) →
      (∀ offset < s.reservations.outputSize, owns' (recordCell 0 offset)) →
    ∀ {a b}, M.Agree M' s.reservations.outputRecord lowered.ids.temps a b →
    ∀ n, M.RunsAlike M' r (s.passed lowered r).routine parts n a b →
      (∀ m ≤ n, (r.run M.toInterpretation m (some 0, a)).2.1 =
          ((s.passed lowered r).routine.run M'.toInterpretation m (some 0, b)).2.1 ∧
        ∀ slot : Slot, ∀ offset, s.reservations.offset? .output slot.io slot.location slot.component = some offset →
          M.cell slot.cell (r.run M.toInterpretation m (some 0, a)).2.2 = M'.cell (recordCell 0 offset)
              ((s.passed lowered r).routine.run M'.toInterpretation m (some 0, b)).2.2) ∧
      ∀ m < n, ∀ block x y, (r.run M.toInterpretation m (some 0, a)).2 = (some block, x) →
        ((s.passed lowered r).routine.run M'.toInterpretation m (some 0, b)).2 = (some block, y) →
        ∀ i, ∀ slot : Slot, ∀ offset,
          s.reservations.offset? .output slot.io slot.location slot.component = some offset →
          M.cell slot.cell (M.performAll (((parts block).take i).map Prod.fst) x) =
            M'.cell (recordCell 0 offset) (M'.performAll (((parts block).take i).flatMap Prod.snd) y) := by
  have hsound := h.lower_recorded hemulable hfeedback hindex hlower
  obtain ⟨hflow, hexists, hreports⟩ := hemulable.passed_spec hlower hr
  have hplace : ∀ {slot : Slot} {offset : Nat},
      s.reservations.offset? .output slot.io slot.location slot.component = some offset →
      s.record.slots[offset]? = some slot :=
    fun hoffset => (idxOf?_eq_some_iff (RecordUsage.nodup_slots _)).1 hoffset
  refine ⟨?_, fun op hop hrecord => ?_, fun v hv => not_mem_unresolved hsound hreports hv,
    fun slot slot' offset hoffset => ⟨?_, fun hoffset' => ?_⟩, hexists, ?_⟩
  · obtain ⟨memory, hmemory, hdata, -⟩ := hemulable.emulation
    rw [resources_lowered hlower, hmemory, Option.map_some, hdata]
  · rw [Operation.accessesRecord, Bool.and_eq_true] at hrecord
    obtain ⟨slot, offset, hget, hoffset, haccess⟩ | ⟨v, hrecorded, hvariable, -⟩ :=
      output_cases (hsound op hop) hrecord.1
    · refine ⟨slot, offset, haccess.ioVariable?_eq, haccess.slot?_eq, ?_, hoffset⟩
      exact (idxOf?_eq_some_iff (RecordUsage.nodup_slots _)).2 hget
    · simp [hvariable, hrecorded] at hrecord
  · exact (List.getElem?_eq_some_iff.1 (hplace hoffset)).1
  · exact Option.some.inj ((hplace hoffset').symm.trans (hplace hoffset))
  · intro parts hparts σ σ' w owns owns' M M' howns howns' a b hagree n halike
    have hguest : s.config.guestStage.hasArrayedOutputs = false := by
      rw [hemulable.guestStage_eq]
      obtain hstage | hstage := hemulable.stage_eq <;> rw [hstage] <;> rfl
    have hpart := fun block => hemulable.part hsound hlower hr (hparts block)
    have hrun : ∀ m ≤ n, _ := fun m hm => hagree.run hguest howns howns' hflow (fun b => (hparts b).old_eq)
      (fun b => (hparts b).new_eq) hpart halike hm
    refine ⟨fun m hm => ⟨(hrun m hm).1, fun slot offset hoffset => ?_⟩,
      fun m hm block x y hx hy i slot offset hoffset => ?_⟩
    · exact (hrun m hm).2.outputs offset slot (hplace hoffset)
    · have hstate := (hrun m (Nat.le_of_lt hm)).2
      rw [hx, hy] at hstate
      exact (hstate.along hguest howns howns' (hpart block) (halike m hm block x y hx hy) i).outputs offset slot
        (hplace hoffset)

def storingLowered : Lowered := (storing.lower true (storing.prepared true) {} {}).toOption.get (by decide +kernel)

def storingRoutine : Routine :=
  (ofOperations storingLowered.ops storingLowered.ids).toOption.get (by decide +kernel)

theorem emulates_outputs_storing : storing.Configured ∧ storing.Emulable ∧
    ⟨true, "Position"⟩ ∉ (storing.passed storingLowered storingRoutine).unresolved ∧
    (zeroWorld.still fun c => c.storage = .localMemory).cell (recordCell 0 3)
      ((storing.passed storingLowered storingRoutine).routine.run
        (zeroWorld.still fun c => c.storage = .localMemory).toInterpretation 1
          (some 0, fun _ => 0, fun _ => 0)).2.2 = 0x3f800000 := by
  have hconfigured : storing.Configured := .ofProgram ..
  have hemulable : storing.Emulable := ⟨rfl, .inl rfl⟩
  have hlower : storing.lower true (storing.prepared true) {} {} = .ok storingLowered := eq_ok_get _
  have hroutine : Routine.ofOperations storingLowered.ops storingLowered.ids = .ok storingRoutine := eq_ok_get _
  obtain ⟨-, -, hreports, -, hexists, hruns⟩ :=
    emulates_outputs hconfigured hemulable rfl (by decide) hlower hroutine
  choose parts hparts using hexists
  have hplain : ∀ op ∈ storingRoutine.code 0, op.loadsOutside = true ∨
      op.inst.readsOutside = false ∧ ∀ o ∈ op.sources, o.isConstantBuffer = false := by decide +kernel
  have hpasses : storing.passes storingLowered = [.drawParameters, .vertexEmulation] := passes_vertex rfl
  obtain ⟨hsame, -⟩ := hruns parts hparts (zeroWorld.still fun c => c.storage = .output)
    (zeroWorld.still fun c => c.storage = .localMemory) (fun _ _ => rfl) (fun _ _ => rfl)
    (a := (fun _ => 0, fun _ => 0)) (b := (fun _ => 0, fun _ => 0)) ⟨fun _ _ _ => rfl, fun _ _ _ => rfl⟩ 1 (by
      intro m hm block x y hx hy
      obtain rfl : m = 0 := Nat.lt_one_iff.1 hm
      rw [Routine.run_zero] at hx
      obtain ⟨hblock, rfl⟩ := Prod.mk.inj hx
      obtain rfl := Option.some.inj hblock
      refine Device.alikeAlong_of_forall (fun p hp a b => ?_) _ _
      have hmem : p.1 ∈ storingRoutine.code 0 := (hparts 0).old_eq ▸ List.mem_map_of_mem hp
      exact Device.readsAlike_still (fun c hc => hc) (hplain p.1 hmem) (hpasses ▸ (hparts 0).turns p hp) a b)
  refine ⟨hconfigured, hemulable, hreports .position rfl, ?_⟩
  refine ((hsame 1 (Nat.le_refl 1)).2 ⟨.position, 0, 3⟩ 3 (by decide +kernel)).symm.trans ?_
  decide +kernel

end StageContext
end ShaderRecompiler
