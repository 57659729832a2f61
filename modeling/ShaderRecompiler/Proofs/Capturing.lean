import ShaderRecompiler.Proofs.Strips

/-! Outputs that a vertex stage captures by hand. The code at its end writes every captured
word to the place of its vertex in the buffer, and nothing else; where the slots of a
buffer fit its stride, no two invocations of a draw write the same element. -/
namespace ShaderRecompiler

open List

open UInt32 (ofNat toNat_inj toNat)

universe u

/-- An input, an output or a word of the description of capture. -/
def Cell.Given (c : Cell) : Prop :=
  c.storage = .input ∨ c.storage = .output ∨ ∃ rest, c = ⟨.storageBuffer, 0 :: rest⟩

/-- Everything else, which other invocations may write. -/
abbrev Cell.Shared (c : Cell) : Prop := ¬ c.Given

namespace FeedbackBuffer

/-- Where the draw starts in a buffer. -/
def startCell (index : Nat) : Cell := ⟨.storageBuffer, [0, 0, ofNat index]⟩

/-- The number of vertices in an instance. -/
def countCell : Cell := ⟨.storageBuffer, [0, 1]⟩

def wordCell (index : Nat) (element : UInt32) : Cell := ⟨.storageBuffer, [ofNat (1 + index), 0, element]⟩

/-- The output behind a captured word, if there is one. -/
def target? (word : Nat) : Option Attribute.Target :=
  if word = hole then none else Attribute.resolve (word * 4) .vertex true false

variable (b : FeedbackBuffer) (memory : Cell → UInt32) (index : Nat)

/-- The instance in the draw, and the vertex in the instance. -/
def instanceId : UInt32 := memory (inputCell .instanceIndex []) - memory (inputCell .baseInstance [])

def vertexId : UInt32 := memory (inputCell .vertexIndex []) - memory (inputCell .baseVertex [])

/-- Where the word of a slot is put. -/
def element (slot : Nat) : UInt32 :=
  memory (startCell index) +
    (instanceId memory * memory countCell + vertexId memory) * ofNat (b.stride / 4) + ofNat slot

/-- What is written for one vertex, slot after slot. -/
def captured : List (Cell × UInt32) :=
  b.words.zipIdx.flatMap fun (word, slot) =>
    (target? word).toList.map fun t => (wordCell index (b.element memory index slot), memory t.slot.cell)

variable {b memory index}

theorem mem_captured : (c, v) ∈ b.captured memory index ↔
    ∃ slot word t, b.words[slot]? = some word ∧ target? word = some t ∧
      c = wordCell index (b.element memory index slot) ∧ v = memory t.slot.cell := by
  simp only [captured, mem_flatMap, Prod.exists, mem_zipIdx_iff_getElem?, mem_map, Option.mem_toList, Prod.mk.injEq]
  constructor
  · rintro ⟨word, slot, hword, t, ht, rfl, rfl⟩
    exact ⟨slot, word, t, hword, ht, rfl, rfl⟩
  · rintro ⟨slot, word, t, hword, ht, rfl, rfl⟩
    exact ⟨word, slot, hword, t, ht, rfl, rfl⟩

theorem captured_congr (h : ∀ c : Cell, c.Given → memory' c = memory c) :
    b.captured memory' index = b.captured memory index := by
  have hinp : ∀ v, memory' (inputCell v []) = memory (inputCell v []) := fun v => h _ (.inl rfl)
  have hout : ∀ t : Attribute.Target, memory' t.slot.cell = memory t.slot.cell := fun t => h _ (.inr (.inl rfl))
  have hinfo : ∀ rest, memory' ⟨.storageBuffer, 0 :: rest⟩ = memory ⟨.storageBuffer, 0 :: rest⟩ :=
    fun rest => h _ (.inr (.inr ⟨rest, rfl⟩))
  simp only [captured, element, instanceId, vertexId, startCell, countCell, hinp, hout, hinfo]

/-- The vertex is one of its instance, and the number of the element is a word. -/
structure Fits (b : FeedbackBuffer) (memory : Cell → UInt32) (index slot : Nat) : Prop where
  vertex_lt : (vertexId memory).toNat < (memory countCell).toNat
  fits : (memory (startCell index)).toNat + recordElement (b.stride / 4) (memory countCell).toNat
    (vertexId memory).toNat (instanceId memory).toNat slot < 2 ^ 32

theorem element_inj (h : b.Fits memory index slot)
    (h' : b.Fits memory' index slot') (hstride : 4 * b.words.length ≤ b.stride) (hslot : slot < b.words.length)
    (hslot' : slot' < b.words.length) (hstart : memory' (startCell index) = memory (startCell index))
    (hcnt : memory' countCell = memory countCell)
    (heq : b.element memory index slot = b.element memory' index slot') :
    vertexId memory = vertexId memory' ∧ instanceId memory = instanceId memory' ∧ slot = slot' := by
  have hnum : ∀ m n, b.element m index n = ofNat ((m (startCell index)).toNat +
      recordElement (b.stride / 4) (m countCell).toNat (vertexId m).toNat (instanceId m).toNat n) := by
    intro m n
    rw [UInt32.ofNat_add, ofNat_recordElement]
    simp [element, UInt32.add_assoc]
  rw [hnum, hnum] at heq
  have hsame := ofNat_inj h.fits h'.fits heq
  rw [hstart, hcnt] at hsame
  have hlt := h'.vertex_lt
  rw [hcnt] at hlt
  obtain ⟨hvtx, hinsta, hslots⟩ := recordElement_inj h.vertex_lt hlt (by omega) (by omega) (Nat.add_left_cancel hsame)
  exact ⟨toNat_inj.1 hvtx, toNat_inj.1 hinsta, hslots⟩

end FeedbackBuffer

namespace Device

open FeedbackBuffer

variable {M : Device σ w Cell.Given} {l : Lowering}

theorem means_targetSources (hstg : l.config.guestStage = .vertex) (t : Attribute.Target) :
    Forall₂ (M.Means e s) (l.config.targetSources .output (.word 0) t) t.slot.cell.address := by
  have hvtx : l.config.hasVertexIndex .output t.io = false := by
    simp [Config.hasVertexIndex, hstg, Stage.hasArrayedOutputs]
  have hword : ∀ (present : Bool) (n : Nat), Forall₂ (M.Means e s) (if present then [.word n] else [])
      (if present then [ofNat n] else []) := by
    intro present n
    cases present
    · exact .nil
    · exact .cons (M.means_word ..) .nil
  rw [Config.targetSources_eq, Config.accessSources, hvtx, if_neg Bool.false_ne_true, append_nil]
  cases t with
  | user => exact .cons (M.means_word ..) (rel_append (hword true _) (hword true _))
  | builtin v => exact .cons (M.means_word ..) (rel_append (hword v.hasLocation _) (hword v.hasComponent _))

theorem writes_captureWord (hstg : l.config.guestStage = .vertex)
    (hbase : M.Means e s base v) (hidx : index < maxFeedbackBuffers) (slot word : Nat) :
    M.Writes (l.captureWord (1 + index) base slot word) e s
      ((target? word).toList.map fun t => (wordCell index (v + ofNat slot), M.cell t.slot.cell s))
      fun _ e' s' => M.Onward Cell.Shared e s e' s' := by
  have hshared : ∀ rest, Cell.Shared ⟨.storageBuffer, ofNat (1 + index) :: rest⟩ := by
    rintro rest (hgiven | hgiven | ⟨_, hgiven⟩)
    · cases hgiven
    · cases hgiven
    · have hzero := congrArg toNat (List.cons.inj (Cell.mk.inj hgiven).2).1
      rw [UInt32.toNat_ofNat_of_lt' (Nat.lt_trans (Nat.add_lt_add_left hidx 1) (by decide))] at hzero
      exact absurd hzero (by simp)
  unfold Lowering.captureWord
  rw [hstg, ← target?]
  cases target? word with
  | none => exact ⟨[], (append_nil _).symm, rfl, .refl e s⟩
  | some t =>
    refine Writes.after_runs (Runs.load (W := Cell.Shared) (means_targetSources hstg t) (.inr (.inl rfl)) rfl)
      (.load fun _ _ => rfl) ?_
    rintro value e₁ s₁ ⟨h₁, hval⟩
    refine Writes.after_runs (Runs.iadd (W := Cell.Shared) (hbase.mono h₁) (M.means_word ..))
      (.value fun _ _ => rfl) ?_
    rintro place e₂ s₂ ⟨h₂, hplc⟩
    refine (Writes.store [.word (1 + index), .word 0, place] Cell.Shared (hshared _)
      (means_words (.cons hplc .nil)) (hval.mono h₂)).mono ?_
    intro _ e₃ s₃ h₃
    exact (h₁.trans h₂).trans h₃

theorem Runs.isub {owns : Cell → Prop} {M : Device σ w owns} (ha : M.Means e s a x) (hb : M.Means e s b y) :
    M.Runs (Emit.isub a b) e s fun c e' s' => M.Onward W e s e' s' ∧ M.Means e' s' c (x - y) :=
  value (.cons ha (.cons hb .nil)) rfl (by simp) rfl

/-- The words of one buffer. -/
theorem writes_captureBuffer (hstg : l.config.guestStage = .vertex) {index : Nat} (hidx : index < maxFeedbackBuffers)
    {count : Operand} (hcnt : M.Means e s count (M.cell countCell s)) (b : FeedbackBuffer) :
    M.Writes (l.captureBuffer 0 (1 + index) index count b) e s (b.captured (M.cell · s) index)
      fun _ e' s' => M.Onward Cell.Shared e s e' s' := by
  have hinp : ∀ {e' s'} (v : IoVariable), M.Onward Cell.Shared e s e' s' →
      M.Runs (Emit.loadInput v) e' s' fun a e'' s'' => M.Onward Cell.Shared e' s' e'' s'' ∧
        M.Means e'' s'' a (M.cell (inputCell v []) s) := by
    intro e' s' v h
    exact Runs.load (.cons (M.means_word ..) .nil) (.inl rfl) (h.cells _ (.inl rfl) (not_not.2 (.inl rfl)))
  refine Writes.after_runs (Runs.load (W := Cell.Shared) (means_words (.cons (M.means_word ..) .nil))
    (.inr (.inr ⟨_, rfl⟩)) rfl) (.load fun _ _ => rfl) ?_
  rintro start e₁ s₁ ⟨h₁, hstart⟩
  refine Writes.after_runs (hinp .baseVertex h₁) (.load fun _ _ => rfl) ?_
  rintro baseVertex e₂ s₂ ⟨h₂, hbaseVertex⟩
  refine Writes.after_runs (hinp .baseInstance (h₁.trans h₂)) (.load fun _ _ => rfl) ?_
  rintro baseInstance e₃ s₃ ⟨h₃, hbaseInstance⟩
  refine Writes.after_runs (hinp .vertexIndex ((h₁.trans h₂).trans h₃)) (.load fun _ _ => rfl) ?_
  rintro vertexIndex e₄ s₄ ⟨h₄, hvertexIndex⟩
  have hloaded := ((h₁.trans h₂).trans h₃).trans h₄
  refine Writes.after_runs (hinp .instanceIndex hloaded) (.load fun _ _ => rfl) ?_
  rintro instanceIndex e₅ s₅ ⟨h₅, hinstanceIndex⟩
  refine Writes.after_runs (Runs.isub (W := Cell.Shared) hinstanceIndex ((hbaseInstance.mono h₄).mono h₅))
    (.value fun _ _ => rfl) ?_
  rintro instanceId e₆ s₆ ⟨h₆, hinstanceId⟩
  refine Writes.after_runs (Runs.isub (W := Cell.Shared) ((hvertexIndex.mono h₅).mono h₆)
    ((((hbaseVertex.mono h₃).mono h₄).mono h₅).mono h₆)) (.value fun _ _ => rfl) ?_
  rintro vertex e₇ s₇ ⟨h₇, hvtx⟩
  have hcounted := ((hloaded.trans h₅).trans h₆).trans h₇
  refine Writes.after_runs (Runs.imul (W := Cell.Shared) (hinstanceId.mono h₇) (hcnt.mono hcounted))
    (.value fun _ _ => rfl) ?_
  rintro instanceBase e₈ s₈ ⟨h₈, hinstanceBase⟩
  refine Writes.after_runs (Runs.iadd (W := Cell.Shared) hinstanceBase (hvtx.mono h₈)) (.value fun _ _ => rfl) ?_
  rintro captured e₉ s₉ ⟨h₉, hcap⟩
  refine Writes.after_runs (Runs.imul (W := Cell.Shared) hcap (M.means_word ..)) (.value fun _ _ => rfl) ?_
  rintro words e' s' ⟨h', hwords⟩
  have hbef := (((h₂.trans h₃).trans h₄).trans h₅).trans ((((h₆.trans h₇).trans h₈).trans h₉).trans h')
  refine Writes.after_runs (Runs.iadd (W := Cell.Shared) (hstart.mono hbef) hwords) (.value fun _ _ => rfl) ?_
  rintro base e'' s'' ⟨h'', hbase⟩
  have hall := (h₁.trans hbef).trans h''
  refine (Writes.forM _ (.refl e'' s'') ?_).mono fun _ _ _ hrest => hall.trans hrest
  rintro ⟨word, slot⟩ - f t hrnd
  have hcell : ∀ target : Attribute.Target, M.cell target.slot.cell t = M.cell target.slot.cell s :=
    fun target => (hall.trans hrnd).cells _ (.inr (.inl rfl)) (not_not.2 (.inr (.inl rfl)))
  simp only [← hcell]
  exact (writes_captureWord hstg (hbase.mono hrnd) hidx slot word).mono fun _ _ _ h => hrnd.trans h

theorem writes_feedbackEpilogue (hstg : l.config.guestStage = .vertex) (hfb : l.reservations.emulatesFeedback) :
    M.Writes l.feedbackEpilogue e s
      ((l.config.feedback.take maxFeedbackBuffers).zipIdx.flatMap fun b => b.1.captured (M.cell · s) b.2)
      fun _ e' s' => M.Onward Cell.Shared e s e' s' := by
  have hinfo : l.reservations.feedbackInfo? = some 0 := if_pos hfb
  have hbase : l.reservations.feedbackBase? = some 1 := if_pos hfb
  rw [Lowering.feedbackEpilogue, hinfo, hbase]
  refine Writes.after_runs (Runs.load (W := Cell.Shared) (means_words .nil)
    (.inr (.inr ⟨_, rfl⟩)) rfl) (.load fun _ _ => rfl) ?_
  rintro count e₁ s₁ ⟨h₁, hcnt⟩
  refine (Writes.forM _ (.refl e₁ s₁) ?_).mono fun _ _ _ hrest => h₁.trans hrest
  rintro ⟨b, index⟩ hmem e' s' hrnd
  have hidx : index < maxFeedbackBuffers := by
    have := (mem_zipIdx hmem).2.1
    simp at this
    omega
  have hgiven : ∀ c : Cell, c.Given → M.cell c s' = M.cell c s :=
    fun c hc => (h₁.trans hrnd).cells c hc (not_not.2 hc)
  have hwrites := writes_captureBuffer hstg hidx ((hgiven countCell (.inr (.inr ⟨_, rfl⟩))).symm ▸ hcnt.mono hrnd) b
  rw [captured_congr hgiven] at hwrites
  exact hwrites.mono fun _ _ _ h => hrnd.trans h

theorem cell_given {op : Operation} (hn : ofNat n ≠ 0) (h : op.Elsewhere (fun _ => False) (· = n))
    (hquiet : op.isStore .output = false) {c : Cell} (hc : c.Given) (s : σ) :
    M.cell c (M.perform op s) = M.cell c s := by
  refine M.cell_kept op c s hc ?_
  rintro hstore rfl
  have hinp := h.input
  obtain hc | hc | ⟨rest, hc⟩ := hc
  · simp [Operation.isStore, hstore, show op.storage = .input from hc] at hinp
  · simp [Operation.isStore, hstore, show op.storage = .output from hc] at hquiet
  · have hstor : op.storage = .storageBuffer := congrArg Cell.storage hc
    obtain ⟨_, others, hothers, hsrc, rfl⟩ := h.buffer (by simp [Operation.isStore, hstore, hstor])
    obtain ⟨words, htgt⟩ := target_eq_cons (M := M) hothers hsrc s
    exact hn (List.cons.inj (congrArg Cell.address (htgt.symm.trans hc))).1

end Device

namespace Lowering

open FeedbackBuffer

variable {l : Lowering} {code : List Operation}

theorem vertex_of_captures (h : l.capturesInEpilogue) :
    l.config.guestStage = .vertex ∧ l.reservations.emulatesFeedback := by
  simp only [capturesInEpilogue, Bool.and_eq_true, beq_iff_eq] at h
  exact ⟨h.1.1.1.1, h.2⟩

theorem vertexOutput_eq (h : l.capturesInEpilogue) (hemu : l.reservations.emulated) :
    l.reservations.vertexOutput = 5 := by
  simp [Reservations.vertexOutput, Reservations.feedbackStorage, hemu, (vertex_of_captures h).2, maxFeedbackBuffers]

theorem appends_emulationEpilogue (hstg : l.config.guestStage = .vertex) :
    Emit.Appends 0 (fun op => op.Elsewhere (fun _ => False) (· = l.reservations.vertexOutput) ∧
      op.isStore .output = false)
      l.emulationEpilogue fun _ => True := by
  rw [emulationEpilogue, hstg]
  split
  · next =>
    refine .bind (.load fun _ _ => ⟨.of_ne (by simp), rfl⟩) fun _ _ => ?_
    refine .bind (.load fun _ _ => ⟨.of_ne (by simp), rfl⟩) fun _ _ => ?_
    refine .bind (.load fun _ _ => ⟨.of_ne (by simp), rfl⟩) fun _ _ => ?_
    refine .bind (.value fun _ _ => ⟨.of_ne (by simp), rfl⟩) fun _ _ => ?_
    refine .bind (.value fun _ _ => ⟨.of_ne (by simp), rfl⟩) fun _ _ => ?_
    refine .bind (.value fun _ _ => ⟨.of_ne (by simp), rfl⟩) fun _ _ => .forM fun _ _ => ?_
    refine .bind (.load fun _ _ => ⟨.of_ne (by simp), rfl⟩) fun _ _ => ?_
    refine .bind (.value fun _ _ => ⟨.of_ne (by simp), rfl⟩) fun _ _ => ?_
    exact .op ⟨.storage (G := (· = _)) rfl _ _, rfl⟩
  · next hstg _ => cases hstg
  · exact .pure trivial

variable {σ : Type u} {w : World} (M : Device σ w Cell.Given)

/-- The record of an emulated stage, and then all that is captured. -/
theorem written_epilogue_eq (hwrites : l.writesEpilogue) (hcaps : l.capturesInEpilogue)
    (hemu : l.config.emulated → l.reservations.emulated) (h : l.epilogue.Produces code) (s : σ) :
    ∃ record, M.written code s = record ++
        (l.config.feedback.take maxFeedbackBuffers).zipIdx.flatMap (fun b => b.1.captured (M.cell · s) b.2) ∧
      ∀ entry ∈ record, l.config.emulated ∧
        entry.1.address.head? = some (ofNat l.reservations.vertexOutput) := by
  obtain ⟨hstg, hfb⟩ := vertex_of_captures hcaps
  obtain ⟨e, he⟩ := h
  cases hnative : l.config.emulated with
  | false =>
    have hepi : l.epilogue = l.feedbackEpilogue := by simp [epilogue, hwrites, hcaps, hstg, hnative]
    obtain ⟨added, hadd, hwr, -⟩ := Device.writes_feedbackEpilogue (M := M) (e := e) (s := s) hstg hfb
    rw [hepi] at he
    obtain rfl := append_cancel_left (he.symm.trans hadd)
    exact ⟨[], hwr, by simp⟩
  | true =>
    have hepi : l.epilogue = l.emulationEpilogue >>= fun _ => l.feedbackEpilogue := by
      simp [epilogue, hwrites, hcaps, hstg, hnative]
    obtain ⟨-, -, before, hbef, hstores⟩ := appends_emulationEpilogue hstg e (Nat.zero_le _)
    obtain ⟨added, hadd, hwr, -⟩ := Device.writes_feedbackEpilogue (M := M) (e := (l.emulationEpilogue.run e).2)
      (s := M.performAll before s) hstg hfb
    have hcode : code = before ++ added := by
      rw [hbef, append_assoc] at hadd
      rw [hepi] at he
      exact append_cancel_left (he.symm.trans hadd)
    -- What is captured is not part of the record.
    have hkept : ∀ c : Cell, c.Given → M.cell c (M.performAll before s) = M.cell c s := by
      intro c hc
      refine Device.performAll_congr (W := Cell.Given) (fun op hop c hc s => ?_) hc s
      exact Device.cell_given (by simp [vertexOutput_eq hcaps (hemu hnative)]) (hstores op hop).1
        (hstores op hop).2 hc s
    refine ⟨M.written before s, ?_, fun entry hent => ?_⟩
    · rw [hcode, M.written_append, hwr]
      simp only [captured_congr hkept]
    · obtain ⟨n, rfl, hn⟩ := Device.written_elsewhere (fun op hop => (hstores op hop).1) s entry hent
      exact ⟨rfl, hn⟩

/-- The code at the end of a stage writes every captured output to its element, and nothing
else but the record of an emulated stage; no two invocations of a draw write the same one. -/
theorem written_epilogue (hwrites : l.writesEpilogue = true) (hcaptures : l.capturesInEpilogue = true)
    (hemulated : l.config.emulated = true → l.reservations.emulated = true) (h : l.epilogue.Produces code) :
    (∀ s c v, ((c, v) ∈ M.written code s ∧ ¬ (l.config.emulated = true ∧
        c.address.head? = some (UInt32.ofNat l.reservations.vertexOutput))) ↔
      ∃ index < maxFeedbackBuffers, ∃ b slot word t, l.config.feedback[index]? = some b ∧
        b.words[slot]? = some word ∧ word ≠ hole ∧ Attribute.resolve (word * 4) .vertex true false = some t ∧
        c = wordCell index (b.element (M.cell · s) index slot) ∧ v = M.cell t.slot.cell s) ∧
    ∀ s s' index b slot slot', l.config.feedback[index]? = some b → 4 * b.words.length ≤ b.stride →
      slot < b.words.length → slot' < b.words.length → b.Fits (M.cell · s) index slot →
      b.Fits (M.cell · s') index slot' →
      (∀ c ∈ [startCell index, countCell, inputCell .baseVertex [], inputCell .baseInstance []],
        M.cell c s' = M.cell c s) →
      b.element (M.cell · s) index slot = b.element (M.cell · s') index slot' →
      M.cell (inputCell .vertexIndex []) s = M.cell (inputCell .vertexIndex []) s' ∧
        M.cell (inputCell .instanceIndex []) s = M.cell (inputCell .instanceIndex []) s' ∧ slot = slot' := by
  refine ⟨fun s c v => ?_, ?_⟩
  · obtain ⟨record, hwritten, hrecord⟩ := written_epilogue_eq M hwrites hcaptures hemulated h s
    rw [hwritten, List.mem_append]
    simp only [List.mem_flatMap, Prod.exists, List.mem_zipIdx_iff_getElem?, mem_captured, target?, List.getElem?_take]
    constructor
    · rintro ⟨hmem | ⟨b, index, hb, slot, word, t, hword, ht, rfl, rfl⟩, helse⟩
      · exact absurd (hrecord _ hmem) helse
      · obtain ⟨hindex, hb⟩ := Option.ite_none_right_eq_some.1 hb
        obtain ⟨hhole, ht⟩ := Option.ite_none_left_eq_some.1 ht
        exact ⟨index, hindex, b, slot, word, t, hb, hword, hhole, ht, rfl, rfl⟩
    · rintro ⟨index, hindex, b, slot, word, t, hb, hword, hhole, ht, rfl, rfl⟩
      refine ⟨.inr ⟨b, index, (if_pos hindex).trans hb, slot, word, t, hword, (if_neg hhole).trans ht, rfl, rfl⟩, ?_⟩
      rintro ⟨hnative, hhead⟩
      have hindex : index < 4 := hindex
      rw [vertexOutput_eq hcaptures (hemulated hnative)] at hhead
      have hsame := ofNat_inj (by omega) (by decide) (Option.some.inj hhead)
      omega
  · intro s s' index b slot slot' hb hstride hslot hslot' hfits hfits' hdraw heq
    obtain ⟨hstart, hcount, hvertex, hinstance, -⟩ : _ ∧ _ ∧ _ ∧ _ ∧ True := by simpa using hdraw
    obtain ⟨hvertexId, hinstanceId, hslots⟩ := element_inj hfits hfits' hstride hslot hslot' hstart hcount heq
    rw [vertexId, vertexId, hvertex] at hvertexId
    rw [instanceId, instanceId, hinstance] at hinstanceId
    exact ⟨(UInt32.sub_left_inj _).1 hvertexId, (UInt32.sub_left_inj _).1 hinstanceId, hslots⟩

/-- The end of a vertex stage that captures one output after a gap. -/
def gapped : Lowering where
  config := { stage := .vertex, feedback := [⟨16, [hole, 0x20]⟩] }
  resources := { stage := .vertex, api := .vulkan, reservations := { emulatesFeedback := true } }
  emulatesFeedback := true
  outputs := 1
  layerInput := none
  labels := []
  writesEpilogue := true

/-- Four vertices are drawn, the first of them at number ten; the output holds seven. -/
def gappedMemory (vertex : UInt32) (c : Cell) : UInt32 :=
  if c = countCell then 4
  else if c = startCell 0 then 100
  else if c = inputCell .baseVertex [] then 10
  else if c = inputCell .vertexIndex [] then 10 + vertex
  else if c = Slot.cell ⟨.userDefined, 0, 0⟩ then 7
  else 0

/-- Vertex two is written after a hundred words, two records and the gap; vertex three
goes elsewhere. -/
theorem written_epilogue_gapped :
    (wordCell 0 109, 7) ∈ (StageContext.zeroWorld.device Cell.Given).written (gapped.epilogue.run {}).2.ops.toList
        (fun _ => 0, gappedMemory 2) ∧
      ¬ FeedbackBuffer.element ⟨16, [hole, 0x20]⟩ (gappedMemory 2) 0 1 =
        FeedbackBuffer.element ⟨16, [hole, 0x20]⟩ (gappedMemory 3) 0 1 := by
  have hproduces : gapped.epilogue.Produces (gapped.epilogue.run {}).2.ops.toList := ⟨{}, (List.nil_append _).symm⟩
  obtain ⟨hwritten, hapart⟩ := written_epilogue (StageContext.zeroWorld.device Cell.Given) rfl (by decide +kernel)
    (fun h => by cases h) hproduces
  constructor
  · exact ((hwritten (fun _ => 0, gappedMemory 2) _ _).2 ⟨0, by decide +kernel, ⟨16, [hole, 0x20]⟩, 1, 0x20, .user 0 0,
      rfl, rfl, by decide +kernel, by decide +kernel, by decide +kernel, by decide +kernel⟩).1
  · intro heq
    obtain ⟨hvertex, -⟩ := hapart (fun _ => 0, gappedMemory 2) (fun _ => 0, gappedMemory 3) 0 ⟨16, [hole, 0x20]⟩ 1 1
      rfl (by decide +kernel) (by decide +kernel) (by decide +kernel)
      ⟨by decide +kernel, by decide +kernel⟩ ⟨by decide +kernel, by decide +kernel⟩ (by decide +kernel) heq
    exact absurd hvertex (by decide +kernel)

end Lowering
end ShaderRecompiler
