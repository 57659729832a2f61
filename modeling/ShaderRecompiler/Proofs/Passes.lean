import ShaderRecompiler.Proofs.Expansion
import ShaderRecompiler.Proofs.Replacement

/-! The passes keep what the check asks for: the operations stay accepted, and terminators
stand last in their blocks. So they keep operations that fit. -/
namespace ShaderRecompiler

open List Operation IoVariable Check

variable {sources : List Operand} {r : Routine} {x : Setting} {fetched : UInt32}

variable {op : Operation} {Q : Operation → Prop}

namespace Routine

variable {resources : Resources}

/-- A routine of operations that obey a condition, with the terminators in their places. -/
structure Obeys (r : Routine) (Q : Operation → Prop) : Prop where
  linked : r.WellLinked
  holds : ∀ b, ∀ op ∈ r.code b, Q op
  plain : ∀ b, ∀ op ∈ (r.code b).dropLast, op.inst.isTerminator = false

abbrev Fits (r : Routine) (x : Setting) : Prop := r.Obeys (Operation.Fits x)

theorem Obeys.mono (h : r.Obeys P) (hPQ : ∀ op, P op → Q op) : r.Obeys Q :=
  ⟨h.linked, fun b op hop => hPQ op (h.holds b op hop), h.plain⟩

theorem Obeys.isTerminator_eq (h : r.Obeys Q) {id : OpId} (hid : id ∈ r.blockOps b)
    (hlast : r.last b ≠ some id) : (r.op id).inst.isTerminator = false := by
  rw [h.linked.last_eq] at hlast
  have hdrop : id ∈ (r.blockOps b).dropLast := mem_dropLast_of_mem_of_ne_getLast? hid hlast.symm
  refine h.plain b _ ?_
  rw [code, ← map_dropLast]
  exact mem_map_of_mem hdrop

theorem Obeys.ofOperations {ids : Ids} (hr : Routine.ofOperations ops ids = .ok r)
    (hops : ∀ op ∈ ops, Q op) : r.Obeys Q where
  linked := .ofOperations hr
  holds _ op hop := hops op (mem_code_ofOperations hr hop)
  plain := (Closed.ofOperations hr).plain (.ofOperations hr)

theorem Obeys.check_eq_ok (h : r.Obeys (Checked c resources)) : r.check c resources = .ok () := by
  refine forM_eq_ok_iff.2 fun ⟨b, id⟩ hmem => ?_
  have hid : id ∈ r.blockOps b := (mem_allOps.1 hmem).2
  have hop : (r.op id).Checked c resources := h.holds b _ (mem_map_of_mem hid)
  have hplaced : ¬((r.op id).inst.isTerminator ∧ r.last b ≠ some id) := by
    rintro ⟨hterm, hlast⟩
    simp [h.isTerminator_eq hid hlast] at hterm
  dsimp only
  rw [if_neg hplaced, hop.operation_eq_ok]
  rfl

/-- What the check accepts obeys it. -/
theorem WellLinked.obeys_of_check (hlink : r.WellLinked) (h : r.check c resources = .ok ()) :
    r.Obeys (Checked c resources) := by
  have heach : ∀ b, ∀ id ∈ r.blockOps b, ((r.op id).inst.isTerminator → r.last b = some id) ∧
      (r.op id).Checked c resources := by
    intro b id hid
    have hb : b < r.blocks.size := by
      by_contra hb
      simp [blockOps_of_size_le hlink (Nat.le_of_not_lt hb)] at hid
    have hop := forM_eq_ok_iff.1 h (b, id) (mem_allOps.2 ⟨hb, hid⟩)
    dsimp only at hop
    split at hop
    · cases hop
    · next hplaced =>
      refine ⟨fun hterm => by_contra fun hlast => hplaced ⟨hterm, hlast⟩, .of_operation_eq_ok ?_⟩
      cases hres : operation c resources (r.op id) with
      | error e =>
        rw [hres] at hop
        cases hop
      | ok u => rfl
  refine ⟨hlink, fun b op hop => ?_, fun b op hop => ?_⟩
  · obtain ⟨id, hid, rfl⟩ := mem_map.1 hop
    exact (heach b id hid).2
  · rw [code, ← map_dropLast] at hop
    obtain ⟨id, hid, rfl⟩ := mem_map.1 hop
    refine Bool.eq_false_iff.2 fun hterm => ?_
    -- The last operation would stand twice in the block.
    have hlast := (heach b id (dropLast_subset _ hid)).1 hterm
    rw [hlink.last_eq] at hlast
    have hnd := hlink.nodup b
    rw [← dropLast_append_getLast? id hlast, nodup_append] at hnd
    exact hnd.2.2 id hid id (by simp) rfl

end Routine

/-- Obeys a condition and leaves the flow of control alone. -/
def Operation.Straight (Q : Operation → Prop) (op : Operation) : Prop := Q op ∧ op.inst.isStraight

/-- What is kept of an operation obeys the condition, and ends a block only if the
operation did. -/
def Verdict.Keeps (verdict : Verdict) (Q : Operation → Prop) (op : Operation) : Prop :=
  ∀ kept, verdict.kept = some kept → Q kept ∧ (kept.inst.isTerminator → op.inst.isTerminator)

theorem Verdict.keeps_of_kept_eq {verdict : Verdict} (hop : Q op)
    (h : verdict.kept = some op) : verdict.Keeps Q op := by
  intro kept hkept
  obtain rfl := Option.some.inj (h.symm.trans hkept)
  exact ⟨hop, id⟩

theorem Verdict.keeps_drop : Verdict.drop.Keeps Q op := by
  intro kept hkept
  cases hkept

/-- From an operation that obeys the condition, an expansion emits such operations and
keeps such a one. -/
def Expansion.Keeps (expand : Expansion) (Q : Operation → Prop) : Prop :=
  ∀ op : Operation, Q op → Emit.Appends 0 (Straight Q) (expand op) fun verdict => verdict.Keeps Q op

namespace Expansion

variable {expand : Expansion} {floor : Nat} {old new : List Operation}

namespace Keeps

variable (h : expand.Keeps Q)
include h

theorem piece (hop : Q op) (ids : Ids) : ∃ emitted kept, expand.piece ids op = emitted ++ Option.toList kept ∧
      (∀ o ∈ emitted, Q o ∧ o.inst.isTerminator = false) ∧
      ∀ o, kept = some o → Q o ∧ (o.inst.isTerminator → op.inst.isTerminator) := by
  obtain ⟨hkept, -, added, hops, hadd⟩ := h op hop { ids } (Nat.zero_le _)
  have hops : ((expand op).run { ids }).2.ops.toList = added := hops
  refine ⟨added, ((expand op).run { ids }).1.kept, ?_, fun o ho => ?_, hkept⟩
  · rw [← hops]
    rfl
  · obtain ⟨hQ, hs⟩ := hadd o ho
    exact ⟨hQ, Instruction.isTerminator_of_isStraight hs⟩

theorem of_mem_piece (hop : Q op) (ho : o ∈ expand.piece ids op) :
    Q o ∧ (o.inst.isTerminator → op.inst.isTerminator) := by
  obtain ⟨emitted, kept, hpiece, hemitted, hkept⟩ := h.piece hop ids
  rw [hpiece, mem_append, Option.mem_toList] at ho
  obtain ho | ho := ho
  · exact ⟨(hemitted o ho).1, by simp [(hemitted o ho).2]⟩
  · exact hkept o ho

variable (he : expand.Expands floor old new) (hold : ∀ op ∈ old, Q op)
include he hold

theorem holds : ∀ op ∈ new, Q op := by
  intro o ho
  obtain ⟨op, hop, ids, -, ho⟩ := he.exists_of_mem ho
  exact (h.of_mem_piece (hold op hop) ho).1

theorem straight (hpln : ∀ op ∈ old, op.inst.isTerminator = false) : ∀ op ∈ new, op.inst.isTerminator = false := by
  intro o ho
  obtain ⟨op, hop, ids, -, ho⟩ := he.exists_of_mem ho
  rw [← Bool.not_eq_true]
  exact fun hterm => by simpa [hpln op hop] using (h.of_mem_piece (hold op hop) ho).2 hterm

theorem plain (hpln : ∀ op ∈ old.dropLast, op.inst.isTerminator = false) :
    ∀ op ∈ new.dropLast, op.inst.isTerminator = false := by
  cases he with
  | nil => exact hpln
  | @snoc old new op ids _ he =>
    rw [dropLast_concat] at hpln
    obtain ⟨emitted, kept, hpiece, hemitted, -⟩ := h.piece (hold op (by simp)) ids
    have hnew := h.straight he (fun o ho => hold o (mem_append_left _ ho)) hpln
    have hfront : ∀ o ∈ new ++ emitted, o.inst.isTerminator = false := fun o ho =>
      (mem_append.1 ho).elim (hnew o) fun ho => (hemitted o ho).2
    rw [hpiece, ← append_assoc]
    cases kept with
    | none =>
      rw [Option.toList_none, append_nil]
      exact fun o ho => hfront o (dropLast_subset _ ho)
    | some k =>
      rw [Option.toList_some, dropLast_concat]
      exact hfront

end Keeps

end Expansion

theorem Routine.Obeys.expand (h : r.Obeys Q) {expand : Expansion}
    (hexp : expand.Keeps Q) : (r.expand expand).2.Obeys Q := by
  obtain ⟨hlink, -, -, hcode, -⟩ := Routine.expand_spec h.linked (Nat.zero_le _) fun _ _ _ => Nat.zero_le _
  exact ⟨hlink, fun b => hexp.holds (hcode b) (h.holds b), fun b => hexp.plain (hcode b) (h.holds b) (h.plain b)⟩

/-! Draw parameters. -/

namespace Operand.Replaced

theorem asNat?_eq (h : Replaced o o') : o'.asNat? = o.asNat? := by
  obtain rfl | ⟨ho, -, ho'⟩ := h
  · rfl
  · rw [ho, ho'.asNat?_eq]

theorem isLabel_eq (h : Replaced o o') : o'.isLabel = o.isLabel := by
  obtain rfl | ⟨-, ho, ho'⟩ := h
  · rfl
  · rw [ho, ho'.isLabel_eq]

theorem getElem? (h : Forall₂ Replaced xs ys) (i : Nat) : ys[i]?.bind asNat? = xs[i]?.bind asNat? := by
  induction h generalizing i with
  | nil => rfl
  | cons hab _ ih =>
    cases i with
    | zero => exact hab.asNat?_eq
    | succ i => simpa using ih i

theorem label (h : Forall₂ Replaced xs ys) (hl : xs[0]? = some (.label l)) : ys[0]? = some (.label l) := by
  cases h with
  | nil => cases hl
  | cons hab _ =>
    obtain rfl := Option.some.inj hl
    obtain rfl | ⟨-, hlab, -⟩ := hab
    · rfl
    · cases hlab

theorem isLabel_of_mem (h : Forall₂ Replaced xs ys) (hxs : ∀ o ∈ xs, o.isLabel = false) :
    ∀ o ∈ ys, o.isLabel = false := by
  induction h with
  | nil => exact hxs
  | cons hab _ ih =>
    obtain ⟨ha, hxs⟩ := forall_mem_cons.1 hxs
    exact forall_mem_cons.2 ⟨hab.isLabel_eq.trans ha, ih hxs⟩

theorem optional {p : Bool} (h : Forall₂ Replaced (if p then [o] else []) ys) :
    ∃ o', ys = (if p then [o'] else []) ∧ Replaced o o' := by
  cases p
  · exact ⟨o, forall₂_nil_left_iff.1 h, .inl rfl⟩
  · obtain ⟨o', _, hr, hnil, rfl⟩ := forall₂_cons_left_iff.1 h
    obtain rfl := forall₂_nil_left_iff.1 hnil
    exact ⟨o', rfl, hr⟩

theorem append (h : Forall₂ Replaced (us ++ vs) ys) :
    ∃ us' vs', ys = us' ++ vs' ∧ Forall₂ Replaced us us' ∧ Forall₂ Replaced vs vs' := by
  induction us generalizing ys with
  | nil => exact ⟨[], ys, rfl, .nil, h⟩
  | cons u us ih =>
    obtain ⟨u', rest, hu, hrest, rfl⟩ := forall₂_cons_left_iff.1 h
    obtain ⟨us', vs', rfl, hus, hvs⟩ := ih hrest
    exact ⟨u' :: us', vs', rfl, .cons hu hus, hvs⟩

theorem accessSources {c : Config} {storage : Storage}
    (h : Forall₂ Replaced (c.accessSources storage v location vertex component ++ rest) ys) :
    ∃ location' vertex' component' rest', ys = c.accessSources storage v location' vertex' component' ++ rest' ∧
        Replaced location location' ∧ Replaced component component' := by
  obtain ⟨_, rest', rfl, hfront, -⟩ := append h
  obtain ⟨_, _, rfl, hfront, hcs⟩ := append hfront
  obtain ⟨_, _, rfl, hfront, hvs⟩ := append hfront
  obtain ⟨firsts, _, rfl, hfirsts, hls⟩ := append hfront
  obtain ⟨location', rfl, hl⟩ := optional hls
  obtain ⟨vertex', rfl, -⟩ := optional hvs
  obtain ⟨component', rfl, hc⟩ := optional hcs
  obtain ⟨first, _, hfst, hnil, rfl⟩ := forall₂_cons_left_iff.1 hfirsts
  obtain rfl := forall₂_nil_left_iff.1 hnil
  have hio : first = v.operand := by
    obtain rfl | ⟨hnone, -⟩ := hfst
    · rfl
    · simp [v.asNat?_operand] at hnone
  subst hio
  exact ⟨location', vertex', component', rest', rfl, hl, hc⟩

end Operand.Replaced

/-- Replacing operands that are neither constants nor labels leaves an operation accepted. -/
theorem Operation.Checked.replace {r : Resources} (h : op.Checked c r)
    (hs : Forall₂ Operand.Replaced op.sources sources) :
    Checked c r { op with sources } := by
  have hplc : ∀ i, place? { op with sources } i = op.place? i := fun i => Operand.Replaced.getElem? hs i
  have hcnt : expectedSources c r { op with sources } = expectedSources c r op := by
    simp only [expectedSources, elementSources, bufferSources, memorySources, ioSources, ioVariable?, hplc]
  refine ⟨?_, h.dest⟩
  rw [hcnt, h.count, hs.length_eq]

theorem Operation.Fits.replace (h : op.Fits x)
    (hs : Forall₂ Operand.Replaced op.sources sources) : Fits x { op with sources } := by
  refine ⟨h.toChecked.replace hs, h.writable, fun hstr hret => ?_, ?_, fun hinst hio => ?_, h.texture, h.image⟩
  · obtain ⟨l, hl⟩ := h.labelled hstr hret
    exact ⟨l, Operand.Replaced.label hs hl⟩
  · have hvals := h.values
    unfold Operation.values at hvals ⊢
    by_cases hstr : op.inst.isStraight
    · rw [if_pos hstr] at hvals ⊢
      exact Operand.Replaced.isLabel_of_mem hs hvals
    · rw [if_neg hstr] at hvals ⊢
      exact Operand.Replaced.isLabel_of_mem (forall₂_drop 1 hs) hvals
  · obtain ⟨v, location, vertex, component, rest, hsrc, ha⟩ := h.access hinst hio
    rw [hsrc] at hs
    obtain ⟨location', vertex', component', rest', hsrc', hl, hc⟩ := Operand.Replaced.accessSources hs
    refine ⟨v, location', vertex', component', rest', hsrc', ?_⟩
    exact ⟨by rw [hl.asNat?_eq]; exact ha.color, by rw [hl.asNat?_eq]; exact ha.patch,
      by rw [hl.asNat?_eq, hc.asNat?_eq]; exact ha.output, by rw [hl.asNat?_eq]; exact ha.input⟩

/-! Conditions that outlast the passes. -/

namespace Operation

variable {op' : Operation}

theorem Fits.mem_inputs (h : op.Fits x) (hload : op.isLoad .input) (hstage : x.config.guestStage = .vertex)
    (hv : op.ioVariable? = some .userDefined) (hn : op.place? 1 = some n) :
    n ∈ Mask.below x.inputs Attribute.userLocations := by
  obtain ⟨hinst, hstor⟩ := isLoad_eq hload
  have hio : op.storage.isIo := by rw [hstor]; rfl
  obtain ⟨v, location, vertex, component, rest, hsrc, ha⟩ := h.access (.inl hinst) hio
  obtain rfl := Option.some.inj ((ioVariable?_eq hio hsrc).symm.trans hv)
  have hloc : op.place? 1 = location.asNat? := by
    simp [place?, source?, hsrc, Config.accessSources, hasLocation]
  exact ha.input rfl hstor hstage n (hloc.symm.trans hn)

/-- `op'` moves a word between operands of `op`, new ones and what is declared. -/
structure Moves (x : Setting) (op op' : Operation) : Prop extends op'.Checked x.config x.resources where
  moves : op'.inst = .copy ∨ (op'.inst = .load ∨ op'.inst = .store) ∧ op'.storage.isIo = false
  writes : ∀ d, op'.dest = some d → op.dest = some d ∨ d.isWritable
  reads : ∀ o ∈ op'.sources, o ∈ op.sources ∨ o.isLabel = false

theorem Moves.isStraight (h : Moves x op op') : op'.inst.isStraight := by
  obtain hi | ⟨hi | hi, -⟩ := h.moves <;> rw [hi] <;> rfl

theorem Fits.moves (h : op.Fits x) (hs : op.inst.isStraight) (hm : Moves x op op') : op'.Fits x := by
  have hvals := h.values
  rw [values_of_straight hs] at hvals
  refine ⟨hm.toChecked, fun d hd => (hm.writes d hd).elim (h.writable d) id, labelled_of_straight hm.isStraight,
    ?_, ?_, ?_, ?_⟩
  · rw [values_of_straight hm.isStraight]
    exact fun o ho => (hm.reads o ho).elim (hvals o) id
  · intro hinst hio
    obtain hcopy | ⟨-, hnone⟩ := hm.moves
    · simp [hcopy] at hinst
    · simp [hnone] at hio
  · intro t ht
    obtain hi | ⟨hi | hi, -⟩ := hm.moves <;> cases hi.symm.trans ht
  · intro i himg
    obtain hi | ⟨hi | hi, -⟩ := hm.moves <;> rw [hi] at himg <;> obtain himg | himg := himg <;> cases himg

end Operation

/-- A condition on operations that is met by whatever fits, and by what the passes make
of an operation that meets it. -/
structure Setting.Stable (x : Setting) (Q : Operation → Prop) : Prop where
  checked : ∀ {op}, Q op → op.Checked x.config x.resources
  accepts : ∀ {op}, op.Fits x → Q op
  moves : ∀ {op op'}, Q op → op.inst.isStraight → Moves x op op' → Q op'
  replace : ∀ {op} {sources}, Q op → Forall₂ Operand.Replaced op.sources sources → Q { op with sources }
  fetch : ∀ {op n}, Q op → op.isLoad .input → x.config.guestStage = .vertex →
    op.ioVariable? = some .userDefined → op.place? 1 = some n → ∀ d v i, x.resources.emulation = some (.vertex d v i) →
      x.Samples (x.resources.reservations.vertexBuffer n)

namespace Setting

theorem stable_fits (hfetch : x.Fetches) : x.Stable (Operation.Fits x) where
  checked h := h.toChecked
  accepts h := h
  moves := Operation.Fits.moves
  replace h hs := h.replace hs
  fetch h hload hstage hv hn d v i he := hfetch d v i he _ (h.mem_inputs hload hstage hv hn)

theorem stable_checked (c : Config) (r : Resources) (inputs : UInt32) (D : Prop) :
    Stable ⟨c, r, inputs, D, fun _ => True⟩ (Checked c r) where
  checked h := h
  accepts h := h.toChecked
  moves _ _ hm := hm.toChecked
  replace h hs := h.replace hs
  fetch _ _ _ _ _ _ _ _ _ := .inr trivial

end Setting

/-- What operations have to fit while the passes run. -/
abbrev PassContext.setting (c : PassContext) (inputs : UInt32) (D : Prop) (U : Nat → Prop) : Setting :=
  ⟨c.config, c.resources, inputs, D, U⟩

section Keep

variable {x : PassContext} {inputs : UInt32} {D : Prop} {U : Nat → Prop} {B : Reach}
  (hQ : (x.setting inputs D U).Stable Q) (hp : x.resources.Provides fetched)
  (hstage : ∀ d v i, x.resources.emulation = some (.vertex d v i) → x.config.guestStage = .vertex)

include hQ hp hstage

/-- What is put in the place of an operation meets the condition if the operation does. -/
theorem PassContext.Inserts.straight (hop : Q op) (h : x.Inserts B op o) : Straight Q o := by
  have hlabs : ∀ {sources : List Operand}, (∀ o ∈ sources, o.isValue) → ∀ o ∈ sources, o.isLabel = false :=
    fun h o ho => Operand.isLabel_of_isValue (h o ho)
  have hmoves : op.inst = .load ∨ op.inst = .store → Moves (x.setting inputs D U) op o → Q o := by
    refine fun hinst hm => hQ.moves hop ?_ hm
    obtain hinst | hinst := hinst <;> rw [hinst] <;> rfl
  refine ⟨?_, h.beside.straight⟩
  cases h with
  | compute hinst hsrc =>
    obtain ⟨hpln, hdest, harity⟩ := Instruction.computes_iff.1 hinst
    exact hQ.accepts (.plain hpln harity.symm hdest.symm (by simp [Operand.isWritable]) (hlabs hsrc))
  | sample hm hload hv hloc hbind hcoord helt =>
    have hsamples := hQ.fetch hop hload (hstage _ _ _ hm) hv hloc _ _ _ hm
    rw [← hbind] at hsamples
    exact hQ.accepts (.textureSample (hlabs (forall_mem_singleton.2 helt)) rfl hsamples hcoord.symm)
  | fetch h =>
    exact hQ.accepts (.load (hlabs h.isValue) rfl (h.elementSources_eq hp _ _) fun hio =>
      nomatch h.isIo_eq.symm.trans hio)
  | input _ hloc => exact hQ.accepts (.loadIo rfl (.builtin hloc) rfl rfl rfl rfl)
  | keep h hval =>
    exact hQ.accepts (.store (hlabs (forall_mem_append.2 ⟨h.isValue, forall_mem_singleton.2 hval⟩))
      length_append (h.elementSources_eq hp _ _) fun hio => nomatch h.isIo_eq.symm.trans hio)
  | remapped hm hload hvtx =>
    obtain ⟨-, hremap, -⟩ := hp.memories _ hm
    refine hmoves (.inl hload) { count := ?_, dest := rfl, moves := .inr ⟨.inl rfl, rfl⟩, writes := ?_, reads := ?_ }
    · exact @elementSources_localWords x.config _ _ _ _ _ hremap
    · simp [Operand.isWritable]
    · simp [hvtx]
  | record hm hstore offset =>
    have hwords := (hp.memories _ hm).hasWords
    refine hmoves (.inr hstore)
      { count := ?_, dest := rfl, moves := .inr ⟨.inr rfl, rfl⟩, writes := nofun, reads := ?_ }
    · change (· + 1) <$> elementSources x.config x.resources _ = _
      rw [elementSources_localWords hwords]
      rfl
    · refine forall_mem_cons.2 ⟨.inr rfl, forall_mem_cons.2 ⟨.inr rfl, forall_mem_singleton.2 ?_⟩⟩
      exact (Operand.mem_getLastD op.sources).imp_right fun hlast => by rw [hlast]; rfl
  | copy hload hdest =>
    exact hmoves (.inl hload)
      { count := rfl, dest := rfl, moves := .inl rfl, writes := fun _ hd => .inl (hdest.trans hd), reads := by simp }
  | load hload h =>
    refine hmoves (.inl hload)
      { count := ?_, dest := ?_, moves := .inr ⟨.inl rfl, h.isIo_eq⟩, writes := fun _ => .inl, reads := ?_ }
    · exact h.elementSources_eq hp _ _
    · exact (hQ.checked hop).dest.trans (by rw [hload])
    · exact fun o ho => .inr (hlabs h.isValue o ho)

theorem DrawParameters.keeps_expansion : (expansion x).Keeps Q := by
  intro op hop
  have hsrc := @scopes_sources x (.memories fun _ => True) op (fun _ => trivial) x.host.drawParametersInBuffer
  refine .bind (hsrc.appends.imp fun _ ho => ho.straight hQ hp hstage hop) fun _ hs => .pure ?_
  rintro kept ⟨⟩
  exact ⟨hQ.replace hop hs, id⟩

theorem Decides.keeps (hop : Q op) (h : Decides (x.Inserts B op) (·.kept = some op) op m) :
    Emit.Appends 0 (Straight Q) m fun v => v.Keeps Q op := by
  refine (h.appends.imp fun _ ho => ho.straight hQ hp hstage hop).mono ?_
  rintro v (rfl | hkept)
  · exact Verdict.keeps_drop
  · exact Verdict.keeps_of_kept_eq hop hkept

theorem VertexEmulation.keeps_expansion : (expansion x).Keeps Q :=
  fun op hop => (decides_expansion (B := .memories fun _ => True) x (fun _ _ => trivial) op).keeps hQ hp hstage hop

omit hstage in
theorem GeometryEmulation.keeps_expansion : (expansion x).Keeps Q := by
  intro op hop
  by_cases hm : ∃ d r v i, x.resources.emulation = some (.geometry d r v i)
  · obtain ⟨d, r, v, i, he⟩ := hm
    have hems := emulates_expansion (B := .memories fun _ => True) he (fun _ => trivial) (fun _ => trivial)
      fun _ => trivial
    exact (hems.decides (fun _ _ => trivial) op).keeps hQ hp (fun _ _ _ hv => nomatch he.symm.trans hv) hop
  · rw [expansion_of_foreign hm]
    exact .pure (Verdict.keeps_of_kept_eq hop rfl)

end Keep

section Run

variable {c : PassContext} (hp : c.resources.Provides fetched)

include hp

theorem Passed.obeys_run (hQ : (c.setting inputs D U).Stable Q) {state : Passed} (h : state.routine.Obeys Q)
    (pass : Pass) : (state.run c pass).routine.Obeys Q := by
  unfold Passed.run
  split
  · next henabled =>
    refine h.expand ?_
    cases pass with
    | drawParameters => exact DrawParameters.keeps_expansion hQ hp fun _ _ _ _ => eq_of_beq henabled
    | vertexEmulation =>
      simp only [Pass.isEnabled, Bool.and_eq_true, beq_iff_eq] at henabled
      exact VertexEmulation.keeps_expansion hQ hp fun _ _ _ _ => henabled.1
    | geometryEmulation => exact GeometryEmulation.keeps_expansion hQ hp
  · exact h

theorem Routine.Obeys.runPasses (hQ : (c.setting inputs D U).Stable Q) (h : r.Obeys Q)
    (features : Features) : (r.runPasses c features).routine.Obeys Q := by
  have hfold : ∀ (passes : List Pass) (state : Passed), state.routine.Obeys Q →
      (passes.foldl (Passed.run c) state).routine.Obeys Q := by
    intro passes
    induction passes with
    | nil => exact fun _ hstate => hstate
    | cons pass passes ih => exact fun state hstate => ih _ (Passed.obeys_run hp hQ hstate pass)
  exact hfold Pass.all { routine := r, features } h

end Run

namespace Routine

/-- A routine that the check accepts is accepted after the passes, against any resources
that hold what its stage declares. -/
theorem check_runPasses {r : Routine} (hlinked : r.WellLinked) (s : StageContext) (emulated : Bool) {c : PassContext}
    (hresources : (s.resources emulated).Extends c.resources) (hcheck : r.check c.config c.resources = .ok ())
    (features : Features) : (r.runPasses c features).routine.WellLinked ∧
      (r.runPasses c features).routine.check c.config c.resources = .ok () := by
  have hprovides := (s.provides_resources emulated).mono hresources
  have hstable := Setting.stable_checked c.config c.resources s.usage.attributes.inputs True
  have hobeys := (hlinked.obeys_of_check hcheck).runPasses hprovides hstable features
  exact ⟨hobeys.linked, hobeys.check_eq_ok⟩

/-- An emulated vertex stage that has no program of its own yet. -/
def relay : StageContext := .ofProgram { blocks := [] } { stage := .vertex } {} {}

/-- The passes run for `relay`, on a host that hands out draw parameters. -/
def relayContext : PassContext := ⟨relay.configFor true, relay.resources true, { drawParametersInBuffer := true }⟩

/-- Adds a draw parameter to an input and writes it out; the check also lets pass a copy
that no text can express. -/
def relaying : List Operation :=
  [⟨.load, .input, some (.register ⟨0⟩), [userDefined.operand, .word 0, .word 1]⟩,
    ⟨.add .u32, .none, some (.register ⟨1⟩), [.register ⟨0⟩, .constantBuffer 0 400]⟩,
    ⟨.store, .output, none, [position.operand, .word 2, .register ⟨1⟩]⟩,
    ⟨.load, .output, some .undefined, [position.operand, .word 2]⟩,
    ⟨.copy, .none, some (.constant 0), [.label 0]⟩,
    ⟨.ret, .none, none, []⟩]

theorem check_runPasses_relaying : ∃ r, ofOperations relaying {} = .ok r ∧
    r.check relayContext.config relayContext.resources = .ok () ∧
    (r.runPasses relayContext { emulated := true }).routine.allOps.length = 18 ∧
    (r.runPasses relayContext { emulated := true }).routine.WellLinked ∧
    (r.runPasses relayContext { emulated := true }).routine.check relayContext.config relayContext.resources =
      .ok () := by
  have hok : (ofOperations relaying {}).toOption.any (fun r =>
      decide (r.check relayContext.config relayContext.resources = .ok () ∧
        (r.runPasses relayContext { emulated := true }).routine.allOps.length = 18)) = true := by
    decide +kernel
  cases hr : ofOperations relaying {} with
  | error e => simp [hr, Except.toOption] at hok
  | ok r =>
    simp only [hr, Except.toOption, Option.any_some, decide_eq_true_eq] at hok
    exact ⟨r, rfl, hok.1, hok.2, check_runPasses (.ofOperations hr) relay true (.refl _) hok.1 _⟩

end Routine
end ShaderRecompiler
