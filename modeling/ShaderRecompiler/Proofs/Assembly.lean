import ShaderRecompiler.Proofs.Emitted

/-! How a program's operations are put together: block labels are taken first, then
come what is done before the program, the blocks in order, and what closes it. All of
it keeps to the operands taken in this program. -/
namespace ShaderRecompiler

open List Operand

variable {G : Option Guest.Op → Prop} {C : Instruction → Prop} {known : List Operand} {opens : List Nat}

namespace Lowering

variable {l : Lowering}

/-- The labels of block addresses as numbers. -/
def Labels (l : Lowering) (pairs : List (Nat × Nat)) : Prop :=
  l.labels = pairs.map fun q => (q.1, label q.2)

theorem Labels.label?_eq (h : l.Labels pairs) (address : Nat) :
    l.label? address = (pairs.lookup address).map .label := by
  rw [label?, h]
  clear h
  induction pairs with
  | nil => rfl
  | cons q pairs ih =>
    rw [map_cons, lookup_cons, lookup_cons, ih]
    split <;> rfl

theorem mem_of_lookup {α β : Type} [BEq α] [LawfulBEq α] {pairs : List (α × β)} {a : α} {b : β}
    (h : pairs.lookup a = some b) : (a, b) ∈ pairs := by
  induction pairs with
  | nil => cases h
  | cons q pairs ih =>
    rw [lookup_cons] at h
    split at h
    · next ha =>
      obtain rfl := eq_of_beq ha
      obtain rfl := Option.some.inj h
      exact mem_cons_self ..
    · exact mem_cons_of_mem _ (ih h)

theorem endsInJump_close (l : Lowering) (e : Emitter) : (l.close.run e).2.endsInJump := by
  by_cases h : e.endsInJump
  · have hrun : l.close.run e = ((), e) := by
      change (if (!e.endsInJump) then do l.epilogue; Emit.ret else pure ()).run e = _
      rw [h]
      rfl
    rw [hrun]
    exact h
  · have hrun : l.close.run e = (do l.epilogue; Emit.ret : Emit Unit).run e := by
      change (if (!e.endsInJump) then do l.epilogue; Emit.ret else pure ()).run e = _
      rw [if_pos (by simpa using h)]
    rw [hrun]
    change ((l.epilogue.run e).2.ops.push ⟨.ret, .none, none, []⟩).back?.any _
    simp [Instruction.isJump]

section Program

variable (hC : ∀ inst, C inst)
include hC

theorem scopes_guarded (hbody : ∀ known opens, l.Emits G C lo known opens body) (guard : Guest.Guard) :
    l.Emits G C lo known opens (guarded guard body) := by
  refine .ite (fun _ => .fresh fun skip => ?_) fun _ => hbody known opens
  have hrest : Scopes (l.Emitted G C) lo (.label skip :: known) [] (skip :: opens) [skip]
      (do body; Emit.markLabel (.label skip)) (fun _ => []) fun _ => True :=
    .bind (hbody _ _) fun _ _ => scopes_markLabel (hC _) (by simp)
  exact .ite (fun _ => .bind (scopes_branching (hC _) rfl rfl rfl (by simp) (by simp) (by simp)) fun _ _ => hrest)
    fun _ => .bind (scopes_branching (hC _) rfl rfl rfl (by simp) (by simp) (by simp)) fun _ _ => hrest

theorem scopes_branch (hopen : n ∈ opens) (hn : label n ∈ known) (guard : Guest.Guard) :
    l.Emits G C lo known opens (branch guard (.label n)) := by
  refine .ite (fun _ => ?_) fun _ => scopes_branching (hC _) rfl rfl rfl hopen hn (by simp)
  exact .ite (fun _ => scopes_branching (hC _) rfl rfl rfl hopen hn (by simp))
    fun _ => scopes_branching (hC _) rfl rfl rfl hopen hn (by simp)

variable (hG : G none)
include hG

theorem scopes_op_or_exit {op : Guest.Op} (hop : G (some op)) : l.Emits G C lo known opens (l.op op) := by
  by_cases hexit : op = .exit
  · subst hexit
    exact .bind (scopes_epilogue hG fun _ _ => hC _) fun _ _ => .ret (.ret (hC _))
  · exact scopes_op hexit hop

theorem scopes_close : l.Emits G C lo known opens l.close := by
  refine .get fun _ => .ite (fun _ => ?_) fun _ => .nop
  exact .bind (scopes_epilogue hG fun _ _ => hC _) fun _ _ => .ret (.ret (hC _))

variable (hl : l.Labels pairs) (hopen : ∀ q ∈ pairs, q.2 ∈ opens ∧ label q.2 ∈ known)
include hl hopen

theorem scopes_placed {i : Guest.Placed} (hop : G (some i.op)) : l.Emits G C lo known opens (l.placed i) := by
  unfold placed
  split
  · next target _ =>
    rw [hl.label?_eq]
    cases hlookup : pairs.lookup target with
    | none => exact .nop
    | some n =>
      obtain ⟨hopen, hknown⟩ := hopen _ (mem_of_lookup hlookup)
      exact scopes_branch hC hopen hknown i.guard
  · exact scopes_guarded hC (fun _ _ => scopes_op_or_exit hC hG hop) i.guard

theorem scopes_block {b : Guest.Block} (hops : ∀ i ∈ b.body, G (some i.op)) :
    Scopes (l.Emitted G C) lo known [] opens (pairs.lookup b.address).toList (l.block b) (fun _ => [])
      fun _ => True := by
  have hbody : l.Emits G C lo known opens (b.body.forM l.placed) :=
    .forM fun i hi => scopes_placed hC hG hl hopen (hops i hi)
  unfold block
  rw [hl.label?_eq]
  cases hlookup : pairs.lookup b.address with
  | none => exact .nop
  | some n => exact .bind_closes (scopes_markLabel (hC _) (hopen _ (mem_of_lookup hlookup)).2) fun _ _ => hbody

end Program

/-- What is done before the program. -/
def front (l : Lowering) (parts : Parts) : Emit Unit := do
  if parts.initialOutputs then l.initializeOutputs
  if parts.prologue then l.prologue

theorem scopes_front (hG : G none) (hC : ∀ inst, C inst) (parts : Parts) :
    l.Emits G C lo known opens (l.front parts) := by
  unfold front
  refine .when (fun _ => scopes_initializeOutputs) ?_
  exact .ite (fun _ => scopes_prologue hG hC) fun _ => .nop

/-- All that is emitted once block labels are taken. -/
def whole (l : Lowering) (parts : Parts) (blocks : List Guest.Block) : Emit Unit := do
  l.front parts
  blocks.forM l.block
  l.close

theorem scopes_whole (hG : G none) (hC : ∀ inst, C inst) (hl : l.Labels pairs)
    (hopen : ∀ q ∈ pairs, q.2 ∈ opens ∧ label q.2 ∈ known) (parts : Parts)
    (hops : ∀ b ∈ blocks, ∀ i ∈ b.body, G (some i.op)) :
    Scopes (l.Emitted G C) lo known [] opens (blocks.flatMap fun b => (pairs.lookup b.address).toList)
      (l.whole parts blocks) (fun _ => []) fun _ => True := by
  refine .bind (scopes_front hG hC parts) fun _ _ => ?_
  rw [← append_nil (blocks.flatMap _)]
  refine .bind_closes (.forM_closes fun b hb => scopes_block hC hG hl hopen (hops b hb)) fun _ _ => scopes_close hC hG

end Lowering

namespace Guest.Program

variable {p : Program} {s : Surroundings} {ids : Ids}

/-- Each block's number counted from `n`, with its address; the last block comes first. -/
def numbers (p : Program) (n : Nat) : List (Nat × Nat) := (p.addresses.zipIdx n).reverse

theorem labels_run (p : Program) (e : Emitter) :
    p.labels.run e = ((p.numbers e.ids.labels).map fun q => (q.1, label q.2),
      { e with ids.labels := e.ids.labels + p.addresses.length }) := by
  have hgeneral : ∀ (addresses : List Nat) (e : Emitter) (taken : List (Nat × Operand)),
      (addresses.foldlM (fun labels address => do
          let label ← Emit.freshLabel
          return (address, label) :: labels) taken : Emit _).run e =
        (((addresses.zipIdx e.ids.labels).reverse.map fun q => (q.1, label q.2)) ++ taken,
          { e with ids.labels := e.ids.labels + addresses.length }) := by
    intro addresses
    induction addresses with
    | nil => intro e taken; rfl
    | cons address addresses ih =>
      intro e taken
      refine (ih (Emit.freshLabel.run e).2 ((address, .label e.ids.labels) :: taken)).trans ?_
      have hlabs : (Emit.freshLabel.run e).2.ids.labels = e.ids.labels + 1 := rfl
      rw [hlabs, zipIdx_cons, reverse_cons, map_append, append_assoc, length_cons, Nat.add_assoc, Nat.add_comm 1]
      rfl
  rw [labels, hgeneral, append_nil]
  rfl

/-- The surroundings of the program once its block labels are taken. -/
def lowering (p : Program) (s : Surroundings) (parts : Parts) (labels : List (Nat × Operand)) : Lowering where
  config := s.config
  resources := p.declare s.resources
  emulatesFeedback := s.host.emulatesTransformFeedback
  outputs := s.outputs
  layerInput := s.layerInput
  labels := labels
  writesEpilogue := parts.epilogue

theorem run_lowerBody (p : Program) (s : Surroundings) (parts : Parts) (e : Emitter) :
    ((p.lowerBody s parts).run e).1.1 =
        (((p.lowering s parts (p.labels.run e).1).front parts).run (p.labels.run e).2).2.ops.size ∧
      ((p.lowerBody s parts).run e).2 =
        (((p.lowering s parts (p.labels.run e).1).whole parts p.blocks).run (p.labels.run e).2).2 := by
  obtain ⟨initialOutputs, prologue, epilogue⟩ := parts
  cases initialOutputs <;> cases prologue <;> exact ⟨rfl, rfl⟩

/-- The labels of the blocks, counted from `ids`. -/
def blockLabels (p : Program) (ids : Ids) : List (Nat × Operand) :=
  (p.numbers ids.labels).map fun q => (q.1, label q.2)

/-- The emitter when all block labels are taken. -/
def started (p : Program) (ids : Ids) : Emitter := { ids := { ids with labels := ids.labels + p.addresses.length } }

theorem error?_of_lower (h : p.lower s ids parts = .ok lowered) : p.error? s.resources = none := by
  unfold lower at h
  split at h
  · cases h
  · next hnone => exact hnone

theorem fault?_eq_none (herror : p.error? r = none) (hop : op ∈ p.ops) : op.fault? r p.addresses = none := by
  obtain ⟨b, hb, hmem⟩ := mem_flatMap.1 hop
  obtain ⟨i, hi, rfl⟩ := mem_map.1 hmem
  have := findSome?_eq_none_iff.1 herror i (mem_flatMap.2 ⟨b, hb, hi⟩)
  simpa using this

theorem resources_of_lower (h : p.lower s ids parts = .ok lowered) : lowered.resources = p.declare s.resources := by
  unfold lower at h
  split at h
  · cases h
  obtain rfl := Except.ok.inj h
  rfl

theorem lower_eq (h : p.lower s ids parts = .ok lowered) :
    lowered.ops = (((p.lowering s parts (p.blockLabels ids)).whole parts p.blocks).run (p.started ids)).2.ops.toList ∧
      lowered.ids = (((p.lowering s parts (p.blockLabels ids)).whole parts p.blocks).run (p.started ids)).2.ids ∧
      lowered.bodyStart = (((p.lowering s parts (p.blockLabels ids)).front parts).run (p.started ids)).2.ops.size := by
  unfold lower at h
  split at h
  · cases h
  obtain rfl := Except.ok.inj h
  have hlabs : p.labels.run { ids } = (p.blockLabels ids, p.started ids) := p.labels_run { ids }
  obtain ⟨hstart, hbody⟩ := p.run_lowerBody s parts { ids }
  rw [hlabs] at hstart hbody
  exact ⟨congrArg (·.ops.toList) hbody, congrArg (·.ids) hbody, hstart⟩

theorem map_fst_numbers (p : Program) (n : Nat) : (p.numbers n).map Prod.fst = p.addresses.reverse := by
  rw [numbers, map_reverse, zipIdx_map_fst]

theorem map_snd_numbers (p : Program) (n : Nat) :
    (p.numbers n).map Prod.snd = (List.range' n p.addresses.length).reverse := by
  rw [numbers, map_reverse, zipIdx_map_snd]

theorem of_mem_numbers (h : q ∈ p.numbers n) : n ≤ q.2 ∧ q.2 < n + p.addresses.length := by
  obtain ⟨hle, hlt, -⟩ := mem_zipIdx (mem_reverse.1 h)
  omega

theorem flatMap_lookup {pairs : List (Nat × Nat)} (h : (pairs.map Prod.fst).Nodup) :
    (pairs.map Prod.fst).flatMap (fun a => (pairs.lookup a).toList) = pairs.map Prod.snd := by
  induction pairs with
  | nil => rfl
  | cons q pairs ih =>
    rw [map_cons, nodup_cons] at h
    have htail : ∀ a ∈ pairs.map Prod.fst, ((q :: pairs).lookup a).toList = (pairs.lookup a).toList := by
      intro a ha
      have hne : (a == q.1) = false := by
        rw [beq_eq_false_iff_ne]
        rintro rfl
        exact h.1 ha
      rw [lookup_cons, hne]
    rw [map_cons, flatMap_cons, flatMap_congr htail, ih h.2, lookup_cons, beq_self_eq_true]
    rfl

/-- What a lowered program uses was taken for it, and its labels and temporaries are in
order. -/
theorem scopes_program :
    Scopes ((p.lowering s parts (p.blockLabels ids)).Emitted (∀ op ∈ ·, op ∈ p.ops) fun _ => True) ids
      ((p.numbers ids.labels).map fun q => .label q.2) [] ((p.numbers ids.labels).map Prod.snd)
      (p.blocks.flatMap fun b => ((p.numbers ids.labels).lookup b.address).toList)
      ((p.lowering s parts (p.blockLabels ids)).whole parts p.blocks) (fun _ => []) fun _ => True := by
  have hlabs : (p.lowering s parts (p.blockLabels ids)).Labels (p.numbers ids.labels) := rfl
  refine Lowering.scopes_whole (by simp) (fun _ => trivial) hlabs ?_ parts ?_
  · exact fun q hq => ⟨mem_map_of_mem hq, mem_map_of_mem (f := fun q => label q.2) hq⟩
  · rintro b hb i hi _ ⟨⟩
    exact mem_flatMap.2 ⟨b, hb, mem_map_of_mem hi⟩

theorem lower_emitted (h : p.lower s ids parts = .ok lowered) :
    Scoped ((p.lowering s parts (p.blockLabels ids)).Emitted (∀ op ∈ ·, op ∈ p.ops) fun _ => True) ids
      ((p.numbers ids.labels).map fun q => .label q.2) [] ((p.numbers ids.labels).map Prod.snd)
      (p.blocks.flatMap fun b => ((p.numbers ids.labels).lookup b.address).toList)
      (p.started ids).ids lowered.ids lowered.ops := by
  obtain ⟨heq, hids, -⟩ := lower_eq h
  obtain ⟨added, hadd, hscoped⟩ := (@scopes_program p s ids parts).run (p.started ids)
  obtain rfl : lowered.ops = added := heq.trans hadd
  rw [hids]
  exact hscoped

theorem within_lower (h : p.lower s ids parts = .ok lowered) :
    ∀ op ∈ lowered.ops, ∀ o ∈ op.operands, o.Within ids lowered.ids := by
  refine (lower_emitted h).within ⟨Nat.le_refl _, Nat.le_add_right _ _, fun o ho => ?_, by simp⟩
  obtain ⟨q, hq, rfl⟩ := mem_map.1 ho
  exact of_mem_numbers hq

/-- With distinct addresses every label of a lowered program is its own, and marked in it. -/
theorem emission_lower (hnd : p.addresses.Nodup) (h : p.lower s ids parts = .ok lowered) :
    Emission ((p.lowering s parts (p.blockLabels ids)).Emitted (∀ op ∈ ·, op ∈ p.ops) fun _ => True) [] [] ids.labels
      lowered.ids.labels lowered.ops := by
  have hfst : ((p.numbers ids.labels).map Prod.fst).Nodup := by
    rw [map_fst_numbers]
    exact nodup_reverse.2 hnd
  have hlookup := flatMap_lookup hfst
  rw [map_fst_numbers] at hlookup
  have hblks := (reverse_perm p.addresses).flatMap_right fun a => ((p.numbers ids.labels).lookup a).toList
  rw [hlookup, addresses, flatMap_map] at hblks
  have hem := (lower_emitted h).emission.perm hblks.symm
  rw [map_snd_numbers] at hem
  exact hem.scope_range

theorem exists_last_of_lower (h : p.lower s ids parts = .ok lowered) :
    ∃ last ∈ lowered.ops.getLast?, last.inst.isJump := by
  obtain ⟨hops, -⟩ := lower_eq h
  let l := p.lowering s parts (p.blockLabels ids)
  have hlast := l.endsInJump_close ((p.blocks.forM l.block).run ((l.front parts).run (p.started ids)).2).2
  rw [Emitter.endsInJump, ← Array.getLast?_toList, Option.any_eq_true] at hlast
  rw [hops]
  exact hlast

theorem assigning_lower (h : p.lower s ids parts = .ok lowered) :
    Assigning [] [] ids.temps lowered.ids.temps lowered.ops :=
  (lower_emitted h).assigning.congr (by simp)

end Guest.Program
end ShaderRecompiler
