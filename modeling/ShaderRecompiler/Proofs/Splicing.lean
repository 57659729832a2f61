import ShaderRecompiler.Proofs.Cutting
import ShaderRecompiler.Proofs.Rewriting

/-! Code in the place of operations. A list of operations is run as it stands, but where an
operation goes straight on, other code is performed in its place. A block graph whose
blocks were rewritten operation by operation runs as the list that the graph was cut
from does with the new code at each place. -/
namespace ShaderRecompiler

open Segment List Nat

universe u

structure Visit (σ : Type u) where
  op : Operation
  /-- What was performed in its place. -/
  code : List Operation
  /-- The state before. -/
  state : σ

namespace Spliced

variable {σ : Type u} {parts : List (Operation × List Operation)}

section Run

variable (I : Interpretation σ) (ops : List Operation) (code : Nat → List Operation)

/-- Control goes where the operation leads, and the code at its place is performed. -/
def step : Option Nat × σ → Option Nat × σ
  | (none, s) => (none, s)
  | (some pc, s) =>
    match ops[pc]? with
    | none => (none, s)
    | some op => (Flat.follow I ops pc op s, if op.inst.isStraight then I.performAll (code pc) s else s)

/-- Marks and branches are not recorded. -/
def visit : Option Nat × σ → List (Visit σ)
  | (none, _) => []
  | (some pc, s) => (ops[pc]?.filter (·.inst.isStraight)).toList.map fun op => ⟨op, code pc, s⟩

def run : Nat → Option Nat × σ → List (Visit σ) × Option Nat × σ
  | 0, c => ([], c)
  | n + 1, c =>
    let (visits, last) := run n (step I ops code c)
    (visit ops code c ++ visits, last)

end Run

variable {I : Interpretation σ} {ops : List Operation} {code : Nat → List Operation} {pc : Nat} {s : σ}

@[simp] theorem run_zero (c : Option Nat × σ) : run I ops code 0 c = ([], c) := rfl

theorem run_succ (n : Nat) (c : Option Nat × σ) : run I ops code (n + 1) c =
      (visit ops code c ++ (run I ops code n (step I ops code c)).1, (run I ops code n (step I ops code c)).2) :=
  rfl

@[simp] theorem run_none (n : Nat) (s : σ) : run I ops code n (none, s) = ([], none, s) := by
  induction n with
  | zero => rfl
  | succ n ih => rw [run_succ, step, ih]; rfl

theorem run_one (c : Option Nat × σ) : run I ops code 1 c = (visit ops code c, step I ops code c) := by
  rw [run_succ]
  simp

theorem stepwise : Stepwise (run I ops code) :=
  ⟨run_zero, run_none, fun _ _ => by rw [run_one, run_succ]⟩

theorem run_past (h : ops.length ≤ pc) : run I ops code 1 (some pc, s) = ([], none, s) := by
  rw [run_one, step, visit, getElem?_eq_none h]
  rfl

theorem run_straight_one (h : ops[pc]? = some op) (hop : op.inst.isStraight) :
    run I ops code 1 (some pc, s) = ([⟨op, code pc, s⟩], some (pc + 1), I.performAll (code pc) s) := by
  rw [run_one, step, visit, h, Option.filter_some, if_pos hop]
  simp only [hop, if_true, Flat.follow_straight hop]
  rfl

theorem run_bent_one (h : ops[pc]? = some op) (hop : op.inst.isStraight = false) :
    run I ops code 1 (some pc, s) = ([], Flat.follow I ops pc op s, s) := by
  rw [run_one, step, visit, h, Option.filter_some]
  simp [hop]

variable (I code s) in
theorem step_cases (h : ops[pc]? = some op) : (op.inst.isStraight ∧ visit ops code (some pc, s) = [⟨op, code pc, s⟩] ∧
      step I ops code (some pc, s) = (some (pc + 1), I.performAll (code pc) s)) ∨
    (op.inst.isStraight = false ∧ visit ops code (some pc, s) = [] ∧
      step I ops code (some pc, s) = (Flat.follow I ops pc op s, s)) := by
  have hone : run I ops code 1 (some pc, s) = (visit ops code (some pc, s), step I ops code (some pc, s)) := run_one _
  cases hop : op.inst.isStraight with
  | true => exact .inl ⟨rfl, Prod.mk.inj (hone.symm.trans (run_straight_one h hop))⟩
  | false => exact .inr ⟨rfl, Prod.mk.inj (hone.symm.trans (run_bent_one h hop))⟩

variable (I ops code) in
theorem visit_cases (c : Option Nat × σ) :
    (visit ops code c = [] ∧ (step I ops code c).2 = c.2) ∨ ∃ pc op, c.1 = some pc ∧ ops[pc]? = some op ∧
      op.inst.isStraight ∧ visit ops code c = [⟨op, code pc, c.2⟩] ∧
      step I ops code c = (some (pc + 1), I.performAll (code pc) c.2) := by
  obtain ⟨_ | pc, s⟩ := c
  · exact .inl ⟨rfl, rfl⟩
  · cases hop : ops[pc]? with
    | none =>
      have hone : run I ops code 1 (some pc, s) = (visit ops code (some pc, s), step I ops code (some pc, s)) :=
        run_one _
      obtain ⟨hvisit, hstep⟩ := Prod.mk.inj (hone.symm.trans (run_past (getElem?_eq_none_iff.1 hop)))
      exact .inl ⟨hvisit, by rw [hstep]⟩
    | some op =>
      obtain ⟨hstr, hvisit, hstep⟩ | ⟨-, hvisit, hstep⟩ := step_cases I code s hop
      · exact .inr ⟨pc, op, rfl, hop, hstr, hvisit, hstep⟩
      · exact .inl ⟨hvisit, by rw [hstep]⟩

theorem run_marks (h : Flat.Stands ops pc marks) (hmarks : ∀ op ∈ marks, op.inst = .markLabel)
    (s : σ) : run I ops code marks.length (some pc, s) = ([], some (pc + marks.length), s) := by
  induction marks generalizing pc with
  | nil => rfl
  | cons op marks ih =>
    obtain ⟨hop, hmarks⟩ := forall_mem_cons.1 hmarks
    have hone : run I ops code 1 (some pc, s) = ([], some (pc + 1), s) := by
      rw [run_bent_one h.head (by rw [hop]; rfl), Flat.follow, hop]
    rw [length_cons, add_comm marks.length 1, stepwise.chain hone, ih h.tail hmarks, add_assoc,
      add_comm 1 marks.length]
    rfl

/-- Operations with the code at the places from `pc` on. -/
def Stands (ops : List Operation) (code : Nat → List Operation) (pc : Nat) (parts : List (Operation × List Operation)) :
    Prop :=
  Flat.Stands ops pc (parts.map Prod.fst) ∧ ∀ i p, parts[i]? = some p → code (pc + i) = p.2

theorem Stands.tail (h : Stands ops code pc (p :: parts)) : Stands ops code (pc + 1) parts := by
  refine ⟨h.1.tail, fun i q hq => ?_⟩
  rw [add_assoc, add_comm 1]
  exact h.2 (i + 1) q hq

theorem Stands.left (h : Stands ops code pc (parts ++ later)) : Stands ops code pc parts := by
  obtain ⟨hops, hcode⟩ := h
  rw [List.map_append] at hops
  refine ⟨hops.left, fun i p hp => hcode i p ?_⟩
  rw [List.getElem?_append_left (List.getElem?_eq_some_iff.1 hp).1, hp]

theorem Stands.right (h : Stands ops code pc (parts ++ later)) : Stands ops code (pc + parts.length) later := by
  obtain ⟨hops, hcode⟩ := h
  rw [List.map_append] at hops
  refine ⟨by simpa using hops.right, fun _ p hp => ?_⟩
  rw [Nat.add_assoc]
  refine hcode _ p ?_
  rw [List.getElem?_append_right (Nat.le_add_right _ _), Nat.add_sub_cancel_left, hp]

theorem run_straight (h : Stands ops code pc parts) (hparts : ∀ p ∈ parts, p.1.inst.isStraight) (s : σ) :
    ∃ visits, run I ops code parts.length (some pc, s) =
        (visits, some (pc + parts.length), I.performAll (parts.flatMap Prod.snd) s) ∧
      visits.map Visit.op = parts.map Prod.fst ∧ visits.map Visit.code = parts.map Prod.snd := by
  induction parts generalizing pc s with
  | nil => exact ⟨[], rfl, rfl, rfl⟩
  | cons p parts ih =>
    obtain ⟨hp, hparts⟩ := forall_mem_cons.1 hparts
    have hcode : code pc = p.2 := h.2 0 p rfl
    obtain ⟨visits, hrun, hops, hcodes⟩ := ih h.tail hparts (I.performAll p.2 s)
    refine ⟨⟨p.1, p.2, s⟩ :: visits, ?_, by simp [hops], by simp [hcodes]⟩
    rw [length_cons, add_comm parts.length 1, stepwise.chain (run_straight_one h.1.head hp), hcode, hrun,
      add_assoc, add_comm 1, flatMap_cons]
    simp [Interpretation.performAll]

theorem run_walk {Inv : Nat → List (Visit σ) → σ → Prop} {Good : List (Visit σ) → Prop} {Ends : Nat → Prop}
    (hstep : ∀ pc before s, Inv pc before s → ¬ Ends pc → Good (before ++ visit ops code (some pc, s)) ∧
      ∀ next, (step I ops code (some pc, s)).1 = some next →
        Inv next (before ++ visit ops code (some pc, s)) (step I ops code (some pc, s)).2)
    (n : Nat) (h : Inv pc before s) (hgood : Good before) :
    ∃ m ≤ n, ∃ visits place s', run I ops code m (some pc, s) = (visits, place, s') ∧ Good (before ++ visits) ∧
      (place = none ∨ ∃ pc', place = some pc' ∧ Inv pc' (before ++ visits) s' ∧ (m = n ∨ Ends pc')) := by
  induction n generalizing pc before s with
  | zero =>
    rw [← append_nil before] at h hgood
    exact ⟨0, le_refl 0, [], some pc, s, rfl, hgood, .inr ⟨pc, rfl, h, .inl rfl⟩⟩
  | succ n ih =>
    by_cases hends : Ends pc
    · rw [← append_nil before] at h hgood
      exact ⟨0, zero_le _, [], some pc, s, rfl, hgood, .inr ⟨pc, rfl, h, .inr hends⟩⟩
    · obtain ⟨hgood, hnext⟩ := hstep pc before s h hends
      have hone : run I ops code 1 (some pc, s) = (visit ops code (some pc, s), step I ops code (some pc, s)) :=
        run_one _
      generalize visit ops code (some pc, s) = visits at *
      generalize step I ops code (some pc, s) = last at *
      obtain ⟨place, s'⟩ := last
      cases place with
      | none => exact ⟨1, succ_le_succ (zero_le n), visits, none, s', hone, hgood, .inl rfl⟩
      | some next =>
        obtain ⟨m, hm, visits', place, s'', hrun, hgood', hplc⟩ := ih (hnext next rfl) hgood
        refine ⟨1 + m, by omega, visits ++ visits', place, s'', ?_, by rwa [← append_assoc], ?_⟩
        · rw [stepwise.chain hone, hrun]
        · rw [← append_assoc]
          refine hplc.imp_right ?_
          rintro ⟨pc', rfl, hinv, hend⟩
          exact ⟨pc', rfl, hinv, hend.imp_left fun _ => by omega⟩

end Spliced

theorem Segment.entry_inj (hs : segments[i]? = some s) (ht : segments[j]? = some t) (ha : a < s.size) (hb : b < t.size)
    (h : entry segments i + a = entry segments j + b) : i = j ∧ a = b := by
  have hi := entry_succ hs
  have hj := entry_succ ht
  obtain hij | rfl | hij := lt_trichotomy i j
  · have hle : entry segments (i + 1) ≤ entry segments j := entry_mono hij
    omega
  · exact ⟨rfl, add_left_cancel h⟩
  · have hle : entry segments (j + 1) ≤ entry segments i := entry_mono hij
    omega

namespace Routine

variable {r r' : Routine} {ops : List Operation} {code : Nat → List Operation}

/-- The routine performs what the list performs with the code at its places, and one
stops where the other does. -/
structure RunsAs (r : Routine) (ops : List Operation) (code : Nat → List Operation) : Prop where
  performs : ∀ {σ : Type u} (I : Interpretation σ) (s : σ) (n : Nat), ∃ m ≥ n,
    (Spliced.run I ops code m (some 0, s)).1.flatMap Visit.code = (r.run I n (some 0, s)).1.map r.op ∧
      (Spliced.run I ops code m (some 0, s)).2.2 = (r.run I n (some 0, s)).2.2
  stops : ∀ {σ : Type u} (I : Interpretation σ) (s s' : σ),
    (∃ n, (Spliced.run I ops code n (some 0, s)).2 = (none, s')) ↔ ∃ n, (r.run I n (some 0, s)).2 = (none, s')

/-- A terminator is kept, and nothing in the place of another operation is one. -/
def KeepsTerminators (parts : List (Operation × List Operation)) : Prop :=
  ∀ p ∈ parts, (p.1.inst.isTerminator → p.2 = [p.1]) ∧
    (p.1.inst.isTerminator = false → ∀ o ∈ p.2, o.inst.isTerminator = false)

theorem SameFlow.target_eq (h : r.SameFlow r') (I : Interpretation σ) (b : Nat) (op : Operation) (s : σ) :
    r'.target I b op s = r.target I b op s := by
  unfold target
  rw [h.next_eq, h.branch_eq]

namespace CutFrom

variable {segments : List Segment} {kept : Nat → Prop} {number : Nat → Nat}
  {parts : Nat → List (Operation × List Operation)} {i : Nat} {seg : Segment} {σ : Type u}

section Spliced

variable (hcut : r.CutFrom ops segments kept number) (hflow : r.SameFlow r')
  (hold : ∀ b, (parts b).map Prod.fst = r.code b) (hnew : ∀ b, (parts b).flatMap Prod.snd = r'.code b)
  (hkeeps : ∀ b, KeepsTerminators (parts b))
  (hcode : ∀ i s, kept i → segments[i]? = some s →
    ∀ j p, (parts (number i))[j]? = some p → code (entry segments i + s.labels.length + j) = p.2)
include hcut hflow hold hnew hkeeps hcode

variable (I : Interpretation σ) in
/-- From the operations of a block's segment on, both runs perform the block. -/
theorem spliced_block (hi : kept i) (hs : segments[i]? = some seg) (s : σ) :
    ∃ visits place, Spliced.run I ops code seg.ops.length (some (entry segments i + seg.labels.length), s) =
        (visits, place, (r'.runFrom I (number i) (r'.blockOps (number i)) s).2.2) ∧
      visits.flatMap Visit.code = (r'.runFrom I (number i) (r'.blockOps (number i)) s).1.map r'.op ∧
      Meets ops segments kept number place (r'.runFrom I (number i) (r'.blockOps (number i)) s).2.1 := by
  obtain ⟨hcode', hcases⟩ := hcut.block_cases hi hs
  have hops : (parts (number i)).map Prod.fst = seg.ops := (hold _).trans hcode'
  have hst : Spliced.Stands ops code (entry segments i + seg.labels.length) (parts (number i)) :=
    ⟨hops ▸ hcut.spells.stands_ops hs, hcode i seg hi hs⟩
  obtain ⟨init, op, hinit, hop, hpln, hmeets⟩ | ⟨hpln, hmeets⟩ := hcases
  · obtain ⟨initParts, lastParts, hspl, hfst, hrest⟩ := map_eq_append_iff.1 (hops.trans hinit)
    obtain ⟨last, rfl, rfl⟩ := map_eq_singleton_iff.1 hrest
    have hkeeps := hkeeps (number i)
    rw [hspl] at hkeeps hst
    obtain ⟨hinitKeeps, hlastKeeps⟩ := forall_mem_append.1 hkeeps
    have hinitPlain : ∀ p ∈ initParts, p.1.inst.isTerminator = false ∧ p.1.inst.isStraight :=
      fun p hp => hpln _ (hfst ▸ mem_map_of_mem hp)
    have hcode' : r'.code (number i) = initParts.flatMap Prod.snd ++ [last.1] := by
      rw [← hnew, hspl, flatMap_append, flatMap_singleton, (hlastKeeps last (by simp)).1 hop]
    have hnewPlain : ∀ o ∈ initParts.flatMap Prod.snd, o.inst.isTerminator = false := by
      intro o ho
      obtain ⟨p, hp, ho⟩ := mem_flatMap.1 ho
      exact (hinitKeeps p hp).2 (hinitPlain p hp).1 o ho
    obtain ⟨hpassed, hrest⟩ := runFrom_terminated (I := I) (s := s) hcode' hnewPlain hop
    rw [hrest, hpassed, hflow.target_eq]
    obtain ⟨visits, hrun, -, hcodes⟩ := Spliced.run_straight (I := I) hst.left (fun p hp => (hinitPlain p hp).2) s
    have hbent : last.1.inst.isStraight = false := by
      revert hop
      cases last.1.inst <;> simp [Instruction.isTerminator, Instruction.isStraight]
    have hlen : init.length = initParts.length := by simp [← hfst]
    have hmeets := hmeets I (I.performAll (initParts.flatMap Prod.snd) s)
    rw [hlen] at hmeets
    refine ⟨visits, _, ?_, ?_, hmeets⟩
    · rw [hinit, length_append, hlen, length_singleton, Spliced.stepwise.chain hrun,
        Spliced.run_bent_one hst.right.1.head hbent, append_nil]
    · rw [flatMap_def, hcodes, flatMap_def]
  · have hpartsPlain : ∀ p ∈ parts (number i), p.1.inst.isTerminator = false ∧ p.1.inst.isStraight :=
      fun p hp => hpln _ (hops ▸ mem_map_of_mem hp)
    have hnewPlain : ∀ o ∈ r'.code (number i), o.inst.isTerminator = false := by
      intro o ho
      obtain ⟨p, hp, ho⟩ := mem_flatMap.1 (hnew _ ▸ ho)
      exact (hkeeps _ p hp).2 (hpartsPlain p hp).1 o ho
    obtain ⟨visits, hrun, -, hcodes⟩ := Spliced.run_straight (I := I) hst (fun p hp => (hpartsPlain p hp).2) s
    have hlen : seg.ops.length = (parts (number i)).length := by simp [← hops]
    obtain ⟨hpassed, hrest⟩ := runFrom_plain (I := I) (s := s) hnewPlain
    rw [hlen] at hmeets ⊢
    rw [hrest, hpassed, hflow.next_eq, ← hnew]
    refine ⟨visits, _, hrun, ?_, hmeets⟩
    rw [flatMap_def, hcodes, flatMap_def]

/-- The list is run with the code at its places. -/
def spliced (I : Interpretation σ) : Follower I ops segments kept number r' (Visit σ) Operation where
  run := Spliced.run I ops code
  stepwise := Spliced.stepwise
  past := Spliced.run_past
  marks := Spliced.run_marks
  note := Visit.code
  performed n c := (r'.run I n c).1.map r'.op
  performed_zero _ := rfl
  performed_none n s := by simp
  block i seg hi hs s := by
    obtain ⟨visits, place, hrun, hvisits, hmeets⟩ := hcut.spliced_block hflow hold hnew hkeeps hcode I hi hs s
    refine ⟨visits, place, hrun, fun n => ?_, hmeets⟩
    rw [hvisits, run_succ, map_append]

theorem runsAs : r'.RunsAs ops code where
  performs I s n := by
    obtain ⟨m, hm, hops, hstate, -⟩ :=
      (hcut.spliced hflow hold hnew hkeeps hcode I).run_blocks hcut n hcut.meets_entry s
    exact ⟨m, hm, hops, hstate⟩
  stops I := (hcut.spliced hflow hold hnew hkeeps hcode I).stops_iff hcut

end Spliced
end CutFrom

/-- A routine cut from a list and then rewritten operation by operation runs as the list
does with the new code at its places. -/
theorem exists_runsAs {ids : Ids} (h : ofOperations ops ids = .ok r) (hflow : r.SameFlow r')
    {parts : Nat → List (Operation × List Operation)} (hold : ∀ b, (parts b).map Prod.fst = r.code b)
    (hnew : ∀ b, (parts b).flatMap Prod.snd = r'.code b) (hkeeps : ∀ b, KeepsTerminators (parts b))
    {P : Operation → List Operation → Prop} (hP : ∀ b, ∀ p ∈ parts b, P p.1 p.2) (hother : ∀ op, ∃ code, P op code) :
    ∃ code : Nat → List Operation, (∀ pc op, ops[pc]? = some op → P op (code pc)) ∧ r'.RunsAs ops code := by
  obtain ⟨kept, number, hcut⟩ := exists_cutFrom h
  generalize Segment.ofOperations ops = segments at *
  have hops : ∀ i seg, kept i → segments[i]? = some seg → (parts (number i)).map Prod.fst = seg.ops := by
    intro i seg hi hs
    obtain ⟨seg', e, hs', -, hview, -⟩ := hcut.block i hi
    obtain rfl : seg = seg' := Option.some.inj (hs.symm.trans hs')
    exact (hold _).trans (congrArg View.ops hview)
  have hpick : ∀ pc, ∃ new, (∀ op, ops[pc]? = some op → P op new) ∧
      ∀ i seg, kept i → segments[i]? = some seg → ∀ j p, (parts (number i))[j]? = some p →
        pc = Segment.entry segments i + (seg.labels.length + j) → new = p.2 := by
    intro pc
    by_cases hpc : ∃ i seg j p, kept i ∧ segments[i]? = some seg ∧ (parts (number i))[j]? = some p ∧
        pc = Segment.entry segments i + (seg.labels.length + j)
    · obtain ⟨i, seg, j, p, hi, hs, hp, rfl⟩ := hpc
      have hj : j < seg.ops.length := by
        rw [← hops i seg hi hs, List.length_map]
        exact (List.getElem?_eq_some_iff.1 hp).1
      refine ⟨p.2, fun op hop => ?_, fun i' seg' hi' hs' j' _ hp' heq => ?_⟩
      · rw [← Nat.add_assoc, (hcut.spells.stands_ops hs).getElem? hj, ← hops i seg hi hs, List.getElem?_map, hp] at hop
        obtain rfl := Option.some.inj hop
        exact hP _ p (List.mem_of_getElem? hp)
      · have hj' : j' < seg'.ops.length := by
          rw [← hops i' seg' hi' hs', List.length_map]
          exact (List.getElem?_eq_some_iff.1 hp').1
        obtain ⟨rfl, hoff⟩ := Segment.entry_inj hs hs' (by rw [Segment.size]; omega) (by rw [Segment.size]; omega) heq
        obtain rfl : seg = seg' := Option.some.inj (hs.symm.trans hs')
        obtain rfl : j = j' := Nat.add_left_cancel hoff
        exact congrArg Prod.snd (Option.some.inj (hp.symm.trans hp'))
    · cases hop : ops[pc]? with
      | none =>
        refine ⟨[], fun op hop => absurd hop.symm (Option.some_ne_none op), fun i seg hi hs j p hp heq => ?_⟩
        exact absurd ⟨i, seg, j, p, hi, hs, hp, heq⟩ hpc
      | some op =>
        obtain ⟨new, hnew⟩ := hother op
        refine ⟨new, fun _ hop' => Option.some.inj hop' ▸ hnew, fun i seg hi hs j p hp heq => ?_⟩
        exact absurd ⟨i, seg, j, p, hi, hs, hp, heq⟩ hpc
  choose code hcodeP hcode using hpick
  refine ⟨code, hcodeP, hcut.runsAs hflow hold hnew hkeeps fun i seg hi hs j p hp => ?_⟩
  exact hcode _ i seg hi hs j p hp (Nat.add_assoc _ _ _)

end Routine
end ShaderRecompiler
