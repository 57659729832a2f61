import Mathlib.Algebra.GroupWithZero.Nat
import ShaderRecompiler.Proofs.Flat
import ShaderRecompiler.Proofs.Labels
import ShaderRecompiler.Proofs.Structuring

/-! Cutting a list of operations into blocks keeps what it does. The list is its
segments one after the other, each with its marks in front, and a block is entered
where control stands among the marks of its segment: from there the flat run and
the routine perform the same operations and go on to the same block. -/
namespace ShaderRecompiler

open List Operation Segment Flat Nat

universe u v

variable {label pc target : Nat} {op : Operation} {place : Option Nat}

namespace Segment

/-- Marks take one place for each label. -/
def size (s : Segment) : Nat := s.labels.length + s.ops.length

/-- Where the segment at `index` begins, its marks included. -/
def entry (segments : List Segment) (index : Nat) : Nat := ((segments.take index).map size).sum

/-- The list is made of the segments in order. -/
inductive Spells : List Operation → List Segment → Prop
  | nil : Spells [] []
  | cons (marks : List Operation) (s : Segment) {rest : List Operation} {later : List Segment}
      (hmarks : marks.map Operation.marks = s.labels.map ([·]))
      (hops : ∀ op ∈ s.ops, op.inst ≠ .markLabel) (hsize : 0 < s.size) (hrest : Spells rest later) :
      Spells (marks ++ (s.ops ++ rest)) (s :: later)

variable {ops : List Operation} {segments : List Segment}

theorem Spells.cons_mark (h : Spells ops segments) (hop : op.marks = [l]) :
    Spells (op :: ops) (Segment.cons op segments) := by
  have hmark := isMark_of_marks hop
  have hlab : ((op.source? 0).bind Operand.asLabel?).toList = [l] := by
    rwa [Operation.marks, if_pos hmark] at hop
  unfold Segment.cons
  rw [if_pos hmark, hlab]
  cases h with
  | nil => exact Spells.cons [op] ⟨[l], []⟩ (by simp [hop]) (by simp) (by simp [size]) .nil
  | @cons marks s rest later hmarks hops hsize hrest =>
    have hpos : 0 < ([l] ++ s.labels).length + s.ops.length := by
      rw [length_append, length_singleton]
      omega
    exact Spells.cons (op :: marks) { s with labels := [l] ++ s.labels } (by simp [hop, hmarks]) hops hpos hrest

theorem Spells.cons_op (h : Spells ops segments) (hop : op.inst ≠ .markLabel) :
    Spells (op :: ops) (Segment.cons op segments) := by
  have halone : Spells (op :: ops) (⟨[], [op]⟩ :: segments) :=
    Spells.cons [] ⟨[], [op]⟩ rfl (by simpa using hop) (by simp [size]) h
  unfold Segment.cons
  rw [if_neg hop]
  split
  · split
    · exact halone
    · cases h with
      | @cons marks s rest later hmarks hops hsize hrest =>
        obtain rfl : marks = [] := by simpa using hmarks
        exact Spells.cons [] ⟨[], op :: _⟩ rfl (forall_mem_cons.2 ⟨hop, hops⟩) (by simp [size]) hrest
  · exact halone

theorem checkLabels_cons (h : checkLabels (op :: ops) marked = .ok ()) :
    (op.inst = .markLabel → ∃ l, op.marks = [l]) ∧ op.marks.Nodup ∧ (∀ l ∈ op.marks, l ∉ marked) ∧
      checkLabels ops (op.marks ++ marked) = .ok () := by
  rw [checkLabels] at h
  by_cases hmark : op.inst = .markLabel
  · rw [if_pos hmark, label?] at h
    cases hl : (op.source? 0).bind Operand.asLabel? with
    | none => simp [hl, bind, Except.bind] at h
    | some l =>
      have hmarks : op.marks = [l] := by simp [marks, hmark, label, hl]
      simp only [hl, bind, Except.bind] at h
      split at h
      · cases h
      · next hnew =>
        rw [hmarks]
        exact ⟨fun _ => ⟨l, rfl⟩, nodup_singleton l, by simpa using hnew, h⟩
  · rw [if_neg hmark] at h
    have hmarks : op.marks = [] := if_neg hmark
    rw [hmarks]
    exact ⟨fun h => absurd h hmark, nodup_nil, by simp, h⟩

theorem nodup_of_checkLabels (h : checkLabels ops marked = .ok ()) :
    (ops.flatMap marks).Nodup ∧ ∀ l ∈ ops.flatMap marks, l ∉ marked := by
  induction ops generalizing marked with
  | nil => simp
  | cons op ops ih =>
    obtain ⟨-, hnd, hnew, hrest⟩ := checkLabels_cons h
    obtain ⟨hnd', hnew'⟩ := ih hrest
    rw [flatMap_cons]
    refine ⟨nodup_append.2 ⟨hnd, hnd', ?_⟩, fun l hl => ?_⟩
    · rintro l hl _ hl' rfl
      exact hnew' l hl' (mem_append_left _ hl)
    · obtain hl | hl := mem_append.1 hl
      · exact hnew l hl
      · exact fun hmem => hnew' l hl (mem_append_right _ hmem)

theorem spells_ofOperations (h : checkLabels ops marked = .ok ()) : Spells ops (ofOperations ops) := by
  induction ops generalizing marked with
  | nil => exact .nil
  | cons op ops ih =>
    obtain ⟨hmark, -, -, hrest⟩ := checkLabels_cons h
    by_cases hop : op.inst = .markLabel
    · obtain ⟨l, hl⟩ := hmark hop
      exact (ih hrest).cons_mark hl
    · exact (ih hrest).cons_op hop

namespace Spells

variable {s : Segment}

theorem length_marks {marks : List Operation} (h : marks.map Operation.marks = s.labels.map ([·])) :
    marks.length = s.labels.length := by
  simpa using congrArg length h

theorem isMark {marks : List Operation} (h : marks.map Operation.marks = s.labels.map ([·])) :
    ∀ op ∈ marks, op.inst = .markLabel := by
  intro op hop
  have hmem : op.marks ∈ s.labels.map ([·]) := h ▸ mem_map_of_mem hop
  obtain ⟨l, -, hl⟩ := mem_map.1 hmem
  exact isMark_of_marks hl.symm

variable (h : Spells ops segments)
include h

theorem stands (hs : segments[i]? = some s) : ∃ marks, marks.map Operation.marks = s.labels.map ([·]) ∧
      Stands ops (entry segments i) (marks ++ s.ops) := by
  induction h generalizing i with
  | nil => simp at hs
  | @cons marks s' rest later hmarks hops hsize hrest ih =>
    cases i with
    | zero =>
      obtain rfl : s' = s := by simpa using hs
      refine ⟨marks, hmarks, ?_⟩
      rw [← append_assoc]
      exact (Stands.self _).left
    | succ i =>
      obtain ⟨marks', hmarks', hst⟩ := ih (by simpa using hs)
      refine ⟨marks', hmarks', ?_⟩
      have hent : entry (s' :: later) (i + 1) = (marks ++ s'.ops).length + entry later i := by
        simp [entry, size, length_marks hmarks]
      rw [Stands, hent, ← append_assoc, ← drop_drop, drop_left]
      exact hst

/-- A label is marked among the marks of the first segment that carries it. -/
theorem mark?_eq (hfind : segments.findIdx? (·.labels.contains label) = some target) :
    ∃ s place, segments[target]? = some s ∧ Flat.mark? ops label = some place ∧
      entry segments target ≤ place ∧ place < entry segments target + s.labels.length := by
  induction h generalizing target with
  | nil => simp at hfind
  | @cons marks s rest later hmarks hops hsize hrest ih =>
    have hcarries : marks.any (·.marks.contains label) = s.labels.contains label := by
      calc marks.any (·.marks.contains label)
          = (marks.map Operation.marks).any (·.contains label) := by rw [List.any_map]; rfl
        _ = s.labels.contains label := by
          rw [hmarks, List.any_map, List.contains_eq_any_beq]
          congr 1
          funext l
          simp only [Function.comp_apply, List.contains_cons, List.contains_nil, Bool.or_false]
    have hpln : s.ops.findIdx? (·.marks.contains label) = none := by
      rw [List.findIdx?_eq_none_iff]
      intro op hop
      simp [Operation.marks, hops op hop]
    rw [List.findIdx?_cons] at hfind
    rw [Flat.mark?, List.findIdx?_append, List.findIdx?_append, hpln]
    cases hlab : s.labels.contains label with
    | true =>
      rw [hlab] at hfind hcarries
      obtain rfl : 0 = target := by simpa using hfind
      obtain ⟨op, hop, hmem⟩ := List.any_eq_true.1 hcarries
      cases hplc : marks.findIdx? (·.marks.contains label) with
      | none =>
        rw [List.findIdx?_eq_none_iff] at hplc
        rw [hplc op hop] at hmem
        cases hmem
      | some place =>
        have hlt := (List.findIdx?_eq_some_iff_findIdx_eq.1 hplc).1
        rw [length_marks hmarks] at hlt
        exact ⟨s, place, rfl, rfl, Nat.zero_le _, by simpa [entry] using hlt⟩
    | false =>
      rw [hlab] at hfind hcarries
      obtain ⟨target, hlater, rfl⟩ : ∃ t, later.findIdx? (·.labels.contains label) = some t ∧ t + 1 = target := by
        simpa using hfind
      obtain ⟨s', place, hs', hplc, hge, hlt⟩ := ih hlater
      have hnone : marks.findIdx? (·.marks.contains label) = none := by
        rw [List.findIdx?_eq_none_iff]
        simpa using hcarries
      have hent : entry (s :: later) (target + 1) = marks.length + s.ops.length + entry later target := by
        simp [entry, size, length_marks hmarks]
      rw [Flat.mark?] at hplc
      refine ⟨s', place + s.ops.length + marks.length, by simpa using hs', ?_, ?_, ?_⟩
      · rw [hnone, hplc]
        rfl
      · omega
      · omega

theorem of_mem (hs : s ∈ segments) : (∀ op ∈ s.ops, op.inst ≠ .markLabel) ∧ 0 < s.size := by
  induction h with
  | nil => cases hs
  | cons marks s' hmarks hops hsize hrest ih =>
    exact (List.mem_cons.1 hs).elim (fun h => h ▸ ⟨hops, hsize⟩) ih

theorem entry_length : entry segments segments.length = ops.length := by
  induction h with
  | nil => rfl
  | @cons marks s rest later hmarks hops hsize hrest ih =>
    rw [entry, take_length] at ih ⊢
    simp [size, ih, length_marks hmarks]
    omega

theorem stands_ops (hs : segments[i]? = some s) : Stands ops (entry segments i + s.labels.length) s.ops := by
  obtain ⟨marks, hmarks, hst⟩ := h.stands hs
  exact length_marks hmarks ▸ hst.right

theorem stands_marks (hs : segments[i]? = some s) (hge : entry segments i ≤ pc)
    (hle : pc ≤ entry segments i + s.labels.length) :
    ∃ marks, pc + marks.length = entry segments i + s.labels.length ∧ (∀ op ∈ marks, op.inst = .markLabel) ∧
      Stands ops pc marks := by
  obtain ⟨marks, hmarks, hst⟩ := h.stands hs
  obtain ⟨k, rfl⟩ := Nat.exists_eq_add_of_le hge
  have hlen := length_marks hmarks
  refine ⟨marks.drop k, ?_, fun op hop => isMark hmarks op (mem_of_mem_drop hop), ?_⟩
  · rw [length_drop]
    omega
  · have := hst.left
    rw [← take_append_drop k marks] at this
    simpa [length_take, min_eq_left (show k ≤ marks.length by omega)] using this.right

end Spells

theorem entry_succ (hs : segments[i]? = some s) : entry segments (i + 1) = entry segments i + s.size := by
  rw [entry, take_add_one, hs, map_append, sum_append_nat]
  simp [entry]

theorem entry_mono (hij : i ≤ j) : entry segments i ≤ entry segments j := by
  obtain ⟨k, rfl⟩ := Nat.exists_eq_add_of_le hij
  rw [entry, entry, take_add, map_append, sum_append_nat]
  omega

end Segment

theorem Instruction.isStraight_of {inst : Instruction} (hmark : inst ≠ .markLabel)
    (hterm : inst.isTerminator = false) : inst.isStraight := by
  revert hmark hterm
  cases inst <;> simp [isTerminator, isStraight]

theorem Flat.Stands.map_range' {ops code : List Operation} (h : Stands ops pc code) :
    (range' pc code.length).map (ops[·]?) = code.map some := by
  induction code generalizing pc with
  | nil => rfl
  | cons op code ih => rw [length_cons, range'_succ, map_cons, h.head, ih h.tail, map_cons]

namespace Routine

section Trace

variable {σ : Type u} (I : Interpretation σ) (r : Routine)

/-- The operations of a block up to its terminator, which is the last one performed. -/
def passed : List OpId → List OpId
  | [] => []
  | id :: rest => if (r.op id).inst.isTerminator then [id] else id :: passed rest

/-- What a run of at most `n` blocks performs, terminators included. -/
def trace : Nat → Option Nat × σ → List OpId
  | 0, _ => []
  | _ + 1, (none, _) => []
  | n + 1, (some b, s) => r.passed (r.blockOps b) ++ trace n (r.runFrom I b (r.blockOps b) s).2

end Trace

variable {σ : Type u} {I : Interpretation σ} {r : Routine} {b : Nat} {s : σ}

@[simp] theorem trace_none (n : Nat) (s : σ) : r.trace I n (none, s) = [] := by
  cases n <;> rfl

theorem trace_grows {m n : Nat} (place : Option Nat × σ) (hmn : m ≤ n) : r.trace I m place <+: r.trace I n place := by
  induction m generalizing n place with
  | zero => exact nil_prefix
  | succ m ih =>
    obtain ⟨n, rfl⟩ : ∃ k, n = k + 1 := ⟨n - 1, by omega⟩
    obtain ⟨_ | b, s⟩ := place
    · simp
    · exact (prefix_append_right_inj _).2 (ih _ (le_of_succ_le_succ hmn))

theorem performAll_eq (ids : List OpId) (s : σ) : r.performAll I ids s = I.performAll (ids.map r.op) s := by
  rw [performAll, Interpretation.performAll, foldl_map]

theorem passed_eq {ids : List OpId} (h : ∀ id ∈ ids.dropLast, (r.op id).inst.isTerminator = false) :
    r.passed ids = ids := by
  induction ids with
  | nil => rfl
  | cons id ids ih =>
    cases ids with
    | nil => simp [passed]
    | cons id' ids =>
      obtain ⟨hid, hids⟩ := forall_mem_cons.1 h
      rw [passed, hid, if_neg Bool.false_ne_true, ih hids]

theorem runFrom_plain (h : ∀ op ∈ r.code b, op.inst.isTerminator = false) :
    (r.runFrom I b (r.blockOps b) s).1.map r.op = r.code b ∧
      (r.runFrom I b (r.blockOps b) s).2 = ((r.block b).next, I.performAll (r.code b) s) := by
  have hids : ∀ id ∈ r.blockOps b, (r.op id).inst.isTerminator = false :=
    fun id hid => h _ (mem_map_of_mem hid)
  rw [← append_nil (r.blockOps b), runFrom_append hids, performAll_eq]
  exact ⟨by simp [runFrom, code], rfl⟩

theorem runFrom_terminated {init : List Operation} (hcode : r.code b = init ++ [op])
    (hinit : ∀ op ∈ init, op.inst.isTerminator = false) (hop : op.inst.isTerminator) :
    (r.runFrom I b (r.blockOps b) s).1.map r.op = init ∧
      (r.runFrom I b (r.blockOps b) s).2 = (r.target I b op (I.performAll init s), I.performAll init s) := by
  obtain ⟨ids, last, hids, rfl, hlast⟩ := map_eq_append_iff.1 hcode
  obtain ⟨id, rfl, rfl⟩ : ∃ id, last = [id] ∧ r.op id = op := by simpa using hlast
  rw [hids, runFrom_append fun id hid => hinit _ (mem_map_of_mem hid), runFrom, hop, if_pos rfl, performAll_eq]
  exact ⟨by simp, rfl⟩

theorem target_conditional (h : op.inst.isConditionalBranch) : r.target I b op s = match op.source? 1 with
      | some cond =>
        if I.holds cond s != (op.inst == .branchIfFalse) then (r.block b).branch else (r.block b).next
      | none => none := by
  unfold target
  split
  · next hret => rw [hret] at h; cases h
  · next hbr => rw [hbr] at h; cases h
  · cases op.source? 1 <;> rfl

/-- The blocks are the kept segments of the list in order, each led where its segment leads. -/
structure CutFrom (r : Routine) (ops : List Operation) (segments : List Segment) (kept : Nat → Prop)
    (number : Nat → Nat) : Prop where
  spells : Segment.Spells ops segments
  plain : ∀ s ∈ segments, ∀ op ∈ s.ops.dropLast, op.inst.isTerminator = false
  nodup : (ops.flatMap marks).Nodup
  entry_kept : kept 0
  entry_number : number 0 = 0
  block : ∀ i, kept i → ∃ s e, segments[i]? = some s ∧ edges segments i s = .ok e ∧
    r.view (number i) = ⟨s.ops, e.1.map number, e.2.map number⟩ ∧ ∀ n, n ∈ e.1 ∨ n ∈ e.2 → kept n
  number_lt : ∀ i, kept i → number i < r.blocks.size
  exists_kept : ∀ b < r.blocks.size, ∃ i, kept i ∧ number i = b
  mono : ∀ i j, i ≤ j → number i ≤ number j
  lt : ∀ i j, kept i → i < j → number i < number j

theorem exists_cutFrom {ops : List Operation} {ids : Ids} (h : ofOperations ops ids = .ok r) :
    ∃ kept number, r.CutFrom ops (Segment.ofOperations ops) kept number := by
  obtain ⟨-, hlabs, -⟩ := ofOperations_eq h
  have hpos := blocks_pos_ofOperations h
  obtain ⟨edges, kept, hlen, hedges, hsize, hviews, hkept⟩ := views_ofOperations h
  have honto : ∀ b < r.blocks.size, ∃ i, kept.getD i false ∧ renumber kept i = b :=
    fun b _ => exists_renumber hlen hsize (by rwa [← hviews, length_views])
  have hlt : ∀ i, kept.getD i false → renumber kept i < r.blocks.size := by
    intro i hi
    rw [← length_views, hviews, length_keptViews hlen hsize]
    exact renumber_lt hi
  refine ⟨fun i => kept.getD i false, renumber kept, spells_ofOperations hlabs,
    plain_ofOperations ops, (nodup_of_checkLabels hlabs).1, ?_, rfl, ?_, hlt, honto, ?_,
    fun i j => renumber_lt_renumber⟩
  · obtain ⟨i, hi, -⟩ := honto 0 hpos
    exact (hkept 0).2 ⟨((hkept i).1 hi).1, .refl⟩
  · intro i hi
    obtain ⟨hsegments, hpath⟩ := (hkept i).1 hi
    have hi' : i < edges.length := by
      rw [← size_flow]
      obtain rfl | ⟨j, -, hedge⟩ := hpath.cases_tail
      · rwa [size_flow, hlen]
      · exact hedge.2
    have hs : (Segment.ofOperations ops)[i]? = some ((Segment.ofOperations ops)[i]) :=
      getElem?_eq_getElem (hlen ▸ hi')
    have he : edges[i]? = some edges[i] := getElem?_eq_getElem hi'
    have hview := getElem?_keptViews hlen hsize hs he hi
    rw [← hviews, getElem?_views] at hview
    split at hview
    · refine ⟨_, _, hs, hedges i _ _ hs he, Option.some.inj hview, fun n hn => ?_⟩
      have hclosed := edges_closed (hedges i _ _ hs he)
        (plain_ofOperations ops _ (List.mem_of_getElem? hs))
      refine (hkept n).2 ⟨hsegments, hpath.tail ⟨mem_next_flow.2 ⟨_, he, hn⟩, ?_⟩⟩
      rw [size_flow, hlen]
      exact hn.elim (hclosed.next_lt n) (hclosed.branch_lt n)
    · cases hview
  · intro i j hij
    exact (take_sublist_take_left hij).count_le true

namespace CutFrom

variable {ops : List Operation} {segments : List Segment} {kept : Nat → Prop} {number : Nat → Nat}

variable (ops segments kept number) in
/-- The flat run and the routine are about to go on alike: control stands among the
marks of a block's segment, or there is nothing more to do. -/
inductive Meets : Option Nat → Option Nat → Prop
  | stopped : Meets none none
  | past {pc : Nat} (hpc : ops.length ≤ pc) : Meets (some pc) none
  | entering {pc i : Nat} {s : Segment} (hi : kept i) (hs : segments[i]? = some s)
      (hge : entry segments i ≤ pc) (hle : pc ≤ entry segments i + s.labels.length)
      (hlt : pc < entry segments i + s.size) :
      Meets (some pc) (some (number i))

variable (I ops segments kept number) in
/-- A way to run the list along the blocks of `r`, with notes of what it does. It passes over
marks, performs the operations of a segment as the block does, and stops at the end. -/
structure Follower (r : Routine) (β : Type v) (γ : Type) where
  run : Nat → Option Nat × σ → List β × Option Nat × σ
  stepwise : Stepwise run
  past : ∀ {pc s}, ops.length ≤ pc → run 1 (some pc, s) = ([], none, s)
  marks : ∀ {pc marks}, Stands ops pc marks → (∀ op ∈ marks, op.inst = .markLabel) → ∀ s,
    run marks.length (some pc, s) = ([], some (pc + marks.length), s)
  note : β → List γ
  performed : Nat → Option Nat × σ → List γ
  performed_zero : ∀ c, performed 0 c = []
  performed_none : ∀ n s, performed n (none, s) = []
  block : ∀ i seg, kept i → segments[i]? = some seg → ∀ s, ∃ notes place,
    run seg.ops.length (some (entry segments i + seg.labels.length), s) =
      (notes, place, (r.runFrom I (number i) (r.blockOps (number i)) s).2.2) ∧
    (∀ n, performed (n + 1) (some (number i), s) =
      notes.flatMap note ++ performed n (r.runFrom I (number i) (r.blockOps (number i)) s).2) ∧
    Meets ops segments kept number place (r.runFrom I (number i) (r.blockOps (number i)) s).2.1

variable {i : Nat} {seg : Segment}

theorem meets_following (hspells : Segment.Spells ops segments) (hs : segments[i]? = some seg)
    (hkept : ∀ n ∈ following segments i, kept n) :
    Meets ops segments kept number (some (Segment.entry segments i + seg.size))
      ((following segments i).map number) := by
  unfold following at hkept ⊢
  split
  · next hi =>
    rw [if_pos hi] at hkept
    rw [← entry_succ hs]
    exact .entering (hkept _ rfl) (getElem?_eq_getElem hi) (le_refl _) (le_add_right _ _)
      (Nat.lt_add_of_pos_right (hspells.of_mem (List.getElem_mem hi)).2)
  · next hi =>
    have hlen : i + 1 = segments.length := by
      have := (List.getElem?_eq_some_iff.1 hs).1
      omega
    refine .past ?_
    rw [← entry_succ hs, hlen, hspells.entry_length]

theorem meets_target (hspells : Segment.Spells ops segments) (hlab : op.label? = .ok label)
    (hfind : segments.findIdx? (·.labels.contains label) = some target) (hkept : kept target) :
    Meets ops segments kept number (target? ops op) (some (number target)) := by
  obtain ⟨s, place, hs, hplc, hge, hlt⟩ := hspells.mark?_eq hfind
  have htgt : target? ops op = some place := by
    rw [label?] at hlab
    split at hlab
    · next l hl =>
      obtain rfl := Except.ok.inj hlab
      rw [target?, hl]
      exact hplc
    · cases hlab
  rw [htgt]
  exact .entering hkept hs hge (le_of_lt hlt) (by rw [Segment.size]; omega)

/-- A terminator leads the flat run and the routine to the same block. -/
theorem meets_terminator (hspells : Segment.Spells ops segments) (hs : segments[i]? = some seg)
    {e : Option Nat × Option Nat} (he : edges segments i seg = .ok e)
    (hview : r.view (number i) = ⟨seg.ops, e.1.map number, e.2.map number⟩)
    (hkept : ∀ n, n ∈ e.1 ∨ n ∈ e.2 → kept n) (hlast : seg.ops.getLast? = some op)
    (hop : op.inst.isTerminator) (hpc : pc + 1 = entry segments i + seg.size) (s : σ) :
    Meets ops segments kept number (follow I ops pc op s) (r.target I (number i) op s) := by
  obtain ⟨op', hop', hret, rfl⟩ | ⟨op', label, target, hop', hret, -, hlab, hfind, rfl⟩ | ⟨hpln, rfl⟩ :=
    edges_cases he
  · obtain rfl : op = op' := Option.some.inj (hlast.symm.trans hop')
    rw [follow, Routine.target, hret]
    exact .stopped
  · obtain rfl : op = op' := Option.some.inj (hlast.symm.trans hop')
    have hbr : (r.block (number i)).branch = some (number target) := congrArg View.branch hview
    have htaken : Meets ops segments kept number (target? ops op) (some (number target)) :=
      meets_target hspells hlab hfind (hkept target (.inr rfl))
    by_cases hcond : op.inst.isConditionalBranch
    · simp only [hcond, if_true] at hview hkept
      have hnext : (r.block (number i)).next = (following segments i).map number :=
        congrArg View.next hview
      have hfall : Meets ops segments kept number (some (pc + 1)) ((following segments i).map number) :=
        hpc ▸ meets_following hspells hs fun n hn => hkept n (.inl hn)
      rw [follow_conditional hcond, target_conditional hcond, hbr, hnext]
      cases op.source? 1 with
      | none => exact .stopped
      | some cond => dsimp only; split <;> assumption
    · have hinst : op.inst = .branch := by
        revert hop hret hcond
        cases op.inst <;> simp [Instruction.isTerminator, Instruction.isConditionalBranch]
      rw [follow, Routine.target, hinst, hbr]
      exact htaken
  · rw [hpln op hlast] at hop
    cases hop

theorem meets_entry (hcut : r.CutFrom ops segments kept number) :
    Meets ops segments kept number (some 0) (some 0) := by
  obtain ⟨s, e, hs, -⟩ := hcut.block 0 hcut.entry_kept
  have hent : Meets ops segments kept number (some 0) (some (number 0)) :=
    .entering hcut.entry_kept hs (le_refl 0) (Nat.zero_le _)
      (Nat.add_pos_right _ (hcut.spells.of_mem (mem_of_getElem? hs)).2)
  rwa [hcut.entry_number] at hent

/-- A block ends with a terminator or goes on at its end, and the list does so as well. -/
theorem block_cases (hcut : r.CutFrom ops segments kept number) (hi : kept i) (hs : segments[i]? = some seg) :
    r.code (number i) = seg.ops ∧ ((∃ init op, seg.ops = init ++ [op] ∧ op.inst.isTerminator = true ∧
          (∀ op ∈ init, op.inst.isTerminator = false ∧ op.inst.isStraight = true) ∧
          ∀ {σ : Type u} (I : Interpretation σ) (s : σ), Meets ops segments kept number
            (follow I ops (entry segments i + seg.labels.length + init.length) op s)
            (r.target I (number i) op s)) ∨
        (∀ op ∈ seg.ops, op.inst.isTerminator = false ∧ op.inst.isStraight = true) ∧
          Meets ops segments kept number (some (entry segments i + seg.labels.length + seg.ops.length))
            (r.block (number i)).next) := by
  obtain ⟨seg', e, hs', he, hview, hkept⟩ := hcut.block i hi
  obtain rfl : seg = seg' := Option.some.inj (hs.symm.trans hs')
  have hpln := hcut.plain seg (mem_of_getElem? hs)
  have hstr : ∀ op ∈ seg.ops, op.inst.isTerminator = false → op.inst.isStraight = true :=
    fun op hop => Instruction.isStraight_of ((hcut.spells.of_mem (mem_of_getElem? hs)).1 op hop)
  refine ⟨congrArg View.ops hview, ?_⟩
  by_cases hend : ∃ op ∈ seg.ops.getLast?, op.inst.isTerminator = true
  · obtain ⟨op, hlast, hop⟩ := hend
    obtain ⟨init, hinit⟩ := getLast?_eq_some_iff.1 hlast
    have hpln : ∀ op ∈ init, op.inst.isTerminator = false := by simpa [hinit] using hpln
    refine .inl ⟨init, op, hinit, hop, fun op hop => ⟨hpln op hop, ?_⟩, fun I s => ?_⟩
    · exact hstr op (by simp [hinit, hop]) (hpln op hop)
    · apply meets_terminator hcut.spells hs he hview hkept hlast hop
      rw [Segment.size, hinit, length_append, length_singleton]
      omega
  · obtain ⟨hlast, hpln⟩ := open_of_edges he hpln hend
    have hnext : (r.block (number i)).next = e.1.map number := congrArg View.next hview
    refine .inr ⟨fun op hop => ⟨hpln op hop, hstr op hop (hpln op hop)⟩, ?_⟩
    rw [hnext, hlast, add_assoc]
    exact meets_following hcut.spells hs fun n hn => hkept n (.inl (hlast ▸ hn))

namespace Follower

variable {β : Type v} {γ : Type} {r' : Routine} (F : Follower I ops segments kept number r' β γ)

theorem run_one (h : Meets ops segments kept number place none) (s : σ) : F.run 1 (place, s) = ([], none, s) := by
  cases h with
  | stopped => exact F.stepwise.none 1 s
  | past hpc => exact F.past hpc

variable (hcut : r.CutFrom ops segments kept number)
include hcut

/-- What a run of blocks performs, the list performs in as many steps or more. -/
theorem run_blocks (n : Nat) {block : Option Nat} (hmeets : Meets ops segments kept number place block) (s : σ) :
    ∃ m ≥ n, (F.run m (place, s)).1.flatMap F.note = F.performed n (block, s) ∧
      (F.run m (place, s)).2.2 = (r'.run I n (block, s)).2.2 ∧
      Meets ops segments kept number (F.run m (place, s)).2.1 (r'.run I n (block, s)).2.1 := by
  induction n generalizing place block s with
  | zero =>
    refine ⟨0, le_refl 0, ?_⟩
    rw [F.stepwise.zero, F.performed_zero]
    exact ⟨rfl, rfl, hmeets⟩
  | succ n ih =>
    cases block with
    | none =>
      refine ⟨n + 1, le_refl _, ?_⟩
      rw [F.stepwise.of_stopped (F.run_one hmeets s) (succ_pos n), F.performed_none]
      exact ⟨rfl, rfl, .stopped⟩
    | some b =>
      cases hmeets with
      | @entering pc i seg hi hs hge hle hlt =>
        obtain ⟨marks, hlen, hmarks, hst⟩ := hcut.spells.stands_marks hs hge hle
        have hmarks := F.marks hst hmarks s
        rw [hlen] at hmarks
        obtain ⟨notes, place', hrun, hnotes, hmeets'⟩ := F.block i seg hi hs s
        obtain ⟨m, hm, hperformed, hstate, hmeets''⟩ := ih hmeets' (r'.runFrom I _ (r'.blockOps _) s).2.2
        refine ⟨marks.length + (seg.ops.length + m), ?_, ?_⟩
        · rw [Segment.size] at hlt
          omega
        · rw [F.stepwise.chain hmarks, F.stepwise.chain hrun, run_succ, hnotes, nil_append, flatMap_append, hperformed]
          exact ⟨rfl, hstate, hmeets''⟩

theorem stops_iff (s s' : σ) :
    (∃ n, (F.run n (some 0, s)).2 = (none, s')) ↔ ∃ n, (r'.run I n (some 0, s)).2 = (none, s') := by
  have hsim := fun n => F.run_blocks hcut n hcut.meets_entry s
  constructor
  · rintro ⟨n, hn⟩
    obtain ⟨m, hm, -, hstate, hmeets⟩ := hsim n
    rw [F.stepwise.of_stopped (Prod.ext rfl hn) hm] at hstate hmeets
    refine ⟨n, Prod.ext ?_ hstate.symm⟩
    revert hmeets
    generalize (r'.run I n (some 0, s)).2.1 = block
    rintro ⟨⟩
    rfl
  · rintro ⟨n, hn⟩
    obtain ⟨m, -, -, hstate, hmeets⟩ := hsim n
    rw [hn] at hstate hmeets
    obtain rfl : _ = s' := hstate
    refine ⟨m + 1, ?_⟩
    rw [F.stepwise.add]
    exact congrArg Prod.snd (F.run_one hmeets _)

end Follower

/-- The list is run as it stands. -/
def flat (hcut : r.CutFrom ops segments kept number) (I : Interpretation σ) :
    Follower I ops segments kept number r Nat (Option Operation) where
  run := Flat.run I ops
  stepwise := Flat.stepwise
  past hpc := by simp [Flat.run_one, Flat.step_past hpc, Flat.seen, hpc]
  marks := run_marks
  note pc := [ops[pc]?]
  performed n c := ((r.trace I n c).map r.op).map some
  performed_zero _ := rfl
  performed_none n s := by simp
  block i seg hi hs s := by
    have hops := hcut.spells.stands_ops hs
    obtain ⟨hcode, hcases⟩ := hcut.block_cases hi hs
    have hpassed : (r.passed (r.blockOps (number i))).map r.op = seg.ops := by
      rw [passed_eq, ← hcode, code]
      intro id hid
      refine hcut.plain seg (List.mem_of_getElem? hs) (r.op id) ?_
      rw [← hcode, code, ← map_dropLast]
      exact mem_map_of_mem hid
    have hperformed : ∀ n, ((r.trace I (n + 1) (some (number i), s)).map r.op).map some =
        (range' (Segment.entry segments i + seg.labels.length) seg.ops.length).flatMap (fun pc => [ops[pc]?]) ++
          ((r.trace I n (r.runFrom I (number i) (r.blockOps (number i)) s).2).map r.op).map some := by
      intro n
      rw [trace, map_append, map_append, hpassed, ← hops.map_range', map_eq_flatMap]
    obtain ⟨init, op, hinit, hop, hplain, hmeets⟩ | ⟨hplain, hmeets⟩ := hcases
    · have hrun := run_terminated (I := I) (hinit ▸ hops) (fun op hop => (hplain op hop).2) hop s
      have hlength : seg.ops.length = init.length + 1 := by simp [hinit]
      rw [(runFrom_terminated (hcode.trans hinit) (fun op hop => (hplain op hop).1) hop).2, hlength] at hperformed ⊢
      exact ⟨_, _, hrun, hperformed, hmeets I _⟩
    · rw [(runFrom_plain (hcode ▸ fun op hop => (hplain op hop).1)).2, hcode] at hperformed ⊢
      exact ⟨_, _, run_straight hops (fun op hop => (hplain op hop).2) s, hperformed, hmeets⟩

theorem exists_start (hcut : r.CutFrom ops segments kept number) :
    ∃ start : Nat → Nat, (∀ b < r.blocks.size, Stands ops (start b) (r.code b)) ∧
      ∀ b c, b < c → c < r.blocks.size → start b + (r.code b).length ≤ start c := by
  have hblk : ∀ b < r.blocks.size, ∃ i s, number i = b ∧ segments[i]? = some s ∧ r.code b = s.ops := by
    intro b hb
    obtain ⟨i, hi, rfl⟩ := hcut.exists_kept b hb
    obtain ⟨s, e, hs, -, hview, -⟩ := hcut.block i hi
    exact ⟨i, s, rfl, hs, congrArg View.ops hview⟩
  choose! index seg hnum hseg hcode using hblk
  refine ⟨fun b => entry segments (index b) + (seg b).labels.length, ?_, ?_⟩
  · intro b hb
    rw [hcode b hb]
    exact hcut.spells.stands_ops (hseg b hb)
  · intro b c hbc hc
    have hb : b < r.blocks.size := lt_trans hbc hc
    have hidx : index b < index c := by
      by_contra hle
      have := hcut.mono _ _ (Nat.le_of_not_lt hle)
      rw [hnum b hb, hnum c hc] at this
      omega
    have hent : entry segments (index b + 1) ≤ entry segments (index c) :=
      entry_mono hidx
    rw [entry_succ (hseg b hb), Segment.size] at hent
    rw [hcode b hb]
    dsimp only
    omega

end CutFrom

theorem mem_predecessors {a : Nat} : a ∈ r.graph.predecessors b ↔ a < r.blocks.size ∧ b ∈ r.successors a := by
  have hnext : r.graph.next a = r.successors a := by
    simp only [Digraph.next, graph, successors, block, Array.getD_eq_getD_getElem?, Array.getElem?_map]
    cases r.blocks[a]? <;> rfl
  simp [Digraph.predecessors, hnext]

theorem exists_take_eq_take {α : Type} {f g : Nat → List α} (hf : ∀ m n, m ≤ n → f m <+: f n)
    (hg : ∀ m n, m ≤ n → g m <+: g n) (hfg : ∀ n, ∃ m ≥ n, f m = g n) (k : Nat) :
    ∃ N, ∀ n ≥ N, (f n).take k = (g n).take k := by
  obtain ⟨M, hM⟩ := exists_take_eq hf k
  obtain ⟨N, hN⟩ := exists_take_eq hg k
  refine ⟨max M N, fun n _ => ?_⟩
  obtain ⟨m, hm, hmn⟩ := hfg n
  calc (f n).take k = (f M).take k := hM n (by omega)
    _ = (f m).take k := (hM m (by omega)).symm
    _ = (g n).take k := by rw [hmn]

/-- A routine does what the list of operations it was cut from does: from the first
operation and from the entry block, the same operations are performed in the same
order, and one run stops exactly where the other does. Its terminators stand last,
its edges stay inside, every block can be reached, the blocks are pieces of the list
in order, and predecessors are the blocks that lead to a block, each once. -/
theorem ofOperations_agrees {ops : List Operation} {ids : Ids} (h : ofOperations ops ids = .ok r) :
    (∀ {σ : Type u} (I : Interpretation σ) (s : σ),
      (∀ k, ∃ N, ∀ n ≥ N, ((Flat.run I ops n (some 0, s)).1.map (ops[·]?)).take k =
        (((r.trace I n (some 0, s)).map r.op).map some).take k) ∧
      ∀ s', (∃ n, (Flat.run I ops n (some 0, s)).2 = (none, s')) ↔ ∃ n, (r.run I n (some 0, s)).2 = (none, s')) ∧
    (∀ b < r.blocks.size, (∀ op ∈ (r.code b).dropLast, op.inst.isTerminator = false) ∧
      (∀ c ∈ (r.block b).next, c < r.blocks.size) ∧ (∀ c ∈ (r.block b).branch, c < r.blocks.size) ∧
      Relation.ReflTransGen r.graph.Edge 0 b) ∧
    (∃ start : Nat → Nat, (∀ b < r.blocks.size, Flat.Stands ops (start b) (r.code b)) ∧
      ∀ b c, b < c → c < r.blocks.size → start b + (r.code b).length ≤ start c) ∧
    ∀ b, (r.graph.predecessors b).Nodup ∧
      ∀ a, a ∈ r.graph.predecessors b ↔ a < r.blocks.size ∧ b ∈ r.successors a := by
  obtain ⟨kept, number, hcut⟩ := exists_cutFrom h
  refine ⟨fun I s => ?_, fun b hb => ?_, ?_, fun b => ⟨?_, fun a => mem_predecessors⟩⟩
  · refine ⟨exists_take_eq_take ?_ ?_ fun n => ?_, (hcut.flat I).stops_iff hcut s⟩
    · exact fun m n hmn => (Flat.stepwise.grows _ hmn).map _
    · exact fun m n hmn => ((trace_grows _ hmn).map _).map _
    · obtain ⟨m, hm, hops, -⟩ := (hcut.flat I).run_blocks hcut n hcut.meets_entry s
      exact ⟨m, hm, List.map_eq_flatMap.trans hops⟩
  · have hclosed := Closed.ofOperations h (r.view b) (mem_views.2 ⟨b, hb, rfl⟩)
    exact ⟨hclosed.plain, hclosed.next_lt, hclosed.branch_lt, reachable_ofOperations h hb⟩
  · exact hcut.exists_start
  · exact List.nodup_range.filter _

/-- A loop entered through two labels in a row, with code that nothing reaches behind
a branch and a label at the very end. -/
def trailingLabel : List Operation :=
  [⟨.markLabel, .none, none, [.label 0]⟩, ⟨.markLabel, .none, none, [.label 1]⟩,
    ⟨.copy, .none, some (.temp 0), [.word 1]⟩,
    ⟨.branchIfTrue, .none, none, [.label 3, .temp 0]⟩,
    ⟨.branch, .none, none, [.label 2]⟩,
    ⟨.copy, .none, some (.temp 1), [.word 2]⟩,
    ⟨.markLabel, .none, none, [.label 2]⟩,
    ⟨.branchIfFalse, .none, none, [.label 1, .temp 2]⟩,
    ⟨.markLabel, .none, none, [.label 3]⟩]

theorem ofOperations_agrees_trailingLabel : ∃ r, ofOperations trailingLabel {} = .ok r ∧ (∀ k, ∃ N, ∀ n ≥ N,
      ((Flat.run ⟨fun _ n => n / 2, fun _ n => n % 3 == 0⟩ trailingLabel n (some 0, 1000)).1.map
        (trailingLabel[·]?)).take k =
      (((r.trace ⟨fun _ n => n / 2, fun _ n => n % 3 == 0⟩ n (some 0, 1000)).map r.op).map some).take k) ∧
    (∀ s', (∃ n, (Flat.run ⟨fun _ n => n / 2, fun _ n => n % 3 == 0⟩ trailingLabel n (some 0, 1000)).2 = (none, s')) ↔
      ∃ n, (r.run ⟨fun _ n => n / 2, fun _ n => n % 3 == 0⟩ n (some 0, 1000)).2 = (none, s')) ∧
    r.blocks.size = 4 ∧ ∀ a, a ∈ r.graph.predecessors 3 ↔ a < r.blocks.size ∧ 3 ∈ r.successors a := by
  have hok : ((ofOperations trailingLabel {}).toOption.map (·.blocks.size)) = some 4 := by cbv
  cases hr : ofOperations trailingLabel {} with
  | error e => simp [hr, Except.toOption] at hok
  | ok r =>
    have hagrees := ofOperations_agrees hr
    obtain ⟨hsame, hstop⟩ := hagrees.1 ⟨fun _ n => n / 2, fun _ n => n % 3 == 0⟩ 1000
    exact ⟨r, rfl, hsame, hstop, by simpa [hr, Except.toOption] using hok, (hagrees.2.2.2 3).2⟩

end Routine
end ShaderRecompiler
