import ShaderRecompiler.Proofs.Emission
import ShaderRecompiler.Proofs.Execution

/-! Running a flat list of operations. Control stands at a place of the list and
goes on to the next one, unless an operation returns or branches to the mark of a
label. A run takes so many steps and records the places of the operations it
performs; marks are passed over. -/
namespace ShaderRecompiler

open List Operation Instruction

universe u

variable {σ : Type u}

def Interpretation.performAll (I : Interpretation σ) (ops : List Operation) (s : σ) : σ :=
  ops.foldl (fun s op => I.perform op s) s

namespace Flat

/-- Where a label is marked. -/
def mark? (ops : List Operation) (label : Nat) : Option Nat := ops.findIdx? (·.marks.contains label)

def target? (ops : List Operation) (op : Operation) : Option Nat :=
  ((op.source? 0).bind Operand.asLabel?).bind (mark? ops)

section Run

variable (I : Interpretation σ) (ops : List Operation)

/-- Where control goes from operation `op` at place `pc`. A return leads nowhere,
and neither does a test of nothing. -/
def follow (pc : Nat) (op : Operation) (s : σ) : Option Nat :=
  match op.inst with
  | .ret => none
  | .branch => target? ops op
  | .branchIfTrue | .branchIfFalse =>
    match op.source? 1 with
    | some cond =>
      if I.holds cond s != (op.inst == .branchIfFalse) then target? ops op else some (pc + 1)
    | none => none
  | _ => some (pc + 1)

def step : Option Nat × σ → Option Nat × σ
  | (none, s) => (none, s)
  | (some pc, s) =>
    match ops[pc]? with
    | none => (none, s)
    | some op => (follow I ops pc op s, if op.inst.isStraight then I.perform op s else s)

/-- The place of an operation that is not a mark. -/
def seen : Option Nat → List Nat
  | none => []
  | some pc => if (ops[pc]?).any (·.inst != .markLabel) then [pc] else []

def run : Nat → Option Nat × σ → List Nat × Option Nat × σ
  | 0, c => ([], c)
  | n + 1, c =>
    let (places, last) := run n (step I ops c)
    (seen ops c.1 ++ places, last)

end Run

variable {I : Interpretation σ} {label : Nat}

@[simp] theorem run_zero (c : Option Nat × σ) : run I ops 0 c = ([], c) := rfl

theorem run_succ (n : Nat) (c : Option Nat × σ) :
    run I ops (n + 1) c = (seen ops c.1 ++ (run I ops n (step I ops c)).1, (run I ops n (step I ops c)).2) :=
  rfl

@[simp] theorem run_none (n : Nat) (s : σ) : run I ops n (none, s) = ([], none, s) := by
  induction n with
  | zero => rfl
  | succ n ih => rw [run_succ, step, ih]; rfl

theorem run_one (c : Option Nat × σ) : run I ops 1 c = (seen ops c.1, step I ops c) := by
  rw [run_succ]
  simp

theorem stepwise : Stepwise (run I ops) :=
  ⟨run_zero, run_none, fun _ _ => by rw [run_one, run_succ]⟩

/-! Single steps. -/

theorem step_some (h : ops[pc]? = some op) :
    step I ops (some pc, s) = (follow I ops pc op s, if op.inst.isStraight then I.perform op s else s) := by
  rw [step, h]

theorem step_past (h : ops.length ≤ pc) : step I ops (some pc, s) = (none, s) := by
  rw [step, getElem?_eq_none h]

theorem seen_some (h : ops[pc]? = some op) : seen ops (some pc) = if op.inst = .markLabel then [] else [pc] := by
  rw [seen, h]
  by_cases hmark : op.inst = .markLabel <;> simp [hmark]

theorem follow_straight (h : op.inst.isStraight) : follow I ops pc op s = some (pc + 1) := by
  unfold follow
  split <;> simp_all [isStraight]

theorem follow_conditional (h : op.inst.isConditionalBranch) : follow I ops pc op s = match op.source? 1 with
      | some cond =>
        if I.holds cond s != (op.inst == .branchIfFalse) then target? ops op else some (pc + 1)
      | none => none := by
  unfold follow
  split <;> simp_all [isConditionalBranch]

theorem run_mark (h : ops[pc]? = some op) (hop : op.inst = .markLabel) :
    run I ops 1 (some pc, s) = ([], some (pc + 1), s) := by
  rw [run_one, step_some h, seen_some h, if_pos hop, follow]
  simp [hop, isStraight]

theorem run_straight_one (h : ops[pc]? = some op) (hop : op.inst.isStraight) :
    run I ops 1 (some pc, s) = ([pc], some (pc + 1), I.perform op s) := by
  have hmark : op.inst ≠ .markLabel := by
    intro hmark
    simp [hmark, isStraight] at hop
  rw [run_one, step_some h, seen_some h, if_neg hmark, follow_straight hop, if_pos hop]

theorem run_terminator (h : ops[pc]? = some op) (hop : op.inst.isTerminator) :
    run I ops 1 (some pc, s) = ([pc], follow I ops pc op s, s) := by
  rw [run_one, step_some h, seen_some h, if_neg (ne_markLabel hop), isStraight_of_isTerminator hop]
  rfl

/-! Pieces of a list. -/

/-- The operations `code` stand at place `pc`. -/
def Stands (ops : List Operation) (pc : Nat) (code : List Operation) : Prop := code <+: ops.drop pc

namespace Stands

theorem self (ops : List Operation) : Stands ops 0 ops := prefix_rfl

theorem left (h : Stands ops pc (code ++ code')) : Stands ops pc code := (prefix_append _ _).trans h

theorem right (h : Stands ops pc (code ++ code')) : Stands ops (pc + code.length) code' := by
  obtain ⟨after, hafter⟩ := h
  rw [Stands, ← drop_drop, ← hafter, append_assoc, drop_left]
  exact prefix_append _ _

theorem getElem? (h : Stands ops pc code) (hi : i < code.length) : ops[pc + i]? = code[i]? := by
  obtain ⟨after, hafter⟩ := h
  rw [← getElem?_drop, ← hafter, getElem?_append_left hi]

theorem head (h : Stands ops pc (op :: code)) : ops[pc]? = some op := h.getElem? (i := 0) (Nat.succ_pos _)

theorem tail (h : Stands ops pc (op :: code)) : Stands ops (pc + 1) code :=
  right (show Stands ops pc ([op] ++ code) from h)

theorem flatMap {α : Type} {f : α → List Operation} {xs : List α} {x : α}
    (h : Stands ops pc (xs.flatMap f)) (hx : xs[i]? = some x) :
    Stands ops (pc + ((xs.take i).flatMap f).length) (f x) := by
  obtain ⟨hi, rfl⟩ := List.getElem?_eq_some_iff.1 hx
  rw [← take_append_drop i xs, flatMap_append, drop_eq_getElem_cons hi, flatMap_cons] at h
  exact h.right.left

end Stands

/-! Labels that are marked once. -/

theorem mark?_eq (hnodup : (ops.flatMap marks).Nodup) (h : ops[pc]? = some op) (hlab : label ∈ op.marks) :
    mark? ops label = some pc := by
  obtain ⟨hpc, rfl⟩ := List.getElem?_eq_some_iff.1 h
  rw [mark?, findIdx?_eq_some_iff_getElem]
  refine ⟨hpc, by simpa using hlab, fun j hj hmem => ?_⟩
  have hdisj := pairwise_iff_getElem.1 (nodup_flatMap.1 hnodup).2 j pc (Nat.lt_trans hj hpc) hpc hj
  exact hdisj (by simpa using hmem) hlab

theorem getElem?_of_mark? (h : mark? ops label = some pc) : ∃ op, ops[pc]? = some op ∧ label ∈ op.marks := by
  obtain ⟨hpc, hmem, -⟩ := findIdx?_eq_some_iff_getElem.1 h
  exact ⟨_, getElem?_eq_getElem hpc, by simpa using hmem⟩

theorem lt_of_mark? (h : mark? ops label = some pc) : pc < ops.length := by
  obtain ⟨op, hop, -⟩ := getElem?_of_mark? h
  exact (List.getElem?_eq_some_iff.1 hop).1

theorem lt_of_target? (h : target? ops op = some pc) : pc < ops.length := by
  obtain ⟨label, -, hmark⟩ := Option.bind_eq_some_iff.1 h
  exact lt_of_mark? hmark

theorem follow_cases {next : Nat} (h : follow I ops pc op s = some next) :
    target? ops op = some next ∨ (next = pc + 1 ∧ op.inst.isJump = false) := by
  unfold follow at h
  split at h
  · cases h
  · exact .inl h
  iterate 2
    · next hinst =>
      split at h
      · split at h
        · exact .inl h
        · exact .inr ⟨(Option.some.inj h).symm, by rw [hinst]; rfl⟩
      · cases h
  · next hret hbr _ _ =>
    refine .inr ⟨(Option.some.inj h).symm, ?_⟩
    revert hret hbr
    cases op.inst <;> simp [isJump]

theorem run_lt (hlast : ∃ last ∈ ops.getLast?, last.inst.isJump) (hpc : pc < ops.length) (n : Nat) (s : σ) :
    ∀ place ∈ (run I ops n (some pc, s)).2.1, place < ops.length := by
  induction n generalizing pc s with
  | zero =>
    rintro _ ⟨⟩
    exact hpc
  | succ n ih =>
    rw [run_succ, step_some (getElem?_eq_getElem hpc)]
    cases hnext : follow I ops pc ops[pc] s with
    | none => simp
    | some next =>
      refine ih ?_ _
      obtain htgt | ⟨rfl, hjump⟩ := follow_cases hnext
      · exact lt_of_target? htgt
      · obtain ⟨last, hlast, hlastJump⟩ := hlast
        by_contra hge
        obtain rfl : pc = ops.length - 1 := by omega
        rw [getLast?_eq_getElem?, getElem?_eq_getElem hpc] at hlast
        obtain rfl := Option.some.inj hlast
        rw [hjump] at hlastJump
        cases hlastJump

/-! A piece that branches only inside itself runs as it does alone. -/

section Embedded

variable (hcode : Stands ops pc code) (hnodup : (ops.flatMap marks).Nodup)
  (htargets : ∀ l ∈ code.flatMap targets, l ∈ code.flatMap marks)
include hcode hnodup htargets

theorem target?_embedded (hop : op ∈ code) (hterm : op.inst.isTerminator) :
    target? ops op = (target? code op).map (pc + ·) := by
  unfold target?
  cases hlab : (op.source? 0).bind Operand.asLabel? with
  | none => rfl
  | some label =>
    have hmem : label ∈ code.flatMap marks := by
      refine htargets label (mem_flatMap.2 ⟨op, hop, ?_⟩)
      rw [Operation.targets, if_pos hterm, Operation.label, hlab]
      exact mem_singleton_self label
    cases hmark : mark? code label with
    | none =>
      obtain ⟨marker, hmarker, hmem⟩ := mem_flatMap.1 hmem
      have := findIdx?_eq_none_iff.1 hmark marker hmarker
      simp [hmem] at this
    | some place =>
      obtain ⟨marker, hmarker, hmem⟩ := getElem?_of_mark? hmark
      have hplc : ops[pc + place]? = some marker := (hcode.getElem? (lt_of_mark? hmark)).trans hmarker
      rw [Option.bind_some, Option.bind_some, hmark, mark?_eq hnodup hplc hmem, Option.map_some]

theorem follow_embedded (hop : op ∈ code) (s : σ) :
    follow I ops (pc + i) op s = (follow I code i op s).map (pc + ·) := by
  have htgt : op.inst.isTerminator → target? ops op = (target? code op).map (pc + ·) :=
    target?_embedded hcode hnodup htargets hop
  unfold follow
  split
  · rfl
  · next hinst => exact htgt (by rw [hinst]; rfl)
  iterate 2
    · next hinst =>
      cases op.source? 1 with
      | none => rfl
      | some cond =>
        dsimp only
        split
        · exact htgt (by rw [hinst]; rfl)
        · rfl
  · rfl

theorem run_embedded (hlast : ∃ last ∈ code.getLast?, last.inst.isJump) (n : Nat) (hi : i < code.length) (s : σ) :
    run I ops n (some (pc + i), s) =
      ((run I code n (some i, s)).1.map (pc + ·), (run I code n (some i, s)).2.1.map (pc + ·),
        (run I code n (some i, s)).2.2) := by
  induction n generalizing i s with
  | zero => rfl
  | succ n ih =>
    have hins : code[i]? = some code[i] := getElem?_eq_getElem hi
    have houtside : ops[pc + i]? = some code[i] := (hcode.getElem? hi).trans hins
    have hseen : seen ops (some (pc + i)) = (seen code (some i)).map (pc + ·) := by
      rw [seen_some houtside, seen_some hins]
      split <;> rfl
    have hfollow := follow_embedded hcode hnodup htargets (I := I) (i := i) (getElem_mem hi) s
    rw [run_succ, run_succ, step_some houtside, step_some hins, hfollow, hseen, map_append]
    cases hnext : follow I code i code[i] s with
    | none => simp
    | some next =>
      have hlt : next < code.length := by
        have := run_lt (I := I) hlast hi 1 s next
        rw [run_one, step_some hins, hnext] at this
        exact this rfl
      rw [Option.map_some, ih hlt]

end Embedded

theorem run_straight (h : Stands ops pc code) (hcode : ∀ op ∈ code, op.inst.isStraight) (s : σ) :
    run I ops code.length (some pc, s) =
      (range' pc code.length, some (pc + code.length), I.performAll code s) := by
  induction code generalizing pc s with
  | nil => rfl
  | cons op code ih =>
    obtain ⟨hop, hcode⟩ := forall_mem_cons.1 hcode
    rw [length_cons, Nat.add_comm code.length 1, stepwise.chain (run_straight_one h.head hop), ih h.tail hcode,
      Nat.add_comm 1 code.length, range'_succ, Nat.add_assoc, Nat.add_comm 1 code.length]
    rfl

theorem run_terminated (h : Stands ops pc (init ++ [op]))
    (hinit : ∀ op ∈ init, op.inst.isStraight) (hop : op.inst.isTerminator) (s : σ) :
    run I ops (init.length + 1) (some pc, s) =
      (range' pc (init.length + 1), follow I ops (pc + init.length) op (I.performAll init s),
        I.performAll init s) := by
  rw [stepwise.chain (run_straight h.left hinit s), run_terminator h.right.head hop, range'_concat, Nat.one_mul]

theorem run_marks (h : Stands ops pc code) (hcode : ∀ op ∈ code, op.inst = .markLabel)
    (s : σ) : run I ops code.length (some pc, s) = ([], some (pc + code.length), s) := by
  induction code generalizing pc with
  | nil => rfl
  | cons op code ih =>
    obtain ⟨hop, hcode⟩ := forall_mem_cons.1 hcode
    rw [length_cons, Nat.add_comm code.length 1, stepwise.chain (run_mark h.head hop), ih h.tail hcode,
      Nat.add_assoc, Nat.add_comm 1 code.length]
    rfl

end Flat
end ShaderRecompiler
