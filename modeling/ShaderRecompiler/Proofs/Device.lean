import ShaderRecompiler.Proofs.History

/-! Operations on words in operands and in memory. A device is any interpretation in
which operands and the cells of the storages hold words; only of the cells that it
owns is it asked that they hold what was stored to them last, since others may be
written by other invocations. What an emitting computation appends is then followed
operand by operand. -/
namespace ShaderRecompiler

open List Operation Emit

universe u

variable {sources : List Operand}

/-- A word that is no operand: its storage, and the words that address it there. -/
structure Cell where
  storage : Storage
  address : List UInt32
deriving DecidableEq

/-- The words that an instruction takes do not decide what it gives: it looks elsewhere
or, as those that hand over a primitive, gives nothing. -/
def Instruction.readsOutside : Instruction → Bool
  | load | textureSample _ | imageLoad _ | shuffle | shuffleDown | shuffleUp | shuffleXor | swizzleAdd
  | emitVertex | endPrimitive => true
  | _ => false

namespace Operation

/-- The cell that a load reads. -/
def source (op : Operation) (read : Operand → UInt32) : Cell := ⟨op.storage, op.sources.map read⟩

/-- The cell that a store writes; the value comes last. -/
def target (op : Operation) (read : Operand → UInt32) : Cell := ⟨op.storage, op.sources.dropLast.map read⟩

end Operation

structure Device (σ : Type u) (w : World) (owns : Cell → Prop) extends Interpretation σ where
  read : Operand → σ → UInt32
  cell : Cell → σ → UInt32
  holds_eq : ∀ o s, holds o s = (read o s != 0)
  read_constant : ∀ bits s, read (.constant bits) s = bits
  read_kept : ∀ op o s, (op.dest = some o → o.isAssignable = false) → read o (perform op s) = read o s
  read_result : ∀ op dest s, op.dest = some dest → dest.isAssignable → op.inst.readsOutside = false →
    read dest (perform op s) = w.compute op.inst op.storage (op.sources.map (read · s))
  read_load : ∀ op dest s, op.dest = some dest → dest.isAssignable → op.inst = .load →
    owns (op.source (read · s)) → read dest (perform op s) = cell (op.source (read · s)) s
  cell_store : ∀ op s, op.inst = .store → owns (op.target (read · s)) →
    cell (op.target (read · s)) (perform op s) = read op.stored s
  cell_kept : ∀ op c s, owns c → (op.inst = .store → c ≠ op.target (read · s)) → cell c (perform op s) = cell c s

namespace World

/-- What an operation gives: a load the word in its cell. -/
def given (w : World) (op : Operation) (s : Valuation × (Cell → UInt32)) : UInt32 :=
  if op.inst = .load then s.2 (op.source (w.value s.1))
  else w.compute op.inst op.storage (op.sources.map (w.value s.1))

def assigned (w : World) (op : Operation) (s : Valuation × (Cell → UInt32)) : Valuation :=
  match op.dest with
  | some dest => if dest.isAssignable then Function.update s.1 dest (w.given op s) else s.1
  | none => s.1

variable {w : World} {op : Operation} {s : Valuation × (Cell → UInt32)}

theorem assigned_of_ne (h : op.dest = some o → o.isAssignable = false) : w.assigned op s o = s.1 o := by
  unfold assigned
  cases hdest : op.dest with
  | none => rfl
  | some dest =>
    dsimp only
    split
    · next hassignable =>
      apply Function.update_of_ne
      rintro rfl
      rw [h hdest] at hassignable
      cases hassignable
    · rfl

theorem value_assigned {dest : Operand} (hdest : op.dest = some dest) (h : dest.isAssignable) :
    w.value (w.assigned op s) dest = w.given op s := by
  rw [value_of_isAssignable w h, assigned, hdest]
  dsimp only
  rw [if_pos h]
  exact Function.update_self ..

/-- All cells are memory. -/
def device (w : World) (owns : Cell → Prop) : Device (Valuation × (Cell → UInt32)) w owns where
  perform op s :=
    (w.assigned op s,
      if op.inst = .store then Function.update s.2 (op.target (w.value s.1)) (w.value s.1 op.stored) else s.2)
  holds o s := w.value s.1 o != 0
  read o s := w.value s.1 o
  cell c s := s.2 c
  holds_eq _ _ := rfl
  read_constant _ _ := rfl
  read_kept op o s h := w.value_congr (assigned_of_ne h)
  read_result op dest s hdest hassignable hinst := by
    refine (value_assigned hdest hassignable).trans (if_neg ?_)
    intro hload
    rw [hload] at hinst
    cases hinst
  read_load op dest s hdest hassignable hload _ := (value_assigned hdest hassignable).trans (if_pos hload)
  cell_store op s hstore _ := by
    rw [if_pos hstore]
    exact Function.update_self ..
  cell_kept op c s _ h := by
    split
    · next hstore => exact Function.update_of_ne (h hstore) _ _
    · rfl

/-- Cells that are not owned hold zero. -/
def still (w : World) (owns : Cell → Prop) [DecidablePred owns] : Device (Valuation × (Cell → UInt32)) w owns :=
  let clear (s : Valuation × (Cell → UInt32)) := (s.1, fun c => if owns c then s.2 c else 0)
  let D := w.device owns
  { D with
    perform := fun op s => D.perform op (clear s)
    read_kept := fun op o s => D.read_kept op o (clear s)
    read_result := fun op dest s => D.read_result op dest (clear s)
    read_load := fun op dest s hdest hassignable hload howns =>
      (D.read_load op dest (clear s) hdest hassignable hload howns).trans (if_pos howns)
    cell_store := fun op s => D.cell_store op (clear s)
    cell_kept := fun op c s howns h => (D.cell_kept op c (clear s) howns h).trans (if_pos howns) }

theorem read_still {owns : Cell → Prop} [DecidablePred owns] {dest : Operand} (hdest : op.dest = some dest)
    (hassignable : dest.isAssignable) (hload : op.inst = .load)
    (howns : ¬ owns (op.source ((w.still owns).read · s))) :
    (w.still owns).read dest ((w.still owns).perform op s) = 0 :=
  (value_assigned hdest hassignable).trans ((if_pos hload).trans (if_neg howns))

end World

namespace Device

variable {σ : Type u} {w : World} {owns : Cell → Prop} (M : Device σ w owns)

/-- Between the two states only new temporaries and cells in `W` were assigned. -/
structure Onward (W : Cell → Prop) (e : Emitter) (s : σ) (e' : Emitter) (s' : σ) : Prop where
  temps : e.ids.temps ≤ e'.ids.temps
  reads : ∀ o, e.Knows o → M.read o s' = M.read o s
  cells : ∀ c, owns c → ¬ W c → M.cell c s' = M.cell c s

/-- An operand that stands for `v` from here on. -/
structure Means (e : Emitter) (s : σ) (o : Operand) (v : UInt32) : Prop where
  known : e.Knows o
  read : M.read o s = v

variable {M} {W : Cell → Prop} {e e' : Emitter} {s : σ} {o : Operand}

theorem Onward.refl (e : Emitter) (s : σ) : M.Onward W e s e s := ⟨Nat.le_refl _, fun _ _ => rfl, fun _ _ _ => rfl⟩

theorem Onward.knows (h : M.Onward W e s e' s') (ho : e.Knows o) : e'.Knows o :=
  fun t ht => Nat.lt_of_lt_of_le (ho t ht) h.temps

theorem Onward.trans (h : M.Onward W e s e' s') (h' : M.Onward W e' s' e'' s'') : M.Onward W e s e'' s'' where
  temps := Nat.le_trans h.temps h'.temps
  reads o ho := (h'.reads o (h.knows ho)).trans (h.reads o ho)
  cells c hc hW := (h'.cells c hc hW).trans (h.cells c hc hW)

theorem Onward.mono (h : M.Onward W e s e' s') (hW : ∀ c, W c → W' c) : M.Onward W' e s e' s' where
  temps := h.temps
  reads := h.reads
  cells c hc hnot := h.cells c hc (mt (hW c) hnot)

theorem Means.mono (hm : M.Means e s o v) (h : M.Onward W e s e' s') : M.Means e' s' o v :=
  ⟨h.knows hm.known, (h.reads o hm.known).trans hm.read⟩

theorem means_constant (M : Device σ w owns) (e : Emitter) (s : σ) (bits : UInt32) :
    M.Means e s (.constant bits) bits :=
  ⟨by rintro t ⟨⟩, M.read_constant bits s⟩

theorem means_word (M : Device σ w owns) (e : Emitter) (s : σ) (n : Nat) : M.Means e s (.word n) (UInt32.ofNat n) :=
  M.means_constant e s _

theorem means_words {a b : Nat}
    (h : Forall₂ (M.Means e s) sources words) : Forall₂ (M.Means e s) (.word a :: .word b :: sources)
      (UInt32.ofNat a :: UInt32.ofNat b :: words) :=
  .cons (M.means_word ..) (.cons (M.means_word ..) h)

theorem map_read_of_means (h : Forall₂ (M.Means e s) sources words) : sources.map (M.read · s) = words := by
  induction h with
  | nil => rfl
  | cons hm _ ih => rw [map_cons, hm.read, ih]

theorem performAll_append (xs ys : List Operation) (s : σ) :
    M.performAll (xs ++ ys) s = M.performAll ys (M.performAll xs s) :=
  foldl_append

/-! What an emitting computation appends, performed from a state. -/

section Runs

variable {α : Type} {m : Emit α} {Q : α → Emitter → σ → Prop}

/-- What `m` adds to `e` goes straight on and, performed from `s`, ends as `Q` says. -/
def Runs (M : Device σ w owns) (m : Emit α) (e : Emitter) (s : σ) (Q : α → Emitter → σ → Prop) : Prop :=
  ∃ added, (m.run e).2.ops.toList = e.ops.toList ++ added ∧ (∀ op ∈ added, op.inst.isStraight) ∧
    Q (m.run e).1 (m.run e).2 (M.performAll added s)

namespace Runs

theorem pure (h : Q a e s) : M.Runs (Pure.pure a) e s Q := ⟨[], (append_nil _).symm, by simp, h⟩

theorem bind (hm : M.Runs m e s Q) (hf : ∀ a e' s', Q a e' s' → M.Runs (f a) e' s' R) : M.Runs (m >>= f) e s R := by
  obtain ⟨added, hops, hstr, hq⟩ := hm
  obtain ⟨added', hops', hstr', hr⟩ := hf _ _ _ hq
  refine ⟨added ++ added', ?_, ?_, ?_⟩
  · rw [← append_assoc, ← hops]
    exact hops'
  · intro op hop
    exact (mem_append.1 hop).elim (hstr op) (hstr' op)
  · rw [performAll_append]
    exact hr

theorem mono (h : M.Runs m e s Q) (hq : ∀ a e' s', Q a e' s' → Q' a e' s') : M.Runs m e s Q' := by
  obtain ⟨added, hops, hstr, h⟩ := h
  exact ⟨added, hops, hstr, hq _ _ _ h⟩

theorem of_append (h : M.Runs m e s Q) (code : List Operation)
    (hcode : (m.run e).2.ops.toList = e.ops.toList ++ code) :
    Q (m.run e).1 (m.run e).2 (M.performAll code s) := by
  obtain ⟨added, hops, -, h⟩ := h
  obtain rfl := append_cancel_left (hcode.symm.trans hops)
  exact h

/-- Words are copied one after the other, each to a cell of its own. -/
theorem copyAll {xs : List α} (dest source : α → Cell) (hall : ∀ c, owns c)
    (hbase : M.Means e s o v) (hrnd : ∀ x ∈ xs, ∀ e s, M.Means e s o v → M.Runs (body x) e s fun _ e' s' =>
      M.Onward (· = dest x) e s e' s' ∧ M.cell (dest x) s' = M.cell (source x) s)
    (hsrc : ∀ x y, source x ≠ dest y) (hdist : xs.Pairwise fun x y => dest x ≠ dest y) :
    M.Runs (xs.forM body) e s fun _ e' s' => M.Onward (fun c => ∃ x ∈ xs, c = dest x) e s e' s' ∧
      ∀ x ∈ xs, M.cell (dest x) s' = M.cell (source x) s := by
  induction xs generalizing e s with
  | nil => exact pure ⟨.refl e s, by simp⟩
  | cons x xs ih =>
    obtain ⟨hfst, hdist⟩ := pairwise_cons.1 hdist
    apply bind (hrnd x mem_cons_self e s hbase)
    rintro - e₁ s₁ ⟨h₁, hcell⟩
    refine (ih (hbase.mono h₁) (fun y hy => hrnd y (mem_cons_of_mem _ hy)) hdist).mono ?_
    rintro - e₂ s₂ ⟨h₂, hcells⟩
    refine ⟨(h₁.mono ?_).trans (h₂.mono ?_), forall_mem_cons.2 ⟨?_, fun y hy => ?_⟩⟩
    · rintro c rfl
      exact ⟨x, mem_cons_self, rfl⟩
    · rintro c ⟨y, hy, rfl⟩
      exact ⟨y, mem_cons_of_mem _ hy, rfl⟩
    · refine (h₂.cells _ (hall _) ?_).trans hcell
      rintro ⟨y, hy, heq⟩
      exact hfst y hy heq
    · exact (hcells y hy).trans (h₁.cells _ (hall _) (hsrc y x))

variable {inst : Instruction} {storage : Storage}

theorem fresh {operation : Operation} (hstore : operation.inst ≠ .store)
    (hdest : operation.dest = some (.temp e.ids.temps))
    (hread : M.read (.temp e.ids.temps) (M.perform operation s) = v) :
    M.Onward W e s { ops := e.ops.push operation, ids := { e.ids with temps := e.ids.temps + 1 } }
        (M.perform operation s) ∧
      M.Means { ops := e.ops.push operation, ids := { e.ids with temps := e.ids.temps + 1 } }
        (M.perform operation s) (.temp e.ids.temps) v := by
  refine ⟨⟨Nat.le_succ _, fun _ ho => ?_, fun c hc _ => ?_⟩, ?_, hread⟩
  · apply M.read_kept
    intro ho'
    rw [hdest] at ho'
    obtain rfl := Option.some.inj ho'
    exact absurd (ho _ rfl) (Nat.lt_irrefl _)
  · exact M.cell_kept _ c s hc fun h => absurd h hstore
  · rintro t ⟨⟩
    exact Nat.lt_succ_self _

theorem value (h : Forall₂ (M.Means e s) sources words) (hstr : inst.isStraight)
    (hstore : inst ≠ .store) (hinst : inst.readsOutside = false) :
    M.Runs (value inst sources) e s fun a e' s' =>
      M.Onward W e s e' s' ∧ M.Means e' s' a (w.compute inst .none words) := by
  refine ⟨[_], Array.toList_push, by simpa using hstr, ?_⟩
  apply fresh (e := e) hstore rfl
  rw [M.read_result _ _ s rfl rfl hinst, map_read_of_means h]

theorem load (h : Forall₂ (M.Means e s) sources words) (howns : owns ⟨storage, words⟩)
    (hcell : M.cell ⟨storage, words⟩ s = v) :
    M.Runs (load storage sources) e s fun a e' s' => M.Onward W e s e' s' ∧ M.Means e' s' a v := by
  have hsrc : source ⟨.load, storage, some (.temp e.ids.temps), sources⟩ (M.read · s) = ⟨storage, words⟩ := by
    rw [source, map_read_of_means h]
  refine ⟨[_], Array.toList_push, by simp [Instruction.isStraight], ?_⟩
  apply fresh (e := e) (by simp) rfl
  rw [← hcell, ← hsrc]
  exact M.read_load _ _ s rfl rfl rfl (by rwa [hsrc])

theorem iadd {a : Operand} (ha : M.Means e s a x) (hb : M.Means e s b y) :
    M.Runs (iadd a b) e s fun c e' s' => M.Onward W e s e' s' ∧ M.Means e' s' c (x + y) :=
  value (.cons ha (.cons hb .nil)) rfl (by simp) rfl

theorem imul {a : Operand} (ha : M.Means e s a x) (hb : M.Means e s b y) :
    M.Runs (imul a b) e s fun c e' s' => M.Onward W e s e' s' ∧ M.Means e' s' c (x * y) :=
  value (.cons ha (.cons hb .nil)) rfl (by simp) rfl

section Number

variable {i n p : Operand} {x y z : UInt32} (hi : M.Means e s i x) (hn : M.Means e s n y) (hp : M.Means e s p z)
include hi hn hp

/-- The number of a vertex or primitive among those of all instances. -/
theorem number : M.Runs (Emit.imul i n >>= fun base => Emit.iadd base p) e s fun a e' s' =>
    M.Onward (fun _ => False) e s e' s' ∧ M.Means e' s' a (x * y + z) := by
  apply bind (imul (W := fun _ => False) hi hn)
  rintro base e₁ s₁ ⟨h₁, hbase⟩
  refine (iadd (W := fun _ => False) hbase (hp.mono h₁)).mono ?_
  rintro a e₂ s₂ ⟨h₂, ha⟩
  exact ⟨h₁.trans h₂, ha⟩

theorem bind_number
    (hf : ∀ a e' s', M.Onward (fun _ => False) e s e' s' ∧ M.Means e' s' a (x * y + z) → M.Runs (f a) e' s' R) :
    M.Runs (Emit.imul i n >>= fun base => Emit.iadd base p >>= f) e s R := by
  rw [← bind_assoc]
  exact bind (number hi hn hp) hf

end Number

theorem place (hbase : M.Means e s base x) (offset : Nat) :
    M.Runs (if offset = 0 then Pure.pure base else Emit.iadd base (.word offset)) e s fun a e' s' =>
      M.Onward W e s e' s' ∧ M.Means e' s' a (x + UInt32.ofNat offset) := by
  split
  · next hzero =>
    subst hzero
    apply pure
    refine ⟨.refl e s, ?_⟩
    simpa using hbase
  · exact iadd hbase (M.means_word ..)

theorem loadInto {dest : Operand} (h : Forall₂ (M.Means e s) sources words) (howns : owns ⟨storage, words⟩)
    (hdest : dest.isAssignable) :
    M.Runs (loadInto dest storage sources) e s fun _ e' s' =>
      e'.ids = e.ids ∧ M.read dest s' = M.cell ⟨storage, words⟩ s ∧ (∀ o, o ≠ dest → M.read o s' = M.read o s) ∧
        ∀ c, owns c → M.cell c s' = M.cell c s := by
  have hsrc : source ⟨.load, storage, some dest, sources⟩ (M.read · s) = ⟨storage, words⟩ := by
    rw [source, map_read_of_means h]
  refine ⟨[_], Array.toList_push, by simp [Instruction.isStraight], rfl, ?_, fun o ho => ?_, fun c hc => ?_⟩
  · rw [← hsrc]
    exact M.read_load _ _ s rfl hdest rfl (by rwa [hsrc])
  · apply M.read_kept
    intro ho'
    exact absurd (Option.some.inj ho').symm ho
  · exact M.cell_kept _ c s hc (by simp)

theorem store {value : Operand} (h : Forall₂ (M.Means e s) sources words) (hv : M.Means e s value v)
    (howns : owns ⟨storage, words⟩) :
    M.Runs (store storage (sources ++ [value])) e s fun _ e' s' =>
      M.Onward (· = ⟨storage, words⟩) e s e' s' ∧ M.cell ⟨storage, words⟩ s' = v := by
  have htgt : target ⟨.store, storage, none, sources ++ [value]⟩ (M.read · s) = ⟨storage, words⟩ := by
    rw [target, dropLast_concat, map_read_of_means h]
  have hstored : stored ⟨.store, storage, none, sources ++ [value]⟩ = value := by
    simp [stored]
  refine ⟨[_], Array.toList_push, by simp [Instruction.isStraight], ⟨Nat.le_refl _, fun o _ => ?_, fun c hc _ => ?_⟩,
    ?_⟩
  · exact M.read_kept _ o s (by simp)
  · apply M.cell_kept _ c s hc
    intro _
    rwa [htgt]
  · rw [← htgt]
    refine (M.cell_store _ s rfl (by rwa [htgt])).trans ?_
    rw [hstored, hv.read]

end Runs
end Runs
end Device
end ShaderRecompiler
