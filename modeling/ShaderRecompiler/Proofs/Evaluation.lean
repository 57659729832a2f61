import Mathlib.Data.List.Forall2
import Mathlib.Logic.Function.Basic
import ShaderRecompiler.Lowering.Access
import ShaderRecompiler.Proofs.Emission

/-! What straight-line operations compute. Arithmetic on words is done here; what is
loaded, sampled or computed in floating point is left to a world, so that a
statement about every world is one about every state of memory and textures. -/
namespace ShaderRecompiler

open List Function

structure World where
  /-- Words of the guest's constant buffers. -/
  constant : Nat → Nat → UInt32
  /-- What instructions other than arithmetic on words give. -/
  result : Instruction → Storage → List UInt32 → UInt32

/-- The words in registers, temporaries and variables. -/
abbrev Valuation := Operand → UInt32

namespace World

def value (w : World) (s : Valuation) : Operand → UInt32
  | .constant bits => bits
  | .constantBuffer slot offset => w.constant slot offset
  | o => s o

def compute (w : World) (inst : Instruction) (storage : Storage) (words : List UInt32) : UInt32 :=
  match inst, words with
  | .copy, [a] => a
  | .add .u32, [a, b] => a + b
  | .subtract .u32, [a, b] => a - b
  | .multiply .u32, [a, b] => a * b
  | .bitwiseAnd, [a, b] => a &&& b
  | .bitwiseOr, [a, b] => a ||| b
  | .bitwiseExclusiveOr, [a, b] => a ^^^ b
  | .bitwiseNot, [a] => ~~~a
  | .shiftLeft, [a, b] => a <<< b
  | .shiftRightU32, [a, b] => a >>> b
  | inst, words => w.result inst storage words

def step (w : World) (s : Valuation) (op : Operation) : Valuation :=
  match op.dest with
  | some dest => update s dest (w.compute op.inst op.storage (op.sources.map (w.value s)))
  | none => s

def run (w : World) (ops : List Operation) (s : Valuation) : Valuation := ops.foldl w.step s

theorem run_append (w : World) (xs ys : List Operation) (s : Valuation) : w.run (xs ++ ys) s = w.run ys (w.run xs s) :=
  foldl_append

theorem value_congr (w : World) (h : s' o = s o) : w.value s' o = w.value s o := by
  cases o <;> first | rfl | exact h

end World

abbrev File := Register → UInt32

/-- The zero register keeps what it has. -/
def File.assign (f : File) (r : Register) (v : UInt32) : File := if r.isRz then f else update f r v

def Valuation.file (s : Valuation) : File := fun r => if r.isRz then 0 else s (.register r)

theorem World.value_operand (w : World) (s : Valuation) (r : Register) : w.value s r.operand = s.file r := by
  unfold Register.operand Valuation.file
  split <;> rfl

/-! What an emitter puts together, run from a state. -/

/-- Not a temporary that is still to be handed out. -/
def Emitter.Knows (e : Emitter) (o : Operand) : Prop := ∀ t, o = .temp t → t < e.ids.temps

/-- Between the two states only new temporaries were assigned. -/
structure Onward (e : Emitter) (s : Valuation) (e' : Emitter) (s' : Valuation) : Prop where
  temps : e.ids.temps ≤ e'.ids.temps
  keeps : ∀ o, e.Knows o → s' o = s o

/-- An operand that stands for `v` from here on. -/
structure Means (w : World) (e : Emitter) (s : Valuation) (o : Operand) (v : UInt32) : Prop where
  known : e.Knows o
  value : w.value s o = v

section Means

theorem Onward.refl (e : Emitter) (s : Valuation) : Onward e s e s := ⟨Nat.le_refl _, fun _ _ => rfl⟩

theorem Onward.knows (h : Onward e s e' s') (ho : e.Knows o) : e'.Knows o :=
  fun t ht => Nat.lt_of_lt_of_le (ho t ht) h.temps

theorem Onward.trans (h : Onward e s e' s') (h' : Onward e' s' e'' s'') : Onward e s e'' s'' :=
  ⟨Nat.le_trans h.temps h'.temps, fun o ho => (h'.keeps o (h.knows ho)).trans (h.keeps o ho)⟩

theorem Onward.file_eq (h : Onward e s e' s') : s'.file = s.file := by
  funext r
  unfold Valuation.file
  rw [h.keeps (.register r) nofun]

theorem Means.mono (hm : Means w e s o v) (h : Onward e s e' s') : Means w e' s' o v :=
  ⟨h.knows hm.known, (w.value_congr (h.keeps o hm.known)).trans hm.value⟩

theorem means_constant (w : World) (e : Emitter) (s : Valuation) (bits : UInt32) : Means w e s (.constant bits) bits :=
  ⟨nofun, rfl⟩

theorem means_register (w : World) (e : Emitter) (s : Valuation) (r : Register) :
    Means w e s r.operand (s.file r) := by
  refine ⟨?_, w.value_operand s r⟩
  intro t ht
  unfold Register.operand at ht
  split at ht <;> cases ht

theorem map_value_of_means (h : Forall₂ (Means w e s) sources words) : sources.map (w.value s) = words := by
  induction h with
  | nil => rfl
  | cons hm _ ih => rw [map_cons, hm.value, ih]

end Means

namespace Emit

variable {Q : α → Emitter → Valuation → Prop} {R : β → Emitter → Valuation → Prop}

/-- What `m` adds to `e`, run from `s`, ends as `Q` says. -/
def Runs (w : World) (m : Emit α) (e : Emitter) (s : Valuation) (Q : α → Emitter → Valuation → Prop) : Prop :=
  ∃ added, (m.run e).2.ops.toList = e.ops.toList ++ added ∧ Q (m.run e).1 (m.run e).2 (w.run added s)

namespace Runs

theorem pure (h : Q a e s) : Runs w (Pure.pure a) e s Q := ⟨[], (append_nil _).symm, h⟩

theorem bind (hm : Runs w m e s Q) (hf : ∀ a e' s', Q a e' s' → Runs w (f a) e' s' R) : Runs w (m >>= f) e s R := by
  obtain ⟨added, hops, hq⟩ := hm
  obtain ⟨added', hops', hr⟩ := hf _ _ _ hq
  refine ⟨added ++ added', ?_, ?_⟩
  · rw [← append_assoc, ← hops]
    exact hops'
  · rw [World.run_append]
    exact hr

theorem mono (h : Runs w m e s Q) (hq : ∀ a e' s', Q a e' s' → Q' a e' s') : Runs w m e s Q' := by
  obtain ⟨added, hops, h⟩ := h
  exact ⟨added, hops, hq _ _ _ h⟩

theorem of_fresh (h : Runs w m { ids } s Q) :
    Q (m.run { ids }).1 (m.run { ids }).2 (w.run (m.run { ids }).2.ops.toList s) := by
  obtain ⟨added, hops, h⟩ := h
  rw [hops]
  exact h

section

variable (h : Forall₂ (Means w e s) sources words)
include h

theorem op : Runs w (Emit.op ⟨inst, storage, some dest, sources⟩) e s fun _ _ s' =>
      s' = update s dest (w.compute inst storage words) := by
  refine ⟨[_], Array.toList_push, ?_⟩
  rw [← map_value_of_means h]
  rfl

theorem fresh : Runs w (do
      let dest ← freshTemp
      Emit.op ⟨inst, storage, some dest, sources⟩
      return dest) e s fun a e' s' => Onward e s e' s' ∧ Means w e' s' a (w.compute inst storage words) := by
  refine ⟨[_], Array.toList_push, ⟨Nat.le_succ _, fun _ ho => ?_⟩, ?_, ?_⟩
  · refine update_of_ne ?_ _ _
    intro heq
    exact absurd (ho _ heq) (Nat.lt_irrefl _)
  · rintro _ ⟨⟩
    exact Nat.lt_succ_self _
  · rw [← map_value_of_means h]
    exact update_self ..

theorem value : Runs w (Emit.value inst sources) e s fun a e' s' =>
      Onward e s e' s' ∧ Means w e' s' a (w.compute inst .none words) :=
  fresh h

theorem load : Runs w (Emit.load storage sources) e s fun a e' s' =>
      Onward e s e' s' ∧ Means w e' s' a (w.result .load storage words) :=
  fresh h

end

theorem binary (ha : Means w e s a x) (hb : Means w e s b y) : Runs w (Emit.value inst [a, b]) e s fun c e' s' =>
      Onward e s e' s' ∧ Means w e' s' c (w.compute inst .none [x, y]) :=
  value (.cons ha (.cons hb .nil))

end Runs

/-- Where a result for `r` is put: in a temporary if it is discarded. -/
def IsDestination (r : Register) (d : Operand) : Prop := if r.isRz then d.IsTemp else d = .register r

theorem Runs.destination (r : Register) :
    Runs w (destination r) e s fun d e' s' => Onward e s e' s' ∧ IsDestination r d := by
  unfold Emit.destination IsDestination
  by_cases hr : r.isRz
  · simp only [hr]
    exact ⟨[], (append_nil _).symm, ⟨Nat.le_succ _, fun _ _ => rfl⟩, _, rfl⟩
  · simp only [hr]
    exact .pure ⟨.refl e s, rfl⟩

theorem IsDestination.file_update (h : IsDestination r d) (s : Valuation) (v : UInt32) :
    Valuation.file (update s d v) = s.file.assign r v := by
  unfold IsDestination at h
  unfold File.assign
  funext q
  by_cases hr : r.isRz
  · rw [if_pos hr] at h ⊢
    obtain ⟨t, rfl⟩ := h
    have hne : Operand.register q ≠ .temp t := nofun
    unfold Valuation.file
    rw [update_of_ne hne]
  · rw [if_neg hr] at h ⊢
    subst h
    unfold Valuation.file
    by_cases hq : q = r
    · subst hq
      rw [if_neg hr, update_self, update_self]
    · rw [update_of_ne hq, update_of_ne (by simpa using hq)]

theorem Runs.assign (hd : IsDestination r d) (h : Forall₂ (Means w e s) sources words) :
    Runs w (Emit.op ⟨inst, storage, some d, sources⟩) e s fun _ _ s' =>
      s'.file = s.file.assign r (w.compute inst storage words) := by
  refine (Runs.op h).mono fun _ _ s' hs => ?_
  rw [hs]
  exact hd.file_update s _

end Emit
end ShaderRecompiler
