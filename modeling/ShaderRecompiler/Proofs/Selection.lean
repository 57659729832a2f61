import Mathlib.Algebra.Group.Nat.Defs
import ShaderRecompiler.Proofs.Annex
import ShaderRecompiler.Proofs.Budget
import ShaderRecompiler.Proofs.Labels

/-! Routing keeps behaviour. A landing stores the number of its exit in a selector,
and the tests behind the loop read it back, so from each landing control comes to the
exit it stands for; the blocks that it passes on the way change nothing but selectors
and the temporaries of the tests. Later rounds put further blocks on those ways, with
selectors of their own, and the ways lead to the same blocks. -/
namespace ShaderRecompiler

open List Operation Loop Nat

open UInt32 (ofNat toNat)

universe u v

def Operation.select (selector : Nat) (bits : UInt32) : Operation :=
  ⟨.copy, .none, some (.var selector), [.constant bits]⟩

def Operation.compareSelector (taken selector : Nat) (bits : UInt32) : Operation :=
  ⟨.compare .equal .u32, .none, some (.temp taken), [.var selector, .constant bits]⟩

/-- An interpretation of more operations than those of `I`. What `ids` has handed out
means the same as in `I`, seen through `view`; the variables beyond are selectors that
hold words, and the temporaries beyond hold the outcome of a comparison with one. -/
structure Interpretation.Extension {σ : Type u} (I : Interpretation σ) (ids : Ids) (τ : Type v) extends
    Interpretation τ where
  view : τ → σ
  word : Nat → τ → UInt32
  view_perform : ∀ op t, op.HandedOut ids → view (perform op t) = I.perform op (view t)
  holds_view : ∀ o t, o.HandedOut ids → holds o t = I.holds o (view t)
  view_select : ∀ selector bits t, ids.vars ≤ selector → view (perform (.select selector bits) t) = view t
  word_select : ∀ selector bits other t, ids.vars ≤ selector → ids.vars ≤ other →
    word other (perform (.select selector bits) t) = if other = selector then bits else word other t
  view_compare : ∀ taken selector bits t, ids.temps ≤ taken → ids.vars ≤ selector →
    view (perform (.compareSelector taken selector bits) t) = view t
  word_compare : ∀ taken selector bits other t, ids.temps ≤ taken → ids.vars ≤ selector → ids.vars ≤ other →
    word other (perform (.compareSelector taken selector bits) t) = word other t
  holds_compare : ∀ taken selector bits t, ids.temps ≤ taken → ids.vars ≤ selector →
    holds (.temp taken) (perform (.compareSelector taken selector bits) t) = (word selector t == bits)

/-- Every interpretation extends to a state with selectors and comparisons beside it. -/
def Interpretation.beside {σ : Type u} (I : Interpretation σ) (ids : Ids) :
    I.Extension ids (σ × (Nat → UInt32) × (Nat → Bool)) where
  perform op t :=
    match op with
    | ⟨.copy, _, some (.var selector), [.constant bits]⟩ =>
      if ids.vars ≤ selector then (t.1, Function.update t.2.1 selector bits, t.2.2) else (I.perform op t.1, t.2)
    | ⟨.compare .equal .u32, _, some (.temp taken), [.var selector, .constant bits]⟩ =>
      if ids.temps ≤ taken then (t.1, t.2.1, Function.update t.2.2 taken (t.2.1 selector == bits))
      else (I.perform op t.1, t.2)
    | op => (I.perform op t.1, t.2)
  holds o t :=
    match o with
    | .temp taken => if ids.temps ≤ taken then t.2.2 taken else I.holds o t.1
    | o => I.holds o t.1
  view := Prod.fst
  word selector t := t.2.1 selector
  view_perform op t h := by
    split
    · rw [if_neg (not_le.2 (h (.var _) (by simp [operands])))]
    · rw [if_neg (not_le.2 (h (.temp _) (by simp [operands])))]
    · rfl
  holds_view o t h := by
    split
    · rw [if_neg (not_le.2 h)]
    · rfl
  view_select selector bits t h := by simp [select, h]
  word_select selector bits other t h _ := by simp [select, h, Function.update_apply]
  view_compare taken selector bits t h _ := by simp [compareSelector, h]
  word_compare taken selector bits other t h _ _ := by simp [compareSelector, h]
  holds_compare taken selector bits t h _ := by simp [compareSelector, h]

namespace View

section Pass

variable {σ : Type u} (I : Interpretation σ) (v : View)

def target (op : Operation) (s : σ) : Option Nat :=
  match op.inst with
  | .ret => none
  | .branch => v.branch
  | inst =>
    match op.source? 1 with
    | some cond => if I.holds cond s != (inst == .branchIfFalse) then v.branch else v.next
    | none => none

/-- Performs operations up to a terminator, or all of them. -/
def passFrom : List Operation → σ → Option Nat × σ
  | [], s => (v.next, s)
  | op :: rest, s => if op.inst.isTerminator then (v.target I op s, s) else passFrom rest (I.perform op s)

def pass (s : σ) : Option Nat × σ := v.passFrom I v.ops s

end Pass

/-- The block that goes on at `target` when the selector holds `bits`, and else at `next`. -/
def testing (taken selector label : Nat) (bits : UInt32) (next target : Nat) : View :=
  ⟨[.compareSelector taken selector bits,
    ⟨.branchIfTrue, .none, none, [.label label, .temp taken]⟩], some next, some target⟩

/-- The block that stores `bits` in the selector. -/
def landing (selector label : Nat) (bits : UInt32) (dispatch : Nat) : View :=
  ⟨[.select selector bits, ⟨.branch, .none, none, [.label label]⟩], none, some dispatch⟩

theorem pass_testing (I : Interpretation σ) (taken selector label : Nat) (bits : UInt32) (next target : Nat)
    (s : σ) : (testing taken selector label bits next target).pass I s =
      (some (if I.holds (.temp taken) (I.perform (.compareSelector taken selector bits) s) then target else next),
        I.perform (.compareSelector taken selector bits) s) := by
  change (if (I.holds (.temp taken) (I.perform (.compareSelector taken selector bits) s) != false)
    then some target else some next, _) = _
  cases I.holds (.temp taken) (I.perform (.compareSelector taken selector bits) s) <;> rfl

theorem pass_landing (I : Interpretation σ) (selector label : Nat) (bits : UInt32) (dispatch : Nat) (s : σ) :
    (landing selector label bits dispatch).pass I s = (some dispatch, I.perform (.select selector bits) s) := rfl

end View

/-- Of a run through a block, the view of the block decides where it leads, and in
which state. -/
theorem Routine.runFrom_snd (I : Interpretation σ) (r : Routine) (b : Nat) (ids : List OpId) (s : σ) :
    (r.runFrom I b ids s).2 = (r.view b).passFrom I (ids.map r.op) s := by
  induction ids generalizing s with
  | nil => rfl
  | cons id ids ih =>
    rw [runFrom, map_cons, View.passFrom]
    split
    · rfl
    · exact ih _

theorem Routine.runFrom_fst (I : Interpretation σ) (r : Routine) (b : Nat) (ids : List OpId) (s : σ) :
    (r.runFrom I b ids s).1 = ids.takeWhile fun id => !(r.op id).inst.isTerminator := by
  induction ids generalizing s with
  | nil => rfl
  | cons id ids ih =>
    rw [runFrom, takeWhile_cons]
    cases hterm : (r.op id).inst.isTerminator with
    | true => simp
    | false =>
      simp only [Bool.false_eq_true, if_false, Bool.not_false, if_true]
      rw [ih]

namespace Interpretation.Extension

variable {σ : Type u} {τ : Type v} {I : Interpretation σ} {ids : Ids} (E : I.Extension ids τ)
  {vars : Nat} {t t' : τ} {selector : Nat}

/-- The same to see, and the same words in the selectors below `vars`. -/
def Agree (vars : Nat) (t t' : τ) : Prop :=
  E.view t' = E.view t ∧ ∀ selector, ids.vars ≤ selector → selector < vars → E.word selector t' = E.word selector t

variable {E}

theorem Agree.refl (t : τ) : E.Agree vars t t := ⟨rfl, fun _ _ _ => rfl⟩

theorem Agree.trans (h : E.Agree vars t t') (h' : E.Agree vars t' t'') : E.Agree vars t t'' :=
  ⟨h'.1.trans h.1, fun selector hlo hhi => (h'.2 selector hlo hhi).trans (h.2 selector hlo hhi)⟩

theorem Agree.select {bits : UInt32} (h : E.Agree vars t s) (hlo : ids.vars ≤ selector) :
    E.Agree vars (E.perform (.select selector bits) t) (E.perform (.select selector bits) s) := by
  refine ⟨?_, fun other hother hlt => ?_⟩
  · rw [E.view_select _ _ _ hlo, E.view_select _ _ _ hlo, h.1]
  · rw [E.word_select _ _ _ _ hlo hother, E.word_select _ _ _ _ hlo hother, h.2 other hother hlt]

theorem Agree.compare {bits : UInt32} (h : E.Agree vars t s) (htaken : ids.temps ≤ taken)
    (hlo : ids.vars ≤ selector) :
    E.Agree vars (E.perform (.compareSelector taken selector bits) t)
      (E.perform (.compareSelector taken selector bits) s) := by
  refine ⟨?_, fun other hother hlt => ?_⟩
  · rw [E.view_compare _ _ _ _ htaken hlo, E.view_compare _ _ _ _ htaken hlo, h.1]
  · rw [E.word_compare _ _ _ _ _ htaken hlo hother, E.word_compare _ _ _ _ _ htaken hlo hother,
      h.2 other hother hlt]

theorem agree_compare (bits : UInt32) (htaken : ids.temps ≤ taken) (hlo : ids.vars ≤ selector) :
    E.Agree vars t (E.perform (.compareSelector taken selector bits) t) :=
  ⟨E.view_compare _ _ _ _ htaken hlo, fun _ hother _ => E.word_compare _ _ _ _ _ htaken hlo hother⟩

theorem agree_select (bits : UInt32) (hlo : ids.vars ≤ selector) (hvars : vars ≤ selector) :
    E.Agree vars t (E.perform (.select selector bits) t) := by
  refine ⟨E.view_select _ _ _ hlo, fun _ hother _ => ?_⟩
  rw [E.word_select _ _ _ _ hlo hother, if_neg (by omega)]

end Interpretation.Extension

section View

variable {τ : Type v} {I : Interpretation σ} {E : I.Extension ids τ} {v v' : View}

theorem View.target_view (hnext : Option.Rel R v'.next v.next) (hbr : Option.Rel R v'.branch v.branch)
    {op : Operation} (hop : op.HandedOut ids) (t : τ) :
    Option.Rel R (v'.target E.toInterpretation op t) (v.target I op (E.view t)) := by
  unfold target
  split
  · exact .none
  · exact hbr
  · cases hcond : op.source? 1 with
    | none => exact .none
    | some cond =>
      have hmem : cond ∈ op.operands := mem_append_right _ (mem_of_getElem? hcond)
      dsimp only
      rw [E.holds_view cond t (hop cond hmem)]
      split
      · exact hbr
      · exact hnext

/-- What was handed out is performed in the extension as it was, and control takes the
same edge. -/
theorem View.passFrom_view (hnext : Option.Rel R v'.next v.next) (hbr : Option.Rel R v'.branch v.branch)
    (hcode : ∀ op ∈ code, op.HandedOut ids) (t : τ) :
    Option.Rel R (v'.passFrom E.toInterpretation code t).1 (v.passFrom I code (E.view t)).1 ∧
      E.view (v'.passFrom E.toInterpretation code t).2 = (v.passFrom I code (E.view t)).2 := by
  induction code generalizing t with
  | nil => exact ⟨hnext, rfl⟩
  | cons op code ih =>
    have hop := hcode op mem_cons_self
    rw [passFrom, passFrom]
    split
    · exact ⟨target_view hnext hbr hop t, rfl⟩
    · rw [← E.view_perform op t hop]
      exact ih (fun op' hop' => hcode op' (mem_cons_of_mem _ hop')) _

theorem View.edge_of_passFrom (h : (v.passFrom I code s).1 = some c) :
    c ∈ v.next ∨ c ∈ v.branch := by
  induction code generalizing s with
  | nil => exact .inl h
  | cons op code ih =>
    rw [passFrom] at h
    split at h
    · dsimp only [target] at h
      split at h
      · cases h
      · exact .inr h
      · split at h
        · split at h
          · exact .inr h
          · exact .inl h
        · cases h
    · exact ih h

end View

/-- A block that selects where to go on: it tests or sets a selector below `vars` that
`lo` has not handed out. -/
inductive View.Selects (lo : Ids) (vars : Nat) : View → Prop
  | testing {taken selector label next target : Nat} {bits : UInt32} :
      lo.temps ≤ taken → lo.vars ≤ selector → selector < vars →
      Selects lo vars (.testing taken selector label bits next target)
  | landing {selector label dispatch : Nat} {bits : UInt32} :
      lo.vars ≤ selector → selector < vars → Selects lo vars (.landing selector label bits dispatch)

theorem Loop.reroute_eq_moveEdges (l : Loop) (f : Nat → Nat) (b : Nat) (v : View) :
    l.reroute f b v = v.moveEdges (if l.contains b then f else id) := by
  unfold reroute
  split
  · rfl
  · simp [View.moveEdges]

namespace View.Selects

variable {I : Interpretation σ} {v : View}

theorem mono {lo' : Ids} (h : v.Selects lo vars) (htemps : lo'.temps ≤ lo.temps) (hlo : lo'.vars ≤ lo.vars)
    (hvars : vars ≤ vars') : v.Selects lo' vars' := by
  cases h with
  | testing htaken hsel hlt =>
    exact .testing (le_trans htemps htaken) (le_trans hlo hsel) (lt_of_lt_of_le hlt hvars)
  | landing hsel hlt => exact .landing (le_trans hlo hsel) (lt_of_lt_of_le hlt hvars)

theorem moveEdges (h : v.Selects lo vars) (f : Nat → Nat) : (v.moveEdges f).Selects lo vars := by
  cases h with
  | testing htaken hlo hhi => exact .testing htaken hlo hhi
  | landing hlo hhi => exact .landing hlo hhi

theorem pass_moveEdges {E : I.Extension lo τ} {t : τ} (h : v.Selects lo vars) (hagree : E.Agree vars t s)
    (f : Nat → Nat) (hpass : v.pass E.toInterpretation t = (some c, t')) :
    ∃ s', (v.moveEdges f).pass E.toInterpretation s = (some (f c), s') ∧ E.Agree vars t' s' := by
  cases h with
  | @testing taken selector label next target bits htaken hlo hhi =>
    have hsame : E.holds (.temp taken) (E.perform (.compareSelector taken selector bits) s) =
        E.holds (.temp taken) (E.perform (.compareSelector taken selector bits) t) := by
      rw [E.holds_compare _ _ _ _ htaken hlo, E.holds_compare _ _ _ _ htaken hlo, hagree.2 selector hlo hhi]
    rw [pass_testing, Prod.mk.injEq, Option.some.injEq] at hpass
    obtain ⟨rfl, rfl⟩ := hpass
    refine ⟨_, (pass_testing _ _ _ _ _ (f next) (f target) s).trans ?_, hagree.compare htaken hlo⟩
    rw [hsame, apply_ite f]
  | landing hlo hhi =>
    rw [pass_landing, Prod.mk.injEq, Option.some.injEq] at hpass
    obtain ⟨rfl, rfl⟩ := hpass
    exact ⟨_, pass_landing .., hagree.select hlo⟩

end View.Selects

namespace Routine

variable {σ : Type u} {τ : Type v} {I : Interpretation σ} {ids : Ids} {r q : Routine} {l : Loop}

/-- `q.Passes J n a t b t'`: blocks from `n` on lead from block `a` in state `t` to
block `b` in state `t'`. -/
inductive Passes (J : Interpretation τ) (q : Routine) (n : Nat) : Nat → τ → Nat → τ → Prop
  | here (b : Nat) (t : τ) : Passes J q n b t b t
  | through {a b c : Nat} {t t₁ t' : τ} : n ≤ a → (q.view a).pass J t = (some c, t₁) →
      Passes J q n c t₁ b t' → Passes J q n a t b t'

namespace Passes

variable {c : Nat} {t₁ : τ}

theorem trans (h : q.Passes J n a t b t₁) (h' : q.Passes J n b t₁ c t') : q.Passes J n a t c t' := by
  induction h with
  | here => exact h'
  | through ha hpass _ ih => exact .through ha hpass (ih h')

theorem run (h : q.Passes J n a t b t') :
    ∃ m performed, q.run J m (some a, t) = (performed, some b, t') ∧
      ∀ id ∈ performed, ∃ x, n ≤ x ∧ id ∈ q.blockOps x := by
  induction h with
  | here b t => exact ⟨0, [], rfl, by simp⟩
  | @through a b c t t₁ t' ha hpass _ ih =>
    obtain ⟨m, performed, hrun, hadd⟩ := ih
    have hstep : (q.runFrom J a (q.blockOps a) t).2 = (some c, t₁) := (q.runFrom_snd J a _ t).trans hpass
    refine ⟨m + 1, (q.runFrom J a (q.blockOps a) t).1 ++ performed, ?_, fun id hid => ?_⟩
    · rw [run_succ, hstep, hrun]
    · rcases mem_append.1 hid with hid | hid
      · rw [runFrom_fst] at hid
        exact ⟨a, ha, (takeWhile_sublist _).subset hid⟩
      · exact hadd id hid

end Passes

/-- From `a` blocks behind the first `n` lead to `b`, and nothing that was there before
them is changed. -/
def Leads (E : I.Extension ids τ) (q : Routine) (n a b : Nat) : Prop :=
  ∀ t, ∃ t', q.Passes E.toInterpretation n a t b t' ∧ E.view t' = E.view t

/-- `q` is `r` with blocks built on that its edges may lead through. -/
structure Carries (E : I.Extension ids τ) (r q : Routine) : Prop where
  temps_le : ids.temps ≤ q.ids.temps
  vars_le : ids.vars ≤ q.ids.vars
  blocks_le : r.blocks.size ≤ q.blocks.size
  ops_eq : ∀ b < r.blocks.size, (q.view b).ops = (r.view b).ops
  next : ∀ b < r.blocks.size, Option.Rel (q.Leads E r.blocks.size) (q.view b).next (r.view b).next
  branch : ∀ b < r.blocks.size, Option.Rel (q.Leads E r.blocks.size) (q.view b).branch (r.view b).branch
  selects : ∀ b, r.blocks.size ≤ b → b < q.blocks.size → (q.view b).Selects ids q.ids.vars

section Detour

variable {n : Nat} (hloop : q.HasLoop l)
include hloop

theorem built_routeExits :
    (∀ j < l.exits.length - 1, ∃ target taken label, l.exits[j]? = some target ∧ q.ids.temps ≤ taken ∧
      (q.routeExits l).1.view (q.blocks.size + j) =
        .testing taken q.ids.vars label (ofNat j) (q.nextTest l j) target) ∧
    ∀ i < l.exits.length, ∃ label,
      (q.routeExits l).1.view (q.landingBase l + i) = .landing q.ids.vars label (ofNat i) q.blocks.size := by
  obtain ⟨-, htest, hland⟩ := view_routeExits hloop
  refine ⟨fun j hj => ?_, hland⟩
  obtain ⟨target, htgt, taken, label, hview⟩ := htest j hj
  refine ⟨target, taken, label, htgt, Nat.le_of_not_lt fun htaken => ?_, hview⟩
  have hop : compareSelector taken q.ids.vars (ofNat j) ∈
      ((q.routeExits l).1.view (q.blocks.size + j)).ops := by
    rw [hview]
    exact mem_cons_self
  exact ((annex_routeExits hloop.linked l).1.selects_code (views_routeExits hloop).1
    (Nat.le_add_right _ _) hop).2 _ rfl htaken

theorem selects_routeExits (hb : q.blocks.size ≤ b) (hlt : b < (q.routeExits l).1.blocks.size) :
    ((q.routeExits l).1.view b).Selects q.ids (q.routeExits l).1.ids.vars := by
  have hvars := (annex_routeExits hloop.linked l).2
  obtain ⟨htests, hlands⟩ := built_routeExits hloop
  rw [blocks_size_routeExits hloop] at hlt
  obtain ⟨k, rfl⟩ := Nat.exists_eq_add_of_le hb
  by_cases hk : k < l.exits.length - 1
  · obtain ⟨target, taken, label, -, htaken, hview⟩ := htests k hk
    rw [hview]
    exact .testing htaken (le_refl _) hvars
  · obtain ⟨i, rfl⟩ := Nat.exists_eq_add_of_le (Nat.le_of_not_lt hk)
    rw [landingBase] at hlt
    obtain ⟨label, hview⟩ := hlands i (by omega)
    rw [landingBase, add_assoc] at hview
    rw [hview]
    exact .landing (le_refl _) hvars

variable (htemps : ids.temps ≤ q.ids.temps) (hvars : ids.vars ≤ q.ids.vars) (hsmall : l.exits.length ≤ 2 ^ 32)
include htemps hvars hsmall

/-- A test goes to its own exit if the selector holds its number, and else to the next
test. -/
theorem pass_test (E : I.Extension ids τ) (hi : i < l.exits.length) (hj : j < l.exits.length - 1)
    (hword : E.word q.ids.vars t = ofNat i) :
    ∃ target t', l.exits[j]? = some target ∧ E.Agree (q.ids.vars + 1) t t' ∧
      ((q.routeExits l).1.view (q.blocks.size + j)).pass E.toInterpretation t =
        (some (if i = j then target else q.nextTest l j), t') := by
  obtain ⟨target, taken, label, htgt, htaken, hview⟩ := (built_routeExits hloop).1 j hj
  have htaken := le_trans htemps htaken
  have hnum : (ofNat i == ofNat j) = decide (i = j) := by
    rw [Bool.eq_iff_iff, beq_iff_eq, decide_eq_true_eq]
    refine ⟨fun heq => ?_, congrArg _⟩
    have heq := congrArg toNat heq
    rwa [UInt32.toNat_ofNat_of_lt' (lt_of_lt_of_le hi hsmall),
      UInt32.toNat_ofNat_of_lt' (lt_of_lt_of_le (by omega) hsmall)] at heq
  refine ⟨target, _, htgt, E.agree_compare (ofNat j) htaken hvars, ?_⟩
  rw [hview, View.pass_testing, E.holds_compare _ _ _ _ htaken hvars, hword, hnum]
  simp only [decide_eq_true_eq]

variable (hn : n ≤ q.blocks.size)
include hn

/-- From test `j` on, the tests lead to the exit whose number the selector holds. -/
theorem passes_tests (E : I.Extension ids τ) (hexit : l.exits[j + k]? = some exit)
    (hj : j < l.exits.length - 1) (hword : E.word q.ids.vars t = ofNat (j + k)) :
    ∃ t', (q.routeExits l).1.Passes E.toInterpretation n (q.blocks.size + j) t exit t' ∧
      E.Agree (q.ids.vars + 1) t t' := by
  obtain ⟨hi, hget⟩ := List.getElem?_eq_some_iff.1 hexit
  induction k generalizing j t with
  | zero =>
    obtain ⟨target, t', htgt, hagree, hpass⟩ :=
      pass_test hloop htemps hvars hsmall E hi hj hword
    obtain rfl := Option.some.inj (htgt.symm.trans hexit)
    rw [if_pos (add_zero j)] at hpass
    exact ⟨t', .through (le_trans hn (le_add_right _ _)) hpass (.here _ _), hagree⟩
  | succ k ih =>
    obtain ⟨target, t', -, hagree, hpass⟩ :=
      pass_test hloop htemps hvars hsmall E hi hj hword
    rw [if_neg (by omega), nextTest] at hpass
    have hstep := le_trans hn (le_add_right q.blocks.size j)
    by_cases hlast : j + 1 < l.exits.length - 1
    · rw [if_pos hlast] at hpass
      have hword' : E.word q.ids.vars t' = ofNat (j + 1 + k) := by
        rw [hagree.2 _ hvars (lt_succ_self _), hword, add_assoc, add_comm 1]
      obtain ⟨t'', hpasses, hagree'⟩ := ih (j := j + 1) (by rwa [add_assoc, add_comm 1]) hlast hword'
        (by omega) (by simpa [add_assoc, add_comm 1] using hget)
      exact ⟨t'', .through hstep hpass hpasses, hagree.trans hagree'⟩
    · -- The last test leads on to the last exit.
      rw [if_neg hlast] at hpass
      have hend : l.exits.getLastD 0 = exit := by
        have hk : j + (k + 1) = l.exits.length - 1 := by omega
        rw [hk, ← getLast?_eq_getElem?] at hexit
        rw [getLastD_eq_getLast?, hexit]
        rfl
      rw [hend] at hpass
      exact ⟨t', .through hstep hpass (.here _ _), hagree⟩

theorem passes_landOn (E : I.Extension ids τ) (htwo : 1 < l.exits.length) (c : Nat) (t : τ) :
    ∃ t', (q.routeExits l).1.Passes E.toInterpretation n (landOn l.exits (q.landingBase l) c) t c t' ∧
      E.Agree q.ids.vars t t' := by
  unfold landOn
  split
  · next hmem =>
    have hi := idxOf_lt_length_iff.2 hmem
    obtain ⟨label, hview⟩ := (built_routeExits hloop).2 _ hi
    have hpass := View.pass_landing E.toInterpretation q.ids.vars label (ofNat (l.exits.idxOf c)) q.blocks.size t
    rw [← hview] at hpass
    have hword := E.word_select q.ids.vars (ofNat (l.exits.idxOf c)) q.ids.vars t hvars hvars
    rw [if_pos rfl] at hword
    obtain ⟨t', hpasses, hagree⟩ := passes_tests hloop htemps hvars hsmall hn E (j := 0)
      (k := l.exits.idxOf c) (by rw [zero_add]; exact getElem?_idxOf hmem) (by omega)
      (by rw [zero_add]; exact hword)
    have hselected : E.Agree q.ids.vars t _ :=
      E.agree_select (ofNat (l.exits.idxOf c)) hvars (le_refl _)
    refine ⟨t', .through (le_trans hn ?_) hpass hpasses, hselected.trans ⟨hagree.1, fun selector hlo hhi => ?_⟩⟩
    · rw [landingBase]
      omega
    · exact hagree.2 selector hlo (lt_succ_of_lt hhi)
  · exact ⟨t, .here _ _, .refl _⟩

end Detour

theorem view_of_size_le (h : q.WellLinked) (hb : q.blocks.size ≤ b) : q.view b = ⟨[], none, none⟩ := by
  have hblk : q.block b = default := by simp [block, hb]
  rw [view, code, blockOps_of_size_le h hb, hblk]
  rfl

namespace Carries

variable {E : I.Extension ids τ} (C : Carries E r q) (hloop : q.HasLoop l) (htwo : 1 < l.exits.length)
  (hsmall : l.exits.length ≤ 2 ^ 32)
include C hloop htwo hsmall

theorem passes_moved (b c : Nat) (t : τ) :
    ∃ t', (q.routeExits l).1.Passes E.toInterpretation r.blocks.size
      ((if l.contains b then landOn l.exits (q.landingBase l) else id) c) t c t' ∧ E.Agree q.ids.vars t t' := by
  split
  · exact passes_landOn hloop C.temps_le C.vars_le hsmall C.blocks_le E htwo c t
  · exact ⟨t, .here _ _, .refl _⟩

theorem passes_routeExits {a : Nat} (h : q.Passes E.toInterpretation r.blocks.size a t b t')
    (hagree : E.Agree q.ids.vars t s) :
    ∃ s', (q.routeExits l).1.Passes E.toInterpretation r.blocks.size a s b s' ∧ E.Agree q.ids.vars t' s' := by
  induction h generalizing s with
  | here b t => exact ⟨s, .here _ _, hagree⟩
  | @through a b c t t₁ t' ha hpass _ ih =>
    have hlt : a < q.blocks.size := by
      by_contra hsize
      rw [view_of_size_le hloop.linked (Nat.le_of_not_lt hsize)] at hpass
      simp [View.pass, View.passFrom] at hpass
    obtain ⟨s₁, hmoved, hagree₁⟩ := (C.selects a ha hlt).pass_moveEdges hagree
      (if l.contains a then landOn l.exits (q.landingBase l) else id) hpass
    rw [← reroute_eq_moveEdges, ← (view_routeExits hloop).1 a hlt] at hmoved
    obtain ⟨s₂, hpasses, hagree₂⟩ := C.passes_moved hloop htwo hsmall a c s₁
    obtain ⟨s', hrest, hagree'⟩ := ih (hagree₁.trans hagree₂)
    exact ⟨s', .through ha hmoved (hpasses.trans hrest), hagree'⟩

theorem leads_routeExits (b : Nat) (h : q.Leads E r.blocks.size a c) :
    (q.routeExits l).1.Leads E r.blocks.size
      ((if l.contains b then landOn l.exits (q.landingBase l) else id) a) c := by
  intro t
  obtain ⟨t₁, hpasses, hagree⟩ := C.passes_moved hloop htwo hsmall b a t
  obtain ⟨t₂, hold, hview⟩ := h t₁
  obtain ⟨t', hrest, hagree'⟩ := C.passes_routeExits hloop htwo hsmall hold (.refl t₁)
  exact ⟨t', hpasses.trans hrest, by rw [hagree'.1, hview, hagree.1]⟩

theorem routeExits : Carries E r (q.routeExits l).1 := by
  obtain ⟨hannex, hvars⟩ := annex_routeExits hloop.linked l
  have hold := fun b hb => (view_routeExits hloop).1 b (lt_of_lt_of_le hb C.blocks_le)
  have hedge : ∀ b {e e₀ : Option Nat}, Option.Rel (q.Leads E r.blocks.size) e e₀ →
      Option.Rel ((q.routeExits l).1.Leads E r.blocks.size)
        (e.map (if l.contains b then landOn l.exits (q.landingBase l) else id)) e₀ := by
    intro b e e₀ hrel
    cases hrel with
    | none => exact .none
    | some hleads => exact .some (C.leads_routeExits hloop htwo hsmall b hleads)
  refine
    { temps_le := le_trans C.temps_le hannex.temps_le
      vars_le := le_trans C.vars_le hannex.vars_le
      blocks_le := le_trans C.blocks_le hannex.blocks_le
      ops_eq := fun b hb => ?_
      next := fun b hb => ?_
      branch := fun b hb => ?_
      selects := fun b hb hlt => ?_ }
  · rw [hold b hb, reroute_eq_moveEdges]
    exact C.ops_eq b hb
  · rw [hold b hb, reroute_eq_moveEdges]
    exact hedge b (C.next b hb)
  · rw [hold b hb, reroute_eq_moveEdges]
    exact hedge b (C.branch b hb)
  · by_cases hb' : b < q.blocks.size
    · rw [(view_routeExits hloop).1 b hb', reroute_eq_moveEdges]
      exact ((C.selects b hb hb').moveEdges _).mono (le_refl _) (le_refl _) hannex.vars_le
    · exact (selects_routeExits hloop (Nat.le_of_not_lt hb') hlt).mono
        C.temps_le C.vars_le (le_refl _)

omit C hloop htwo hsmall in
theorem refl (E : I.Extension r.ids τ) : Carries E r r := by
  have hedge : ∀ e : Option Nat, Option.Rel (r.Leads E r.blocks.size) e e := by
    intro e
    cases e with
    | none => exact .none
    | some c => exact .some fun t => ⟨t, .here c t, rfl⟩
  exact
    { temps_le := le_refl _
      vars_le := le_refl _
      blocks_le := le_refl _
      ops_eq := fun _ _ => rfl
      next := fun _ _ => hedge _
      branch := fun _ _ => hedge _
      selects := fun _ hb hlt => absurd hlt (not_lt.2 hb) }

end Carries

theorem Carries.pass {E : I.Extension ids τ} (C : Carries E r q) (hb : b < r.blocks.size)
    (hops : ∀ op ∈ r.code b, op.HandedOut ids) (t : τ) :
    Option.Rel (q.Leads E r.blocks.size) ((q.view b).pass E.toInterpretation t).1 ((r.view b).pass I (E.view t)).1 ∧
      E.view ((q.view b).pass E.toInterpretation t).2 = ((r.view b).pass I (E.view t)).2 := by
  unfold View.pass
  rw [C.ops_eq b hb]
  exact View.passFrom_view (C.next b hb) (C.branch b hb) hops t

theorem Annex.runFrom_fst (h : Annex lo r q) (hlink : r.WellLinked)
    (hb : b < r.blocks.size) (s : σ) (t : τ) :
    (q.runFrom J b (q.blockOps b) t).1 = (r.runFrom I b (r.blockOps b) s).1 ∧
      (q.runFrom J b (q.blockOps b) t).1.filter (· < r.nodes.size) = (q.runFrom J b (q.blockOps b) t).1 := by
  rw [Routine.runFrom_fst, Routine.runFrom_fst, h.blockOps_eq b hb]
  have hlt := hlink.lt b
  constructor
  · generalize r.blockOps b = performed at hlt
    induction performed with
    | nil => rfl
    | cons id performed ih =>
      rw [takeWhile_cons, takeWhile_cons, h.op_eq id (hlt id mem_cons_self),
        ih fun x hx => hlt x (mem_cons_of_mem _ hx)]
  · rw [filter_eq_self]
    intro id hid
    exact decide_eq_true (hlt id ((takeWhile_sublist _).subset hid))

/-- However many blocks the routine runs, the other runs at least as many, performs the
same of its operations, and comes to the same place. -/
theorem Carries.run {E : I.Extension ids τ} (C : Carries E r q) (hannex : Annex lo r q)
    (hlink : r.WellLinked) (hins : r.Inside) (hops : ∀ b, ∀ op ∈ r.code b, op.HandedOut ids) (k : Nat)
    (hplc : ∀ b ∈ place, b < r.blocks.size) (t : τ) :
    ∃ m ≥ k, (q.run E.toInterpretation m (place, t)).1.filter (· < r.nodes.size) = (r.run I k (place, E.view t)).1 ∧
      (q.run E.toInterpretation m (place, t)).2.map id E.view = (r.run I k (place, E.view t)).2 := by
  induction k generalizing place t with
  | zero => exact ⟨0, le_refl _, rfl, rfl⟩
  | succ k ih =>
    cases place with
    | none => exact ⟨k + 1, le_refl _, by simp, by simp⟩
    | some b =>
      have hb := hplc b rfl
      obtain ⟨hplaces, hview⟩ := C.pass hb (hops b) t
      obtain ⟨hsame, hkept⟩ := hannex.runFrom_fst (I := I) (J := E.toInterpretation) hlink hb (E.view t) t
      have hstep : (r.runFrom I b (r.blockOps b) (E.view t)).2 = (r.view b).pass I (E.view t) := r.runFrom_snd ..
      have hstep' : (q.runFrom E.toInterpretation b (q.blockOps b) t).2 = (q.view b).pass E.toInterpretation t :=
        q.runFrom_snd ..
      have hedge : ∀ c, ((r.view b).pass I (E.view t)).1 = some c → c < r.blocks.size := fun c hc =>
        hins _ (mem_views.2 ⟨b, hb, rfl⟩) c (View.edge_of_passFrom hc)
      generalize (q.view b).pass E.toInterpretation t = passed at hplaces hview hstep'
      generalize (r.view b).pass I (E.view t) = expected at hplaces hview hstep hedge
      obtain ⟨place', t₁⟩ := passed
      obtain ⟨place, s₁⟩ := expected
      obtain rfl : E.view t₁ = s₁ := hview
      cases hplaces with
      | none =>
        refine ⟨k + 1, le_refl _, ?_, ?_⟩
        · rw [run_succ, run_succ, hstep, hstep', run_none, run_none, append_nil, append_nil, hkept, hsame]
        · rw [run_succ, run_succ, hstep, hstep', run_none, run_none]
          rfl
      | @some a c hleads =>
        obtain ⟨t₂, hpasses, hview₂⟩ := hleads t₁
        obtain ⟨m₁, between, hrun, hadd⟩ := hpasses.run
        have hc : ∀ x ∈ some c, x < r.blocks.size := fun x hx => hedge x hx
        obtain ⟨m₂, hm₂, hids, hend⟩ := ih hc t₂
        have hbtw : between.filter (· < r.nodes.size) = [] := by
          rw [filter_eq_nil_iff]
          intro id hid hlt
          obtain ⟨x, hx, hmem⟩ := hadd id hid
          exact absurd (of_decide_eq_true hlt) (not_lt.2 (hannex.le_id x hx id hmem))
        refine ⟨m₁ + m₂ + 1, by omega, ?_, ?_⟩
        · rw [run_succ, run_succ, hstep, hstep', stepwise.chain hrun, filter_append, filter_append, hkept, hsame,
            hbtw, nil_append, hids, hview₂]
        · rw [run_succ, run_succ, hstep, hstep', stepwise.chain hrun, hend, hview₂]

/-- What every round keeps. Numbers of exits are told apart as long as the ids of
operations fit in a word. -/
structure Kept (exit : Nat) (r q : Routine) (landings : List Landing) : Prop where
  linked : q.WellLinked
  inside : q.Inside
  routable : Digraph.Routable r.blocks.size exit q.graph landings
  annex : Annex r.ids r q
  carries : q.nodes.size ≤ 2 ^ 32 →
    ∀ {σ : Type u} {τ : Type v} {I : Interpretation σ} (E : I.Extension r.ids τ), Carries E r q

theorem Kept.routeExits {exit : Nat} (h : Kept.{u, v} exit r q landings)
    (hloops : q.graph.loops exit landings = .ok loops)
    (hsmall : smallest? (loops.filter fun l => decide (1 < l.exits.length)) = some l) :
    Kept.{u, v} exit r (q.routeExits l).1 (landings ++ (q.routeExits l).2) := by
  obtain ⟨hl, htwo⟩ := mem_filter.1 (smallest?_spec hsmall).1
  have hloop := h.linked.hasLoop hloops hl
  have hannex := (annex_routeExits h.linked l).1
  refine
    { linked := (views_routeExits hloop).1
      inside := h.inside.routeExits hloop
      routable := (routable_routeExits h.routable h.linked h.inside hloops hsmall).2.1
      annex := h.annex.trans (hannex.mono h.annex.temps_le h.annex.vars_le)
      carries := fun _ _ _ _ E => ?_ }
  -- Each exit gets a landing, and each landing holds an operation.
  have hnodes := hannex.nodes_le
  have hsize := blocks_size_routeExits hloop
  rw [landingBase] at hsize
  exact (h.carries (by omega) E).routeExits hloop (by simpa using htwo) (by omega)

/-- Reducible flow is routed within the rounds there are. Afterwards every loop has at
most one exit, and the graph is reducible and can be reached in full. Operations that
were there keep their ids; those that are new decide where to go on, and write only
variables and temporaries that have not been handed out before. Under every
interpretation, and every extension of it to these, the routine and the routed one
perform the same of the old operations, come to the same places in the same states,
and stop together. The ids of operations are words, so that there are no more of them. -/
theorem singleExitLoops_keeps {ops : List Operation} {exit : Nat} (hr : ofOperations ops ids = .ok r)
    (hids : ∀ op ∈ ops, op.HandedOut ids) (hred : r.graph.Reducible) (hexit : exit < r.blocks.size) :
    ∃ r' loops, singleExitLoops exit (r.blocks.size + 1) r [] = .ok (r', loops) ∧
      (∀ l ∈ loops, l.exits.length ≤ 1) ∧ r'.graph.Reducible ∧ (∀ b < r'.blocks.size, r'.graph.Reachable b) ∧
      (∀ id < r.nodes.size, r'.op id = r.op id) ∧
      (∀ b, ∀ id ∈ r'.blockOps b, r.nodes.size ≤ id → (r'.op id).Selects ids) ∧
      (r'.nodes.size ≤ 2 ^ 32 → ∀ {σ : Type u} {τ : Type v} (I : Interpretation σ) (E : I.Extension ids τ) (t : τ),
        (∀ n, ∃ m ≥ n, (r'.run E.toInterpretation m (some 0, t)).1.filter (· < r.nodes.size) =
            (r.run I n (some 0, E.view t)).1 ∧
          (r'.run E.toInterpretation m (some 0, t)).2.map id E.view = (r.run I n (some 0, E.view t)).2) ∧
        ((∃ n, (r'.run E.toInterpretation n (some 0, t)).2.1 = none) ↔
          ∃ n, (r.run I n (some 0, E.view t)).2.1 = none)) := by
  obtain rfl := ids_ofOperations hr
  have hlinked := WellLinked.ofOperations hr
  have hinside := (Closed.ofOperations hr).inside
  obtain ⟨r', loops, hroute⟩ := routed_ofOperations hr hexit hred
  obtain ⟨landings, hkept, hsingle⟩ := singleExitLoops_rounds (P := Kept.{u, v} exit r)
    (fun q landings found l hq hloops hsmall => hq.routeExits hloops hsmall)
    { linked := hlinked
      inside := hinside
      routable := routable hexit (fun _ => reachable_ofOperations hr) hred
      annex := .refl hlinked
      carries := fun _ _ _ _ E => .refl E } hroute
  refine ⟨r', loops, hroute, hsingle, hkept.routable.reducible,
    fun b hb => hkept.routable.reach b (by rwa [size_graph]),
    hkept.annex.op_eq, fun b id hid hnew => hkept.annex.selects id hnew (hkept.linked.lt b id hid), ?_⟩
  intro hfits σ τ I E t
  have hentry : ∀ b ∈ some 0, b < r.blocks.size := by simpa using blocks_pos_ofOperations hr
  have hrun := fun n => (hkept.carries hfits E).run hkept.annex hlinked hinside
    (fun b op hop => hids op (mem_code_ofOperations hr hop)) n hentry t
  refine ⟨hrun, ?_, ?_⟩
  · rintro ⟨n, hn⟩
    obtain ⟨m, hm, -, hend⟩ := hrun n
    have hstopped := stepwise.of_stopped (show r'.run E.toInterpretation n (some 0, t) = (_, none, _) from
      Prod.ext rfl (Prod.ext hn rfl)) hm
    rw [hstopped] at hend
    exact ⟨n, by rw [← hend]; rfl⟩
  · rintro ⟨n, hn⟩
    obtain ⟨m, -, -, hend⟩ := hrun n
    refine ⟨m, ?_⟩
    rw [← hend] at hn
    exact hn

theorem singleExitLoops_keeps_leftTwice : ∃ r r' loops, ofOperations leftTwice ⟨5, 2, 0⟩ = .ok r ∧
    r.graph.Reducible ∧ singleExitLoops r.exitBlock (r.blocks.size + 1) r [] = .ok (r', loops) ∧
    r.blocks.size < r'.blocks.size ∧
    ∀ n, ∃ m ≥ n,
      (r'.run (Interpretation.beside ⟨fun _ n => n / 2, fun _ n => n % 3 == 0⟩ ⟨5, 2, 0⟩).toInterpretation m
        (some 0, 1000, fun _ => 0, fun _ => false)).1.filter (· < r.nodes.size) =
      (r.run ⟨fun _ n => n / 2, fun _ n => n % 3 == 0⟩ n (some 0, 1000)).1 := by
  have hok : (ofOperations leftTwice ⟨5, 2, 0⟩).toOption.any (fun r => r.graph.climbs &&
      decide (r.exitBlock < r.blocks.size) &&
      (singleExitLoops r.exitBlock (r.blocks.size + 1) r []).toOption.any fun routed =>
        decide (r.blocks.size < routed.1.blocks.size ∧ routed.1.nodes.size ≤ 2 ^ 32)) = true := by cbv
  cases hr : ofOperations leftTwice ⟨5, 2, 0⟩ with
  | error e => simp [hr, Except.toOption] at hok
  | ok r =>
    simp only [hr, Except.toOption, Option.any_some, Bool.and_eq_true, decide_eq_true_eq] at hok
    have hred := Digraph.reducible_of_climbs
      (fun b hb => reachable_ofOperations hr (by rwa [size_graph] at hb)) hok.1.1
    have hids : ∀ op ∈ leftTwice, op.HandedOut ⟨5, 2, 0⟩ := by decide
    obtain ⟨r', loops, hroute, -, -, -, -, -, hrun⟩ := singleExitLoops_keeps hr hids hred hok.1.2
    simp only [hroute, Option.any_some, decide_eq_true_eq] at hok
    refine ⟨r, r', loops, rfl, hred, hroute, hok.2.1, fun n => ?_⟩
    obtain ⟨m, hm, hperformed, -⟩ := (hrun hok.2.2 ⟨fun _ n => n / 2, fun _ n => n % 3 == 0⟩
      (Interpretation.beside _ _) (1000, fun _ => 0, fun _ => false)).1 n
    exact ⟨m, hm, hperformed⟩

end Routine
end ShaderRecompiler
