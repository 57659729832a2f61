import ShaderRecompiler.Proofs.Expansion

/-! The passes as rewriting of code. What all the enabled passes make of the code of a
block is put together from what they make of its operations one by one, so every
operation has a piece of the final code that stands in its place. -/
namespace ShaderRecompiler

open List

namespace Expansion.Expands

variable {expand : Expansion}

theorem of_append (h : expand.Expands floor old new) (hold : old = xs ++ ys) :
    ∃ new₁ new₂, new = new₁ ++ new₂ ∧ expand.Expands floor xs new₁ ∧ expand.Expands floor ys new₂ := by
  induction h generalizing ys with
  | nil =>
    obtain ⟨rfl, rfl⟩ := nil_eq_append_iff.1 hold
    exact ⟨[], [], rfl, .nil, .nil⟩
  | @snoc old new op ids hids h ih =>
    obtain rfl | ⟨ys, last, rfl⟩ := eq_nil_or_concat ys
    · rw [append_nil] at hold
      exact ⟨_, [], (append_nil _).symm, hold ▸ h.snoc ids hids, .nil⟩
    · rw [concat_eq_append, ← append_assoc] at hold
      obtain ⟨rfl, hlast⟩ := append_inj' hold rfl
      obtain rfl := singleton_inj.1 hlast
      obtain ⟨new₁, new₂, rfl, hxs, hys⟩ := ih rfl
      refine ⟨new₁, new₂ ++ expand.piece ids op, append_assoc .., hxs, ?_⟩
      rw [concat_eq_append]
      exact hys.snoc ids hids

theorem of_nil (h : expand.Expands floor [] new) : new = [] := by
  generalize hold : [] = old at h
  cases h with
  | nil => rfl
  | snoc => simp at hold

theorem of_singleton (h : expand.Expands floor [op] new) : ∃ ids, floor ≤ ids.temps ∧ new = expand.piece ids op := by
  generalize hold : [op] = old at h
  cases h with
  | nil => cases hold
  | @snoc old new op' ids hids h =>
    have hold : [] ++ [op] = old ++ [op'] := hold
    obtain ⟨rfl, hop⟩ := append_inj' hold rfl
    obtain rfl := singleton_inj.1 hop
    rw [h.of_nil]
    exact ⟨ids, hids, rfl⟩

theorem exists_piece (h : expand.Expands floor old new) (hop : op ∈ old) :
    ∃ ids, floor ≤ ids.temps ∧ expand.piece ids op ⊆ new := by
  induction h with
  | nil => cases hop
  | @snoc old new op' ids hids _ ih =>
    obtain hold | hlast := mem_append.1 hop
    · obtain ⟨ids', hids', hpiece⟩ := ih hold
      exact ⟨ids', hids', fun _ ho => mem_append_left _ (hpiece ho)⟩
    · obtain rfl := mem_singleton.1 hlast
      exact ⟨ids, hids, fun _ ho => mem_append_right _ ho⟩

end Expansion.Expands

namespace Pass

/-- Code after some passes, of which the temporaries below `floor` are not theirs. -/
def Turns (x : PassContext) (floor : Nat) : List Pass → List Operation → List Operation → Prop
  | [], old, new => new = old
  | pass :: passes, old, new =>
    ∃ between, (pass.expansion x).Expands floor old between ∧ Turns x floor passes between new

/-- Something that one of the passes reports about an operation it finds. -/
def Reports (x : PassContext) (floor : Nat) (report : Unresolved) : List Pass → List Operation → Prop
  | [], _ => False
  | pass :: passes, old =>
    (∃ op ∈ old, ∃ ids, ((pass.expansion x op).run { ids }).1.unresolved = some report) ∨
      ∃ between, (pass.expansion x).Expands floor old between ∧ Reports x floor report passes between

theorem Turns.nil (x : PassContext) (floor : Nat) (passes : List Pass) (h : Turns x floor passes [] new) :
    new = [] := by
  induction passes with
  | nil => exact h
  | cons pass passes ih =>
    obtain ⟨between, hexps, hturns⟩ := h
    obtain rfl := hexps.of_nil
    exact ih hturns

theorem Turns.of_append (h : Turns x floor passes (xs ++ ys) new) :
    ∃ new₁ new₂, new = new₁ ++ new₂ ∧ Turns x floor passes xs new₁ ∧ Turns x floor passes ys new₂ := by
  induction passes generalizing xs ys with
  | nil => exact ⟨xs, ys, h, rfl, rfl⟩
  | cons pass passes ih =>
    obtain ⟨between, hexps, hturns⟩ := h
    obtain ⟨before, after, rfl, hbef, hafter⟩ := hexps.of_append rfl
    obtain ⟨new₁, new₂, rfl, h₁, h₂⟩ := ih hturns
    exact ⟨new₁, new₂, rfl, ⟨before, hbef, h₁⟩, ⟨after, hafter, h₂⟩⟩

/-- Operations, each with what passes put in its place. -/
structure Parts (x : PassContext) (floor : Nat) (passes : List Pass) (old new : List Operation)
    (parts : List (Operation × List Operation)) : Prop where
  old_eq : parts.map Prod.fst = old
  new_eq : parts.flatMap Prod.snd = new
  turns : ∀ p ∈ parts, Turns x floor passes [p.1] p.2

theorem Turns.exists_parts (h : Turns x floor passes old new) : ∃ parts, Parts x floor passes old new parts := by
  induction old generalizing new with
  | nil => exact ⟨[], rfl, (Turns.nil x floor passes h).symm, by simp⟩
  | cons op old ih =>
    have h : Turns x floor passes ([op] ++ old) new := h
    obtain ⟨piece, rest, rfl, hpiece, hrest⟩ := h.of_append
    obtain ⟨parts, hparts⟩ := ih hrest
    refine ⟨(op, piece) :: parts, congrArg (op :: ·) hparts.old_eq, congrArg (piece ++ ·) hparts.new_eq, ?_⟩
    exact forall_mem_cons.2 ⟨hpiece, hparts.turns⟩

theorem Parts.filter_eq (h : Parts x floor passes old new parts)
    (hparts : ∀ p ∈ parts, p.2.filter P = [p.1].filter Q) : new.filter P = old.filter Q := by
  rw [← h.old_eq, ← h.new_eq]
  clear h
  induction parts with
  | nil => rfl
  | cons p parts ih =>
    obtain ⟨hp, hparts⟩ := forall_mem_cons.1 hparts
    rw [flatMap_cons, map_cons, filter_append, hp, ih hparts, ← filter_append]
    rfl

def enabled (guestStage : Stage) (features : Features) : List Pass := all.filter (isEnabled guestStage features)

end Pass

namespace Passed

/-- The passes in a list, run one after the other on code that has the temporaries
below `floor`. -/
theorem foldl_spec (passes : List Pass) (state : Passed)
    (hresp : ∀ pass ∈ passes.filter (Pass.isEnabled x.config.guestStage state.features),
      (pass.expansion x).Respects floor)
    (hlink : state.routine.WellLinked) (hfloor : floor ≤ state.routine.ids.temps) :
    state.routine.SameFlow (passes.foldl (run x) state).routine ∧
      (∀ b, Pass.Turns x floor (passes.filter (Pass.isEnabled x.config.guestStage state.features))
        (state.routine.code b) ((passes.foldl (run x) state).routine.code b)) ∧
      ∀ report ∈ (passes.foldl (run x) state).unresolved, report ∈ state.unresolved ∨
        ∃ b, Pass.Reports x floor report (passes.filter (Pass.isEnabled x.config.guestStage state.features))
          (state.routine.code b) := by
  induction passes generalizing state with
  | nil => exact ⟨.refl _, fun _ => rfl, fun _ h => .inl h⟩
  | cons pass passes ih =>
    rw [foldl_cons]
    by_cases henabled : pass.isEnabled x.config.guestStage state.features
    · -- Draw parameters are no feature that passes ask for.
      have hsame : Pass.isEnabled x.config.guestStage (state.run x pass).features =
          Pass.isEnabled x.config.guestStage state.features := by
        funext pass'
        rw [run_of_enabled henabled]
        cases pass' <;> simp [Pass.isEnabled, Features.union]
      rw [filter_cons_of_pos henabled] at hresp ⊢
      obtain ⟨hpass, hresp⟩ := forall_mem_cons.1 hresp
      obtain ⟨hlink', hfloor', hflow, hcode, hreps⟩ := Routine.expand_spec hlink hfloor hpass
      have hrun : (state.run x pass).routine = (state.routine.expand (pass.expansion x)).2 ∧
          (state.run x pass).unresolved =
            state.unresolved ++ (state.routine.expand (pass.expansion x)).1.unresolved := by
        rw [run_of_enabled henabled]
        exact ⟨rfl, rfl⟩
      rw [← hrun.1] at hlink' hfloor' hflow hcode
      rw [← hsame] at hresp ⊢
      obtain ⟨hflow', hcode', hreps'⟩ := ih _ hresp hlink' hfloor'
      refine ⟨hflow.trans hflow', fun b => ⟨_, hcode b, hcode' b⟩, fun report hrep => ?_⟩
      obtain hold | ⟨b, hlater⟩ := hreps' report hrep
      · rw [hrun.2, mem_append] at hold
        refine hold.imp_right fun hnew => ?_
        obtain ⟨b, hrep⟩ := hreps report hnew
        exact ⟨b, .inl hrep⟩
      · exact .inr ⟨b, .inr ⟨_, hcode b, hlater⟩⟩
    · rw [filter_cons_of_neg henabled] at hresp ⊢
      rw [run_of_disabled henabled]
      exact ih state hresp hlink hfloor

end Passed

namespace Routine

variable {r : Routine} {ids : Ids}

theorem runPasses_spec (hresp : ∀ pass ∈ Pass.enabled x.config.guestStage features, (pass.expansion x).Respects floor)
    (hlink : r.WellLinked) (hfloor : floor ≤ r.ids.temps) : r.SameFlow (r.runPasses x features).routine ∧
      (∀ b, Pass.Turns x floor (Pass.enabled x.config.guestStage features) (r.code b)
        ((r.runPasses x features).routine.code b)) ∧
      ∀ report ∈ (r.runPasses x features).unresolved,
        ∃ b, Pass.Reports x floor report (Pass.enabled x.config.guestStage features) (r.code b) := by
  obtain ⟨hflow, hcode, hreps⟩ :=
    Passed.foldl_spec Pass.all { routine := r, features } hresp hlink hfloor
  exact ⟨hflow, hcode, fun report h => (hreps report h).resolve_left (by simp)⟩

theorem ids_ofOperations (h : ofOperations ops ids = .ok r) : r.ids = ids := by
  obtain ⟨-, -, edges, -, -, rfl⟩ := ofOperations_eq h
  have hfill : ∀ (views : List View) (r : Routine), (r.fill views).ids = r.ids := by
    intro views
    induction views with
    | nil => exact fun _ => rfl
    | cons view views ih => exact fun r => (ih _).trans (r.ids_addFilledBlock ..)
  exact hfill _ _

end Routine
end ShaderRecompiler
