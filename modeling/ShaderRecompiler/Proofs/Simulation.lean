import ShaderRecompiler.Proofs.Execution
import ShaderRecompiler.Proofs.Routing
import ShaderRecompiler.Proofs.Writing

/-! Written statements do what the graph does. Whatever a body does in one run
is done by a number of blocks run along the graph, which then stands where the
body's outcome says; a loop that is cut off has run at least one block in each of
its passes. Nothing is asked of joins and loops here: wherever the writer stops
or jumps, it stops at the right block. -/
namespace ShaderRecompiler

open List

open Stmt (exec execAll execAll_append execAll_ops)

universe u

variable {s : Layout} {b k : Nat} {stop : Option Nat} {r : Routine}

variable {σ : Type u} {I : Interpretation σ}

/-- Where control goes when a block is left in state `s`. -/
def Leave.place (I : Interpretation σ) (block : Block) (s : σ) : Leave → Option Nat
  | goto target => target
  | ret => none
  | test cond invert => if I.holds cond s != invert then block.branch else block.next

namespace Layout

variable {leave : Leave}

/-- The ids of the operations of a block that are statements. -/
def plainIds (s : Layout) (b : Nat) : List OpId :=
  (s.routine.blockOps b).filter fun id => !(s.routine.op id).inst.isTerminator

theorem plainOps_eq (s : Layout) (b : Nat) : s.plainOps b = (s.plainIds b).map Stmt.op := rfl

theorem mem_of_terminator? (h : s.terminator? b = some op) : op ∈ s.routine.code b ∧ op.inst.isTerminator := by
  unfold terminator? at h
  rw [findRev?_eq_find?_reverse] at h
  have hterm := find?_some h
  exact ⟨mem_reverse.1 (mem_of_find?_eq_some h), hterm⟩

theorem block_cases (hpln : ∀ op ∈ (s.routine.code b).dropLast, op.inst.isTerminator = false) :
    (s.routine.blockOps b = s.plainIds b ∧ s.terminator? b = none ∧
      ∀ op ∈ (s.routine.code b).getLast?, op.inst.isTerminator = false) ∨
    ∃ id, s.routine.blockOps b = s.plainIds b ++ [id] ∧ s.terminator? b = some (s.routine.op id) ∧
      (s.routine.code b).getLast? = some (s.routine.op id) ∧
      (s.routine.op id).inst.isTerminator := by
  unfold Routine.code at hpln ⊢
  unfold plainIds terminator?
  generalize s.routine.blockOps b = ids at hpln ⊢
  obtain rfl | ⟨init, id, rfl⟩ := eq_nil_or_concat ids
  · exact .inl (by simp)
  · rw [concat_eq_append, map_append, map_singleton, dropLast_concat] at hpln
    have hinit : ∀ x ∈ init, (s.routine.op x).inst.isTerminator = false := fun x hx =>
      hpln _ (mem_map_of_mem hx)
    have hfilter : (init.filter fun x => !(s.routine.op x).inst.isTerminator) = init :=
      filter_eq_self.2 fun x hx => by simp [hinit x hx]
    cases hid : (s.routine.op id).inst.isTerminator with
    | false =>
      refine .inl ?_
      simpa [findRev?_eq_find?_reverse, hfilter, hid] using hinit
    | true => exact .inr ⟨id, by simp [findRev?_eq_find?_reverse, hfilter, hid]⟩

theorem run_one_leave (hpln : ∀ op ∈ (s.routine.code b).dropLast, op.inst.isTerminator = false)
    (hlv : s.leave b = .ok leave) (st : σ) :
    s.routine.run I 1 (some b, st) = (s.plainIds b,
        leave.place I (s.routine.block b) (s.routine.performAll I (s.plainIds b) st),
        s.routine.performAll I (s.plainIds b) st) := by
  have hids : ∀ id ∈ s.plainIds b, (s.routine.op id).inst.isTerminator = false := by
    intro id hid
    simpa using (mem_filter.1 hid).2
  rw [Routine.run_one]
  unfold Layout.leave at hlv
  obtain ⟨hops, hterm, -⟩ | ⟨id, hops, hterm, -, hid⟩ := block_cases hpln
  · simp only [hterm, Except.ok.injEq] at hlv
    rw [hops]
    have happend : s.routine.runFrom I b (s.plainIds b ++ []) st = _ := Routine.runFrom_append hids st
    rw [append_nil] at happend
    rw [happend, ← hlv]
    simp [Routine.runFrom, Leave.place]
  · simp only [hterm] at hlv
    rw [hops, Routine.runFrom_append hids, Routine.runFrom, if_pos hid, append_nil]
    generalize s.routine.performAll I (s.plainIds b) st = st'
    unfold Routine.target
    split at hlv
    · next hret =>
      obtain rfl := Except.ok.inj hlv
      simp [hret, Leave.place]
    · next hbr =>
      obtain rfl := Except.ok.inj hlv
      simp [hbr, Leave.place]
    · next inst hret hbr =>
      split at hlv
      · next cond hcond =>
        obtain rfl := Except.ok.inj hlv
        simp only [hcond]
        rfl
      · cases hlv

/-- A block that does not return leads to a block. -/
theorem leave_leads (hclosed : s.routine.Closed) (honw : s.routine.Onward)
    (hb : b < s.routine.blocks.size) (hlv : s.leave b = .ok leave) (hret : leave ≠ .ret) (st : σ) :
    ∃ t < s.routine.blocks.size, leave.place I (s.routine.block b) st = some t := by
  have hview : s.routine.view b ∈ s.routine.views := Routine.mem_views.2 ⟨b, hb, rfl⟩
  have hc := hclosed _ hview
  have ho := honw _ hview
  have hsome : ∀ {e : Option Nat}, (∀ n ∈ e, n < s.routine.blocks.size) → e.isSome →
      ∃ t < s.routine.blocks.size, e = some t := by
    intro e hlt he
    obtain ⟨t, ht⟩ := Option.isSome_iff_exists.1 he
    exact ⟨t, hlt t ht, ht⟩
  unfold Layout.leave at hlv
  obtain ⟨-, hterm, hlast⟩ | ⟨id, -, hterm, hlast, hid⟩ := block_cases hc.plain
  · simp only [hterm, Except.ok.injEq] at hlv
    subst hlv
    refine hsome hc.next_lt (ho fun op hop => ?_)
    have := hlast op hop
    revert this
    cases op.inst <;> simp [Instruction.isTerminator, Instruction.isJump]
  · have hbr : (s.routine.op id).inst ≠ .ret → ∃ t < s.routine.blocks.size,
        (s.routine.block b).branch = some t := fun h =>
      hsome hc.branch_lt (hc.branch_isSome _ hlast hid h)
    simp only [hterm] at hlv
    split at hlv
    · obtain rfl := Except.ok.inj hlv
      exact absurd rfl hret
    · next hinst =>
      obtain rfl := Except.ok.inj hlv
      exact hbr (by simp [hinst])
    · next hnret hnbranch =>
      split at hlv
      · obtain rfl := Except.ok.inj hlv
        simp only [Leave.place]
        split
        · exact hbr hnret
        · refine hsome hc.next_lt (ho fun op hop => ?_)
          obtain rfl : s.routine.op id = op := Option.some.inj (hlast.symm.trans hop)
          revert hnret hnbranch
          cases (s.routine.op id).inst <;> simp [Instruction.isJump]
      · cases hlv

end Layout

/-- The place at which a graph run of `k` blocks stands after a body has the
given outcome. -/
inductive Lands (stop : Option Nat) (loops : List Loop) (fuel k : Nat) :
    Outcome σ → Option Nat × σ → Prop
  | fell {b : Nat} {st : σ} : stop = some b → Lands stop loops fuel k (.fell st) (some b, st)
  | broke {l : Loop} {outer : List Loop} {b : Nat} {st : σ} :
      loops = l :: outer → l.exit? = some b → Lands stop loops fuel k (.broke st) (some b, st)
  | continued {l : Loop} {outer : List Loop} {st : σ} :
      loops = l :: outer → Lands stop loops fuel k (.continued st) (some l.header, st)
  | returned {st : σ} : Lands stop loops fuel k (.returned st) (none, st)
  | exhausted {b : Nat} {st : σ} : fuel ≤ k → Lands stop loops fuel k .exhausted (some b, st)

/-- A graph run from `place` performs what `result` performed and lands where its
outcome says. -/
def Simulates (I : Interpretation σ) (r : Routine) (stop : Option Nat) (loops : List Loop) (fuel : Nat)
    (place : Option Nat × σ) (result : List OpId × Outcome σ) : Prop :=
  ∃ k last, r.run I k place = (result.1, last) ∧ Lands stop loops fuel k result.2 last

section Simulates

variable {k' : Nat} {out : Outcome σ} {last : Option Nat × σ} {result : List OpId × Outcome σ}
  {pass : σ → List OpId × Outcome σ}

theorem Lands.mono (h : Lands stop loops fuel k out last) (hk : fuel ≤ k → fuel' ≤ k') :
    Lands stop loops fuel' k' out last := by
  cases h with
  | fell h => exact .fell h
  | broke h h' => exact .broke h h'
  | continued h => exact .continued h
  | returned => exact .returned
  | exhausted h => exact .exhausted (hk h)

theorem Simulates.after (hrun : r.run I m place = (ids, place')) (h : Simulates I r stop loops fuel place' result) :
    Simulates I r stop loops fuel place (ids ++ result.1, result.2) := by
  obtain ⟨k, last, hk, hlands⟩ := h
  exact ⟨m + k, last, by rw [Routine.stepwise.chain hrun, hk], hlands.mono (by omega)⟩

theorem Simulates.andThen (hfst : Simulates I r mid loops fuel place result)
    (hrest : ∀ k b st, r.run I k place = (result.1, some b, st) → mid = some b →
      Simulates I r stop loops fuel (some b, st) (rest st)) :
    Simulates I r stop loops fuel place (Outcome.andThen result rest) := by
  obtain ⟨k, last, hk, hlands⟩ := hfst
  obtain ⟨ids, out⟩ := result
  cases hlands with
  | fell hmid => exact .after hk (hrest k _ _ hk hmid)
  | broke h h' => exact ⟨k, _, hk, .broke h h'⟩
  | continued h => exact ⟨k, _, hk, .continued h⟩
  | returned => exact ⟨k, _, hk, .returned⟩
  | exhausted h => exact ⟨k, _, hk, .exhausted h⟩

theorem Simulates.again (hpass : ∀ st, ∃ k last, r.run I k (some l.header, st) = ((pass st).1, last) ∧
      Lands none (l :: loops) fuel k (pass st).2 last ∧ (1 ≤ k ∨ ∃ st', (pass st).2 = .broke st'))
    (n : Nat) (hn : n ≤ fuel) (st : σ) :
    Simulates I r l.exit? loops n (some l.header, st) (Outcome.again pass n st) := by
  induction n generalizing st with
  | zero => exact ⟨0, _, rfl, .exhausted (Nat.le_refl _)⟩
  | succ n ih =>
    obtain ⟨k, last, hk, hlands, hpos⟩ := hpass st
    rw [Outcome.again]
    generalize pass st = result at hk hlands hpos ⊢
    obtain ⟨ids, out⟩ := result
    cases hlands with
    | fell h => cases h
    | broke h h' =>
      obtain ⟨rfl, rfl⟩ := cons.inj h
      exact ⟨k, _, hk, .fell h'⟩
    | @continued l' outer st' h =>
      obtain ⟨rfl, rfl⟩ := cons.inj h
      obtain ⟨k', last', hk', hlands'⟩ := ih (by omega) st'
      have hpos : 1 ≤ k := hpos.resolve_right (by simp)
      exact ⟨k + k', last', by rw [Routine.stepwise.chain hk, hk'], hlands'.mono (by omega)⟩
    | returned => exact ⟨k, _, hk, .returned⟩
    | exhausted h => exact ⟨k, _, hk, .exhausted (by omega)⟩

end Simulates

theorem Routine.run_lt (hclosed : r.Closed) {place : Option Nat × σ}
    (hplc : ∀ b ∈ place.1, b < r.blocks.size) : ∀ b ∈ (r.run I n place).2.1, b < r.blocks.size := by
  induction n generalizing place with
  | zero => exact hplc
  | succ n ih =>
    obtain ⟨b | b, st⟩ := place
    · simp
    · rw [run_succ]
      apply ih
      have hc := hclosed _ (mem_views.2 ⟨b, hplc b rfl, rfl⟩)
      generalize r.blockOps b = ids
      clear hplc ih
      induction ids generalizing st with
      | nil => exact hc.next_lt
      | cons id ids ih =>
        rw [runFrom]
        split
        · unfold target
          split
          · simp
          · exact hc.branch_lt
          · split
            · split
              · exact hc.branch_lt
              · exact hc.next_lt
            · simp
        · exact ih _

theorem Routine.lt_of_run (hclosed : r.Closed)
    {ids : List OpId} (hb : b < r.blocks.size) (h : r.run I k (some b, st) = (ids, some e, st')) :
    e < r.blocks.size := by
  have hlt := run_lt (I := I) (n := k) (r := r) hclosed (fun c (hc : c ∈ (some b, st).1) => by
    obtain rfl : b = c := Option.some.inj hc
    exact hb)
  exact hlt e (by rw [h]; rfl)

namespace Layout

variable {loops : List Loop}

theorem enters?_header {l : Loop} (h : s.enters? loops entering b = some l) : l.header = b ∧ entering = false := by
  unfold enters? at h
  split at h
  · cases h
  · next hent =>
    refine ⟨by simpa using find?_some h, ?_⟩
    simp only [Bool.or_eq_true, not_or] at hent
    simpa using hent.1

theorem jump?_lands {j : Stmt} (h : jump? loops entering b = some j) (st : σ) :
    (exec I r fuel j st).1 = [] ∧ Lands stop loops fuel 0 (exec I r fuel j st).2 (some b, st) ∧
      (entering → ∃ st', (exec I r fuel j st).2 = .broke st') := by
  obtain ⟨l, outer, rfl, ⟨rfl, rfl, hent⟩ | ⟨rfl, hexit⟩⟩ := jump?_eq_some h
  · refine ⟨rfl, .continued rfl, fun h => ?_⟩
    simp [h] at hent
  · exact ⟨rfl, .broke rfl hexit, fun _ => ⟨st, rfl⟩⟩

/-- What a written body does, the graph does. -/
theorem Writes.simulates {start : Option Nat}
    (h : s.Writes start stop loops entering body n) (hclosed : s.routine.Closed) (honw : s.routine.Onward)
    (fuel : Nat) (hstart : ∃ b < s.routine.blocks.size, start = some b) (hstop : entering → stop = none)
    (st : σ) :
    ∃ k last, s.routine.run I k (start, st) = ((execAll I s.routine fuel body st).1, last) ∧
        Lands stop loops fuel k (execAll I s.routine fuel body st).2 last ∧
        (entering → 1 ≤ k ∨ ∃ st', (execAll I s.routine fuel body st).2 = .broke st') := by
  have hpln : ∀ b < s.routine.blocks.size,
      ∀ op ∈ (s.routine.code b).dropLast, op.inst.isTerminator = false := fun b hb =>
    (hclosed _ (Routine.mem_views.2 ⟨b, hb, rfl⟩)).plain
  induction h generalizing st with
  | nowhere => simp at hstart
  | arrived => exact ⟨0, _, rfl, .fell rfl, fun h => by simp [hstop h] at *⟩
  | @jump b stop loops entering j _ hjump =>
    rw [Stmt.execAll_singleton]
    obtain ⟨hids, hlands, hbroke⟩ := jump?_lands (I := I) (r := s.routine) hjump st
    exact ⟨0, _, by rw [hids]; rfl, hlands, fun h => .inr (hbroke h)⟩
  | @loop b stop loops entering l body rest inner after _ _ henters _ _ ihbody ihrest =>
    obtain ⟨b', hb, heq⟩ := hstart
    obtain rfl := Option.some.inj heq
    obtain ⟨rfl, hent⟩ := enters?_header henters
    have hloop : Simulates I s.routine l.exit? loops fuel (some l.header, st)
        (Outcome.again (execAll I s.routine fuel body) fuel st) :=
      Simulates.again (fun st => by
        obtain ⟨k, last, hk, hlands, hpos⟩ := ihbody ⟨_, hb, rfl⟩ (fun _ => rfl) st
        exact ⟨k, last, hk, hlands, hpos rfl⟩) fuel (Nat.le_refl _) st
    rw [execAll, Stmt.exec_loop_dropFinal, exec]
    have hall : Simulates I s.routine stop loops fuel (some l.header, st) (Outcome.andThen
        (Outcome.again (execAll I s.routine fuel body) fuel st)
        (execAll I s.routine fuel rest)) := by
      refine hloop.andThen fun k e st' hk hexit => ?_
      have he := Routine.lt_of_run hclosed hb hk
      obtain ⟨k', last', hk', hlands', -⟩ := ihrest ⟨e, he, hexit⟩ (by simp) st'
      exact ⟨k', last', hexit ▸ hk', hlands'⟩
    obtain ⟨k, last, hk, hlands⟩ := hall
    exact ⟨k, last, hk, hlands, by simp [hent]⟩
  | @ret b stop loops entering _ _ _ hlv =>
    obtain ⟨b', hb, heq⟩ := hstart
    obtain rfl := Option.some.inj heq
    have hrun := run_one_leave (I := I) (hpln b hb) hlv st
    rw [plainOps_eq, execAll_append, execAll_ops, Outcome.andThen, Stmt.execAll_singleton, exec]
    refine ⟨1, (none, _), ?_, .returned, fun _ => .inl (Nat.le_refl _)⟩
    rw [hrun, append_nil]
    rfl
  | @goto b stop target loops entering rest after _ _ _ hlv _ ihrest =>
    obtain ⟨b', hb, heq⟩ := hstart
    obtain rfl := Option.some.inj heq
    have hrun := run_one_leave (I := I) (hpln b hb) hlv st
    rw [plainOps_eq, execAll_append, execAll_ops, Outcome.andThen]
    generalize s.routine.performAll I (s.plainIds b) st = st' at hrun ⊢
    obtain ⟨t, ht, htgt⟩ := leave_leads (I := I) hclosed honw hb hlv (by simp) st'
    obtain ⟨k, last, hk, hlands, -⟩ := ihrest ⟨t, ht, htgt⟩ (by simp) st'
    refine ⟨1 + k, last, ?_, hlands.mono (by omega), fun _ => .inl (by omega)⟩
    rw [Routine.stepwise.chain hrun]
    exact congrArg (fun p => (s.plainIds b ++ p.1, p.2)) hk
  | @test b stop loops entering cond invert yes no rest first second after _ _ _ hlv _ _ _ ihyes ihno ihrest =>
    obtain ⟨b', hb, heq⟩ := hstart
    obtain rfl := Option.some.inj heq
    have hrun := run_one_leave (I := I) (hpln b hb) hlv st
    rw [plainOps_eq, append_assoc, execAll_append, execAll_ops, Outcome.andThen,
      execAll_append, Stmt.execAll_branching]
    generalize s.routine.performAll I (s.plainIds b) st = st' at hrun ⊢
    obtain ⟨t, ht, htgt⟩ := leave_leads (I := I) hclosed honw hb hlv (by simp) st'
    -- The arm that the test chooses is simulated from the block it leads to.
    have harm : Simulates I s.routine (s.join? loops b) loops fuel
        (Leave.place I (s.routine.block b) st' (.test cond invert), st')
        (if I.holds cond st' != invert then execAll I s.routine fuel yes st'
          else execAll I s.routine fuel no st') := by
      simp only [Leave.place] at htgt ⊢
      split
      · next htest =>
        rw [if_pos htest] at htgt
        obtain ⟨k, last, hk, hlands, -⟩ := ihyes ⟨t, ht, htgt⟩ (by simp) st'
        exact ⟨k, last, hk, hlands⟩
      · next htest =>
        rw [if_neg htest] at htgt
        obtain ⟨k, last, hk, hlands, -⟩ := ihno ⟨t, ht, htgt⟩ (by simp) st'
        exact ⟨k, last, hk, hlands⟩
    have hall : Simulates I s.routine stop loops fuel
        (Leave.place I (s.routine.block b) st' (.test cond invert), st') (Outcome.andThen
        (if I.holds cond st' != invert then execAll I s.routine fuel yes st'
          else execAll I s.routine fuel no st')
        (execAll I s.routine fuel rest)) := by
      refine harm.andThen fun k e st'' hk hjoin => ?_
      have he := Routine.lt_of_run hclosed ht (htgt ▸ hk)
      obtain ⟨k', last', hk', hlands', -⟩ := ihrest ⟨e, he, hjoin⟩ (by simp) st''
      exact ⟨k', last', hjoin ▸ hk', hlands'⟩
    obtain ⟨k, last, hk, hlands⟩ := hall
    refine ⟨1 + k, last, ?_, hlands.mono (by omega), fun _ => .inl (by omega)⟩
    rw [Routine.stepwise.chain hrun, hk]

end Layout
end ShaderRecompiler
