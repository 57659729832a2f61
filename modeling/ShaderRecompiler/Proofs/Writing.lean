import ShaderRecompiler.Flow.Structuring

/-! Writing statements without a budget. A layout writes a body in a number of
steps or never comes to an end; with a budget of at least that many steps the
same body is written, and with less there is none. -/
namespace ShaderRecompiler.Layout

/-- `s.Writes start stop loops entering body n`: from `start` until control
reaches `stop`, inside `loops`, the statements are `body`, written in `n` steps. -/
inductive Writes (s : Layout) : Option Nat → Option Nat → List Loop → Bool → List Stmt → Nat → Prop
  | nowhere {stop : Option Nat} {loops : List Loop} {entering : Bool} : Writes s none stop loops entering [] 0
  | arrived {b : Nat} {loops : List Loop} {entering : Bool} : Writes s (some b) (some b) loops entering [] 1
  | jump {b : Nat} {stop : Option Nat} {loops : List Loop} {entering : Bool} {j : Stmt} :
      stop ≠ some b → jump? loops entering b = some j →
      Writes s (some b) stop loops entering [j] 1
  | loop {b : Nat} {stop : Option Nat} {loops : List Loop} {entering : Bool} {l : Loop}
      {body rest : List Stmt} {inner after : Nat} :
      stop ≠ some b → jump? loops entering b = none → s.enters? loops entering b = some l →
      Writes s (some b) none (l :: loops) true body inner →
      Writes s l.exit? stop loops false rest after →
      Writes s (some b) stop loops entering (.loop (Stmt.dropFinal Stmt.isContinue body) :: rest) (1 + inner + after)
  | ret {b : Nat} {stop : Option Nat} {loops : List Loop} {entering : Bool} :
      stop ≠ some b → jump? loops entering b = none → s.enters? loops entering b = none →
      s.leave b = .ok .ret →
      Writes s (some b) stop loops entering (s.plainOps b ++ [.ret]) 1
  | goto {b : Nat} {stop target : Option Nat} {loops : List Loop} {entering : Bool} {rest : List Stmt} {after : Nat} :
      stop ≠ some b → jump? loops entering b = none → s.enters? loops entering b = none →
      s.leave b = .ok (.goto target) → Writes s target stop loops false rest after →
      Writes s (some b) stop loops entering (s.plainOps b ++ rest) (1 + after)
  | test {b : Nat} {stop : Option Nat} {loops : List Loop} {entering : Bool} {cond : Operand}
      {invert : Bool} {yes no rest : List Stmt} {first second after : Nat} :
      stop ≠ some b → jump? loops entering b = none → s.enters? loops entering b = none →
      s.leave b = .ok (.test cond invert) →
      Writes s (s.routine.block b).branch (s.join? loops b) loops false yes first →
      Writes s (s.routine.block b).next (s.join? loops b) loops false no second →
      Writes s (s.join? loops b) stop loops false rest after →
      Writes s (some b) stop loops entering
        (s.plainOps b ++ Stmt.branching cond invert (s.join? loops b).isSome yes no ++ rest)
        (1 + first + second + after)

variable {s : Layout} {loops : List Loop}

theorem jump?_eq_some (h : jump? loops entering b = some j) : ∃ l outer, loops = l :: outer ∧
      (j = .continueLoop ∧ b = l.header ∧ entering = false ∨ j = .breakLoop ∧ l.exit? = some b) := by
  unfold jump? at h
  split at h
  · cases h
  · next l outer =>
    refine ⟨l, outer, rfl, ?_⟩
    split at h
    · next hhdr => exact .inl ⟨(Option.some.inj h).symm, hhdr.1, by simpa using hhdr.2⟩
    · split at h
      · next hexit => exact .inr ⟨(Option.some.inj h).symm, hexit⟩
      · cases h

theorem emit_none (s : Layout) (budget : Nat) (stop : Option Nat) (loops : List Loop) (entering : Bool) :
    s.emit budget none stop loops entering = .ok ([], 0) := by
  rw [emit]

/-- The budget is enough when it is at least the number of steps. -/
theorem Writes.emit_eq (h : s.Writes start stop loops entering body n) (hn : n ≤ budget) :
    s.emit budget start stop loops entering = .ok (body, n) := by
  induction h generalizing budget with
  | nowhere => exact emit_none ..
  | arrived =>
    obtain ⟨budget, rfl⟩ := Nat.exists_eq_add_of_le' hn
    rw [emit, if_pos rfl]
  | jump hstop hjump =>
    obtain ⟨budget, rfl⟩ := Nat.exists_eq_add_of_le' hn
    rw [emit, if_neg hstop, hjump]
  | loop hstop hjump henters _ _ ihbody ihrest =>
    obtain ⟨budget, rfl⟩ := Nat.exists_eq_add_of_le' (Nat.le_trans (by omega : 1 ≤ _) hn)
    rw [emit, if_neg hstop, hjump, henters]
    dsimp only
    rw [ihbody (by omega)]
    dsimp only [bind, Except.bind]
    rw [ihrest (by omega)]
    rfl
  | ret hstop hjump henters hlv =>
    obtain ⟨budget, rfl⟩ := Nat.exists_eq_add_of_le' hn
    rw [emit, if_neg hstop, hjump, henters]
    dsimp only
    rw [hlv]
    rfl
  | goto hstop hjump henters hlv _ ihrest =>
    obtain ⟨budget, rfl⟩ := Nat.exists_eq_add_of_le' (Nat.le_trans (by omega : 1 ≤ _) hn)
    rw [emit, if_neg hstop, hjump, henters]
    dsimp only
    rw [hlv]
    dsimp only [bind, Except.bind]
    rw [ihrest (by omega)]
    rfl
  | test hstop hjump henters hlv _ _ _ ihyes ihno ihrest =>
    obtain ⟨budget, rfl⟩ := Nat.exists_eq_add_of_le' (Nat.le_trans (by omega : 1 ≤ _) hn)
    rw [emit, if_neg hstop, hjump, henters]
    dsimp only
    rw [hlv]
    dsimp only [bind, Except.bind]
    rw [ihyes (by omega)]
    dsimp only
    rw [ihno (by omega)]
    dsimp only
    rw [ihrest (by omega)]
    rfl

/-- Writing ends with a body, at the end of the budget, or at a block that has no
way to be left. -/
inductive Emitted (s : Layout) (budget : Nat) (start stop : Option Nat) (loops : List Loop)
    (entering : Bool) : Except StructureError (List Stmt × Nat) → Prop
  | body {body : List Stmt} {n : Nat} : s.Writes start stop loops entering body n → n ≤ budget →
      Emitted s budget start stop loops entering (.ok (body, n))
  | stepLimit : Emitted s budget start stop loops entering (.error .stepLimit)
  | stuck {b : Nat} {e : StructureError} : s.leave b = .error e → Emitted s budget start stop loops entering (.error e)

theorem Emitted.bind (hx : s.Emitted budget' start' stop' loops' entering' x)
    (hf : ∀ body n, s.Writes start' stop' loops' entering' body n → n ≤ budget' →
      s.Emitted budget start stop loops entering (f (body, n))) :
    s.Emitted budget start stop loops entering (x >>= f) := by
  cases hx with
  | body hwrites hn => exact hf _ _ hwrites hn
  | stepLimit => exact .stepLimit
  | stuck hlv => exact .stuck hlv

theorem emitted_emit (s : Layout) (budget : Nat) : ∀ start stop loops entering,
      s.Emitted budget start stop loops entering (s.emit budget start stop loops entering) := by
  induction budget using Nat.strongRecOn with
  | ind budget ih =>
    intro start stop loops entering
    match start, budget with
    | none, _ =>
      rw [emit_none]
      exact .body .nowhere (Nat.zero_le _)
    | some b, 0 =>
      rw [emit]
      exact .stepLimit
    | some b, budget + 1 =>
      rw [emit]
      by_cases hstop : stop = some b
      · rw [if_pos hstop, hstop]
        exact .body .arrived (by omega)
      rw [if_neg hstop]
      cases hjump : jump? loops entering b with
      | some j => exact .body (.jump hstop hjump) (by omega)
      | none =>
        cases henters : s.enters? loops entering b with
        | some l =>
          refine (ih budget (by omega) _ _ _ _).bind fun body inner hbody _ => ?_
          refine (ih (budget - inner) (by omega) _ _ _ _).bind fun _ _ hrest _ => ?_
          exact .body (.loop hstop hjump henters hbody hrest) (by omega)
        | none =>
          dsimp only
          cases hlv : s.leave b with
          | error e => exact .stuck hlv
          | ok leave =>
            cases leave with
            | ret => exact .body (.ret hstop hjump henters hlv) (by omega)
            | goto target =>
              refine (ih budget (by omega) _ _ _ _).bind fun _ _ hrest _ => ?_
              exact .body (.goto hstop hjump henters hlv hrest) (by omega)
            | test cond invert =>
              refine (ih budget (by omega) _ _ _ _).bind fun _ first hyes _ => ?_
              refine (ih (budget - first) (by omega) _ _ _ _).bind fun _ second hno _ => ?_
              refine (ih (budget - (first + second)) (by omega) _ _ _ _).bind fun _ _ hrest _ => ?_
              exact .body (.test hstop hjump henters hlv hyes hno hrest) (by omega)

theorem writes_of_emit (h : s.emit budget start stop loops entering = .ok (body, n)) :
    s.Writes start stop loops entering body n ∧ n ≤ budget := by
  have hemitted := s.emitted_emit budget start stop loops entering
  rw [h] at hemitted
  cases hemitted with
  | body hwrites hn => exact ⟨hwrites, hn⟩

end ShaderRecompiler.Layout
