import Mathlib.Data.Finset.Card
import ShaderRecompiler.Proofs.Printing

/-! Types of temporaries are a fixpoint. Assigning an operation's type to its
temporary never takes back a type other than a word, so a round that leaves an
operation out of step gives one more temporary such a type, and there are more
rounds than temporaries. What is assigned then needs no conversion. -/
namespace ShaderRecompiler.Glsl

namespace TempTypes

variable {x : Context} {types types' : TempTypes} {ops todo : List Operation} {op : Operation} {t n : Nat}

theorem get_insert (types : TempTypes) (t u : Nat) (type : ValueType) :
    get (types.insert t type) u = if t = u then type else types.get u := by
  simp [get, Std.HashMap.getD_insert]

/-- A result has a type of its own, or that of one temporary. -/
theorem resultType_cases (x : Context) (op : Operation) : (∃ t, ∀ types, x.resultType types op = types.get t) ∨
      ∃ type, ∀ types, x.resultType types op = type := by
  by_cases hcopy : op.inst = .copy
  · unfold Context.resultType
    rw [hcopy]
    cases op.source? 0 with
    | none => exact .inr ⟨_, fun _ => rfl⟩
    | some o =>
      cases o with
      | temp t => exact .inl ⟨t, fun _ => rfl⟩
      | _ => exact .inr ⟨_, fun _ => rfl⟩
  · refine .inr ⟨x.resultType {} op, fun types => ?_⟩
    unfold Context.resultType
    split <;> first | contradiction | rfl

theorem resultType_congr (h : ∀ t, types'.get t = types.get t) (op : Operation) :
    x.resultType types' op = x.resultType types op := by
  obtain ⟨t, ht⟩ | ⟨type, htype⟩ := resultType_cases x op
  · rw [ht, ht, h]
  · rw [htype, htype]

/-- What is typed stays typed, and a type other than the word stays as it is. -/
structure Extends (types types' : TempTypes) : Prop where
  mem : ∀ t, t ∈ types → t ∈ types'
  get : ∀ t, types.get t ≠ .u32 → types'.get t = types.get t

namespace Extends

theorem refl (types : TempTypes) : Extends types types := ⟨fun _ h => h, fun _ _ => rfl⟩

theorem trans (h : Extends types types') (h' : Extends types' last) : Extends types last where
  mem t ht := h'.mem t (h.mem t ht)
  get t ht := by
    rw [h'.get t (by rwa [h.get t ht]), h.get t ht]

theorem resultType (h : Extends types types') (hop : x.resultType types op ≠ .u32) :
    x.resultType types' op = x.resultType types op := by
  obtain ⟨t, ht⟩ | ⟨type, htype⟩ := resultType_cases x op
  · rw [ht] at hop
    rw [ht, ht, h.get t hop]
  · rw [htype, htype]

end Extends

/-- A temporary that is no word has the type of the operation that assigns it. -/
def Steady (x : Context) (ops : List Operation) (types : TempTypes) : Prop :=
  ∀ op ∈ ops, ∀ t, op.dest = some (.temp t) → types.get t ≠ .u32 → x.resultType types op = types.get t

def Settled (x : Context) (ops : List Operation) (types : TempTypes) : Prop :=
  ∀ op ∈ ops, ∀ t, op.dest = some (.temp t) → types.get t = x.resultType types op

theorem Settled.congr (h : Settled x ops types) (hget : ∀ t, types'.get t = types.get t) : Settled x ops types' := by
  intro op hop t ht
  rw [hget, h op hop t ht, resultType_congr hget]

/-- What an operation does to the types: nothing, unless it assigns a temporary. -/
theorem assign_cases (x : Context) (state : TempTypes × Bool) (op : Operation) :
    (∀ t, op.dest ≠ some (.temp t)) ∧ assign x state op = state ∨
      ∃ t, op.dest = some (.temp t) ∧ assign x state op = (state.1.insert t (x.resultType state.1 op),
        state.2 || state.1[t]? != some (x.resultType state.1 op)) := by
  unfold assign
  cases op.dest with
  | none => exact .inl ⟨by simp, rfl⟩
  | some o =>
    cases o with
    | temp t => exact .inr ⟨t, rfl, rfl⟩
    | _ => exact .inl ⟨by simp, rfl⟩

section

variable (honce : ∀ op ∈ ops, ∀ op' ∈ ops, ∀ t, op.dest = some (.temp t) → op'.dest = some (.temp t) → op = op')
include honce

/-- Typing one temporary keeps what is steady. -/
theorem Steady.insert (h : Steady x ops types) (hop : op ∈ ops) (ht : op.dest = some (.temp t)) :
    Steady x ops (types.insert t (x.resultType types op)) ∧
      Extends types (types.insert t (x.resultType types op)) := by
  have hext : Extends types (types.insert t (x.resultType types op)) := by
    refine ⟨fun u hu => Std.HashMap.mem_insert.2 (.inr hu), fun u hu => ?_⟩
    rw [get_insert]
    split
    · next htu =>
      subst htu
      exact h op hop t ht hu
    · rfl
  refine ⟨?_, hext⟩
  intro op' hop' u hu hne
  rw [get_insert] at hne ⊢
  split at hne
  · next htu =>
    subst htu
    obtain rfl := honce op hop op' hop' t ht hu
    rw [if_pos rfl, hext.resultType hne]
  · next htu =>
    have hkept := h op' hop' u hu hne
    rw [if_neg htu, hext.resultType (by rwa [hkept]), hkept]

/-- What a round does: it types each temporary that is assigned, and no longer
as a word where an operation has another type already. -/
theorem steady_foldl (htodo : ∀ op ∈ todo, op ∈ ops) (h : Steady x ops types) (changed : Bool) :
    Steady x ops (todo.foldl (assign x) (types, changed)).1 ∧
      Extends types (todo.foldl (assign x) (types, changed)).1 ∧
      ∀ op ∈ todo, ∀ t, op.dest = some (.temp t) → t ∈ (todo.foldl (assign x) (types, changed)).1 ∧
        (x.resultType types op ≠ .u32 → (todo.foldl (assign x) (types, changed)).1.get t ≠ .u32) := by
  induction todo generalizing types changed with
  | nil => exact ⟨h, .refl types, by simp⟩
  | cons op rest ih =>
    have hrest : ∀ op ∈ rest, op ∈ ops := fun op hop => htodo op (.tail _ hop)
    rw [List.foldl_cons]
    obtain ⟨hdest, hassign⟩ | ⟨t, ht, hassign⟩ := assign_cases x (types, changed) op
    · rw [hassign]
      obtain ⟨hlast, hstays, hall⟩ := ih hrest h changed
      refine ⟨hlast, hstays, ?_⟩
      intro op' hop' u hu
      rcases List.mem_cons.1 hop' with rfl | hop'
      · exact absurd hu (hdest u)
      · exact hall op' hop' u hu
    · rw [hassign]
      obtain ⟨hsteady, hext⟩ := h.insert honce (htodo op (.head _)) ht
      obtain ⟨hlast, hstays, hall⟩ := ih hrest hsteady (changed || types[t]? != some (x.resultType types op))
      refine ⟨hlast, hext.trans hstays, ?_⟩
      intro op' hop' u hu
      rcases List.mem_cons.1 hop' with rfl | hop'
      · obtain rfl : t = u := by simpa [ht] using hu
        refine ⟨hstays.mem t (by simp), fun hne => ?_⟩
        have hget : get (types.insert t (x.resultType types op')) t = x.resultType types op' := by
          rw [get_insert, if_pos rfl]
        rwa [hstays.get t (by rwa [hget]), hget]
      · obtain ⟨hmem, hword⟩ := hall op' hop' u hu
        exact ⟨hmem, fun hne => hword (by rwa [hext.resultType hne])⟩

end

theorem get_foldl_of_settled (htodo : ∀ op ∈ todo, op ∈ ops) (h : Settled x ops types) (changed : Bool) (u : Nat) :
    (todo.foldl (assign x) (types, changed)).1.get u = types.get u := by
  induction todo generalizing types changed with
  | nil => rfl
  | cons op rest ih =>
    have hrest : ∀ op ∈ rest, op ∈ ops := fun op hop => htodo op (.tail _ hop)
    rw [List.foldl_cons]
    obtain ⟨-, hassign⟩ | ⟨t, ht, hassign⟩ := assign_cases x (types, changed) op
    · rw [hassign, ih hrest h]
    · have hget : ∀ v, get (types.insert t (x.resultType types op)) v = types.get v := by
        intro v
        rw [get_insert, ← h op (htodo op (.head _)) t ht]
        split
        · next htv => rw [htv]
        · rfl
      rw [hassign, ih hrest (h.congr hget), hget]

/-- A round without news leaves every type as it was. -/
theorem get_foldl_of_unchanged (h : (todo.foldl (assign x) (types, changed)).2 = false) :
    changed = false ∧ ∀ u, (todo.foldl (assign x) (types, changed)).1.get u = types.get u := by
  induction todo generalizing types changed with
  | nil => exact ⟨h, fun _ => rfl⟩
  | cons op rest ih =>
    rw [List.foldl_cons] at h ⊢
    obtain ⟨-, hassign⟩ | ⟨t, -, hassign⟩ := assign_cases x (types, changed) op
    · rw [hassign] at h ⊢
      exact ih h
    · rw [hassign] at h ⊢
      obtain ⟨hnews, hget⟩ := ih h
      obtain ⟨hchanged, hold⟩ : changed = false ∧ types[t]? = some (x.resultType types op) := by simpa using hnews
      refine ⟨hchanged, fun u => ?_⟩
      rw [hget, get_insert]
      split
      · next htu =>
        subst htu
        simp [get, Std.HashMap.getD_eq_getD_getElem?, hold]
      · rfl

/-- How many of the first `n` temporaries are no words. -/
def typedBelow (types : TempTypes) (n : Nat) : Nat := ((Finset.range n).filter (types.get · ≠ .u32)).card

theorem typedBelow_le (types : TempTypes) (n : Nat) : types.typedBelow n ≤ n := by
  simpa [typedBelow] using Finset.card_filter_le (Finset.range n) (types.get · ≠ .u32)

theorem Extends.typedBelow_lt (h : Extends types types') (ht : t < n) (hword : types.get t = .u32)
    (htyped : types'.get t ≠ .u32) : types.typedBelow n < types'.typedBelow n := by
  refine Finset.card_lt_card (Finset.ssubset_iff_of_subset ?_ |>.2 ⟨t, ?_, ?_⟩)
  · intro u hu
    rw [Finset.mem_filter] at hu ⊢
    rw [h.get u hu.2]
    exact hu
  · simp [ht, htyped]
  · simp [hword]

section

variable (honce : ∀ op ∈ ops, ∀ op' ∈ ops, ∀ t, op.dest = some (.temp t) → op'.dest = some (.temp t) → op = op')
include honce

theorem exists_of_not_settled (h : Steady x ops types) (hnot : ¬Settled x ops types) :
    ∃ op ∈ ops, ∃ t, op.dest = some (.temp t) ∧ types.get t = .u32 ∧ (round x ops types).1.get t ≠ .u32 := by
  simp only [Settled, not_forall] at hnot
  obtain ⟨op, hop, t, ht, hne⟩ := hnot
  have hword : types.get t = .u32 := by
    by_contra htyped
    exact hne (h op hop t ht htyped).symm
  have hrnd := ((steady_foldl honce (fun _ => id) h false).2.2 op hop t ht).2
  exact ⟨op, hop, t, ht, hword, hrnd (by rw [← hword]; exact Ne.symm hne)⟩

/-- More rounds than there are words left to type reach the fixpoint. -/
theorem settled_settle (hbelow : ∀ op ∈ ops, ∀ t, op.dest = some (.temp t) → t < n) (h : Steady x ops types)
    (rounds : Nat) (hrnds : Settled x ops types ∨ n < types.typedBelow n + rounds) :
    Settled x ops (settle x ops rounds types) := by
  induction rounds generalizing types with
  | zero =>
    rcases hrnds with hset | hlt
    · exact hset
    · exact absurd (typedBelow_le types n) (by omega)
  | succ rounds ih =>
    obtain ⟨hsteady, hext, -⟩ := steady_foldl honce (fun _ => id) h false
    by_cases hset : Settled x ops types
    · have hnext : Settled x ops (round x ops types).1 :=
        hset.congr (get_foldl_of_settled (fun _ => id) hset false)
      unfold settle
      dsimp only
      split
      · exact ih hsteady (.inl hnext)
      · exact hnext
    · obtain ⟨op, hop, t, ht, hword, htyped⟩ := exists_of_not_settled honce h hset
      have hlt := hext.typedBelow_lt (hbelow op hop t ht) hword htyped
      unfold settle
      dsimp only
      split
      · exact ih hsteady (.inr (by have := hrnds.resolve_left hset; unfold round; omega))
      · next hchanged =>
        have hsame := (get_foldl_of_unchanged (Bool.eq_false_iff.2 hchanged)).2 t
        exact absurd (hsame.trans hword) htyped

theorem extends_settle (h : Steady x ops types) (rounds : Nat) : Extends types (settle x ops rounds types) := by
  induction rounds generalizing types with
  | zero => exact .refl types
  | succ rounds ih =>
    obtain ⟨hsteady, hext, -⟩ := steady_foldl honce (fun _ => id) h false
    unfold settle
    dsimp only
    split
    · exact hext.trans (ih hsteady)
    · exact hext

theorem mem_settle (h : Steady x ops types) (rounds : Nat) (hop : op ∈ ops) (ht : op.dest = some (.temp t)) :
    t ∈ settle x ops (rounds + 1) types := by
  obtain ⟨hsteady, -, hall⟩ := steady_foldl honce (fun _ => id) h false
  unfold settle
  dsimp only
  split
  · exact (extends_settle honce hsteady rounds).mem t (hall op hop t ht).1
  · exact (hall op hop t ht).1

end

end TempTypes

@[simp] theorem cast_self (text : String) (type : ValueType) : cast text type type = text := by
  cases type <;> rfl

namespace Scope

variable {s : Scope}

theorem type_operand (h : s.operand o = .ok v) : v.type = s.types.ofOperand o := by
  cases o with
  | label l => cases h
  | constantBuffer slot offset =>
    unfold operand at h
    dsimp only at h
    split at h <;> cases h
    rfl
  | _ =>
    cases h
    rfl

theorem place_eq_ok {index place' : Nat} (h : place op index = .ok place') : op.place? index = some place' := by
  unfold place at h
  split at h <;> cases h
  assumption

theorem type_bufferElement (h : s.bufferElement op stop = .ok v) :
    v.type = Context.bufferType ((op.place? 0).bind fun binding =>
      if op.storage = .constantBuffer then s.resources.constantBuffer? binding
      else s.resources.storageBuffer? binding) (op.place? 1) := by
  obtain ⟨binding, hbind, h⟩ := exists_of_bind_eq_ok h
  obtain ⟨index, hidx, h⟩ := exists_of_bind_eq_ok h
  rw [place_eq_ok hbind, place_eq_ok hidx]
  dsimp only [Option.bind_some, Context.bufferType]
  split at h
  next found hfound =>
  split at h
  · cases h
  · next buffer =>
    split at h
    · cases h
    · next field hfld =>
      obtain ⟨suffix, -, h⟩ := exists_of_bind_eq_ok h
      cases h
      have hbuf := congrArg Prod.snd hfound
      rw [apply_ite Prod.snd] at hbuf
      rw [hbuf, Option.bind_some, hfld]

theorem type_memoryElement (h : s.memoryElement op stop = .ok v) : v.type = .u32 := by
  obtain ⟨id, -, h⟩ := exists_of_bind_eq_ok h
  split at h
  split at h
  · cases h
  · obtain ⟨suffix, -, h⟩ := exists_of_bind_eq_ok h
    cases h
    rfl

theorem type_element (h : s.element op stop = .ok v) : v.type = s.context.loadType op := by
  unfold element at h
  unfold Context.loadType
  cases hstor : op.storage with
  | constantBuffer | storageBuffer =>
    rw [hstor] at h
    rw [type_bufferElement h, hstor]
    rfl
  | localMemory | sharedMemory =>
    rw [hstor] at h
    exact type_memoryElement h
  | none =>
    rw [hstor] at h
    cases h
  | input | output | inputPerPatch | outputPerPatch =>
    rw [hstor] at h
    obtain ⟨access, hacc, h⟩ := exists_of_bind_eq_ok h
    obtain ⟨text, -, h⟩ := exists_of_bind_eq_ok h
    cases h
    rw [hacc]

/-- An expression has the type that its operation is said to have. -/
theorem type_value (h : s.value op = .ok v) : v.type = s.context.resultType s.types op := by
  unfold value at h
  split at h
  · next hcopy =>
    simp only [Context.resultType, hcopy]
    split at h
    · next o ho =>
      rw [ho]
      exact type_operand h
    · cases h
  · next hload =>
    simp only [Context.resultType, hload]
    exact type_element h
  · cases hcomputed : s.computed op with
    | error e => simp [hcomputed, Except.map] at h
    | ok text =>
      rw [hcomputed] at h
      cases h
      rfl

end Scope

namespace TempTypes

/-- The types of a routine that assigns each temporary once are those of the
operations that assign them, under the very same types. What is assigned is then
written as it stands, in chains and cycles of copies too. -/
theorem ofRoutine_eq_resultType (x : Context) (r : Routine)
    (honce : ∀ p ∈ r.allOps, ∀ q ∈ r.allOps, ∀ t, (r.op p.2).dest = some (.temp t) →
      (r.op q.2).dest = some (.temp t) → p.2 = q.2)
    (hbelow : ∀ p ∈ r.allOps, ∀ t, (r.op p.2).dest = some (.temp t) → t < r.ids.temps) :
    ∀ p ∈ r.allOps, ∀ t, (r.op p.2).dest = some (.temp t) →
      (ofRoutine x r)[t]? = some (x.resultType (ofRoutine x r) (r.op p.2)) ∧
      ∀ predeclared v, Scope.value ⟨x, ofRoutine x r, predeclared⟩ (r.op p.2) = .ok v →
        v.type = (ofRoutine x r).get t ∧
        Scope.assignment ⟨x, ofRoutine x r, predeclared⟩ (r.op p.2).inst (.temp t) v =
          .ok [(if predeclared.contains t then "" else v.type.scalar ++ " ") ++ s!"temp_{t} = {v.text};"] := by
  intro p hp t ht
  have honce' : ∀ op ∈ r.allOps.map (fun p => r.op p.2), ∀ op' ∈ r.allOps.map (fun p => r.op p.2), ∀ t,
      op.dest = some (.temp t) → op'.dest = some (.temp t) → op = op' := by
    intro op hop op' hop' u hu hu'
    obtain ⟨p, hp, rfl⟩ := List.mem_map.1 hop
    obtain ⟨q, hq, rfl⟩ := List.mem_map.1 hop'
    rw [honce p hp q hq u hu hu']
  have hbelow' : ∀ op ∈ r.allOps.map (fun p => r.op p.2), ∀ t, op.dest = some (.temp t) → t < r.ids.temps := by
    intro op hop u hu
    obtain ⟨p, hp, rfl⟩ := List.mem_map.1 hop
    exact hbelow p hp u hu
  have hmem : r.op p.2 ∈ r.allOps.map (fun p => r.op p.2) := List.mem_map_of_mem hp
  have hsteady : Steady x (r.allOps.map fun p => r.op p.2) {} := by
    intro op _ t _ hne
    exact absurd (by simp [get]) hne
  have hget : (ofRoutine x r).get t = x.resultType (ofRoutine x r) (r.op p.2) :=
    settled_settle honce' hbelow' hsteady (r.ids.temps + 1) (.inr (by omega)) _ hmem t ht
  refine ⟨?_, ?_⟩
  · rw [← hget]
    exact Std.HashMap.getElem?_eq_some_getD (mem_settle honce' hsteady r.ids.temps hmem ht)
  · intro predeclared v hv
    have htype : v.type = (ofRoutine x r).get t := (Scope.type_value hv).trans hget.symm
    refine ⟨htype, ?_⟩
    simp only [Scope.assignment, htype, cast_self, toString, String.append_assoc]

/-- A float copied back twice over, and two temporaries that are copied round. -/
def backwardCopies : Routine where
  nodes := #[{ op := ⟨.copy, .none, some (.temp 0), [.temp 1]⟩, block := 0, next := some 1 },
    { op := ⟨.copy, .none, some (.temp 1), [.temp 2]⟩, block := 0, next := some 2 },
    { op := ⟨.add .f32, .none, some (.temp 2), [.word 0, .word 1]⟩, block := 0, next := some 3 },
    { op := ⟨.copy, .none, some (.temp 3), [.temp 4]⟩, block := 0, next := some 4 },
    { op := ⟨.copy, .none, some (.temp 4), [.temp 3]⟩, block := 0 }]
  blocks := #[{ first := some 0, last := some 4 }]
  ids := { temps := 5 }

def bareContext : Context where
  config := { stage := .vertex }
  resources := { stage := .vertex, api := .vulkan }
  usage := {}
  features := {}
  capabilities := {}
  api := .vulkan
  debug := false

theorem ofRoutine_eq_resultType_backwardCopies : (ofRoutine bareContext backwardCopies)[0]? = some .f32 ∧
    (0, 0) ∈ backwardCopies.allOps ∧ (backwardCopies.op 0).dest = some (.temp 0) ∧
    (ofRoutine bareContext backwardCopies)[0]? =
      some (bareContext.resultType (ofRoutine bareContext backwardCopies) (backwardCopies.op 0)) := by
  have hdest : ∀ p ∈ backwardCopies.allOps, (backwardCopies.op p.2).dest = some (.temp p.2) ∧ p.2 < 5 := by decide
  refine ⟨by cbv, by decide, rfl, ?_⟩
  refine (ofRoutine_eq_resultType bareContext backwardCopies ?_ ?_ (0, 0) (by decide) 0 rfl).1
  · intro p hp q hq t ht ht'
    rw [(hdest p hp).1] at ht
    rw [(hdest q hq).1, ← ht] at ht'
    simpa using ht'.symm
  · intro p hp t ht
    obtain ⟨hp', hlt⟩ := hdest p hp
    rw [hp'] at ht
    cases ht
    exact hlt

end TempTypes
end ShaderRecompiler.Glsl
