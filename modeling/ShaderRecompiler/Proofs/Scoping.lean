import ShaderRecompiler.Proofs.Accesses

/-! Which operands an emitting computation uses. Beside what it says of operations,
labels and temporaries, a computation keeps to the operands that were handed out
since a given start, and uses no variables. What is known so far is a list that grows
from step to step. -/
namespace ShaderRecompiler

open List Operation Operand Emit Nat

variable {inst : Instruction} {sources : List Operand} {n : Nat}

namespace Operand

/-- Stands for the same thing in every program. -/
def isStatic : Operand → Bool
  | temp _ | label _ | var _ => false
  | _ => true

/-- Handed out between two states of the allocator. -/
def Within (lo hi : Ids) : Operand → Prop
  | temp t => lo.temps ≤ t ∧ t < hi.temps
  | label n => lo.labels ≤ n ∧ n < hi.labels
  | var _ => False
  | _ => True

/-- Known, or not handed out at all. -/
def Usable (known : List Operand) (o : Operand) : Prop := o ∈ known ∨ o.isStatic

variable {o : Operand}

@[simp] theorem usable_iff : o.Usable known ↔ o ∈ known ∨ o.isStatic := .rfl

theorem Within.mono (h : o.Within lo hi) (htmps : hi.temps ≤ hi'.temps) (hlabs : hi.labels ≤ hi'.labels) :
    o.Within lo hi' := by
  cases o with
  | temp t => exact ⟨h.1, lt_of_lt_of_le h.2 htmps⟩
  | label n => exact ⟨h.1, lt_of_lt_of_le h.2 hlabs⟩
  | var n => exact h
  | _ => trivial

theorem within_of_isStatic (h : o.isStatic) : o.Within lo hi := by
  cases o <;> trivial

theorem Usable.within (h : o.Usable known) (hknown : ∀ o ∈ known, o.Within lo hi) : o.Within lo hi :=
  h.elim (hknown o) within_of_isStatic

theorem ready_of_isStatic (h : o.isStatic) : o.Ready known := by
  cases o with
  | temp | label | var => cases h
  | _ => exact .inr rfl

theorem Usable.ready (h : o.Usable known) : o.Ready known := h.elim .inl ready_of_isStatic

theorem usable_self (o : Operand) (known : List Operand) : o.Usable (o :: known) := .inl mem_cons_self

@[simp] theorem isStatic_word (n : Nat) : (word n).isStatic := rfl

@[simp] theorem isStatic_constant (bits : UInt32) : (constant bits).isStatic := rfl

end Operand

@[simp] theorem IoVariable.isStatic_operand (v : IoVariable) : v.operand.isStatic := rfl

@[simp] theorem Register.isStatic_operand (r : Register) : r.operand.isStatic := by
  unfold operand
  split <;> rfl

theorem Register.isStatic_of_mem_map (rs : List Register) : ∀ o ∈ rs.map operand, o.isStatic := by
  simp

@[simp] theorem Predicate.isStatic_operand (p : Predicate) : p.operand.isStatic := by
  unfold operand
  split <;> rfl

@[simp] theorem Guest.Source.isStatic_operand (s : Guest.Source) : s.operand.isStatic := by
  cases s with
  | register r => exact r.isStatic_operand
  | immediate | constantBuffer => rfl

/-- A temporary that is owed, or a place of the guest. -/
def Operand.Settable (owed : List Nat) (o : Operand) : Prop :=
  (∃ t ∈ owed, o = temp t) ∨ o.isStatic ∧ o.isAssignable

theorem Operand.settable_temp (t : Nat) : (temp t).Settable (temp t).asTemp?.toList :=
  .inl ⟨t, by simp [asTemp?], rfl⟩

theorem Operand.Settable.isAssignable_eq {o : Operand} (h : o.Settable owed) : o.isAssignable := by
  obtain ⟨t, -, rfl⟩ | ⟨-, h⟩ := h
  · rfl
  · exact h

/-- At `first`, what is known and owed was handed out after `lo`. -/
structure Bounds (lo : Ids) (known : List Operand) (owed : List Nat) (first : Ids) : Prop where
  temps : lo.temps ≤ first.temps
  labels : lo.labels ≤ first.labels
  known : ∀ o ∈ known, o.Within lo first
  owed : ∀ t ∈ owed, (temp t).Within lo first

/-- `added` has the property `P`, accounts for its labels and temporaries, and uses operands
that were handed out after `lo`. -/
structure Scoped (P : Operation → Prop) (lo : Ids) (known : List Operand) (owed opens closes : List Nat)
    (first last : Ids) (added : List Operation) : Prop where
  emission : Emission P opens closes first.labels last.labels added
  assigning : Assigning known owed first.temps last.temps added
  within : Bounds lo known owed first → ∀ op ∈ added, ∀ o ∈ op.operands, o.Within lo last

theorem Scoped.imp (h : Scoped P lo known owed opens closes first last added)
    (himp : ∀ op, P op → P' op) : Scoped P' lo known owed opens closes first last added :=
  { h with emission := h.emission.imp himp }

/-- What `m` appends uses operands that are known, or that it takes itself after `lo`. It
assigns what is owed, and the operands of its result are known from then on. -/
def Scopes {α : Type} (P : Operation → Prop) (lo : Ids) (known : List Operand) (owed opens closes : List Nat)
    (m : Emit α) (result : α → List Operand) (Q : α → Prop) : Prop :=
  ∀ e : Emitter, Q (m.run e).1 ∧ ∃ added, (m.run e).2.ops.toList = e.ops.toList ++ added ∧
    Scoped P lo known owed opens closes e.ids (m.run e).2.ids added ∧
    ∀ o ∈ result (m.run e).1, (Bounds lo known owed e.ids → o.Within lo (m.run e).2.ids) ∧
      ∀ t, o = .temp t → .temp t ∈ known ∨ t ∈ added.flatMap assigned

namespace Scopes

variable {m : Emit α} {Q : α → Prop} {R : β → Prop}

theorem run (h : Scopes P lo known owed opens closes m result Q) (e : Emitter) :
    ∃ added, (m.run e).2.ops.toList = e.ops.toList ++ added ∧
      Scoped P lo known owed opens closes e.ids (m.run e).2.ids added := by
  obtain ⟨-, added, hops, hadd, -⟩ := h e
  exact ⟨added, hops, hadd⟩

theorem pure (hq : Q a) (hres : ∀ o ∈ result a, o.Usable known) :
    Scopes P lo known [] opens [] (Pure.pure a) result Q := by
  intro e
  refine ⟨hq, [], (append_nil _).symm, ⟨.nil P opens _, .nil known _, by simp⟩, fun o ho => ⟨?_, ?_⟩⟩
  · exact fun hbds => (hres o ho).within hbds.known
  · rintro t rfl
    exact .inl (hres _ ho).ready.mem

theorem nop : Scopes P lo known [] opens [] (Pure.pure ()) (fun _ => []) fun _ => True := pure trivial (by simp)

theorem bind_closes (hm : Scopes P lo known owed opens closes m result Q)
    (hf : ∀ a, Q a → Scopes P lo (result a ++ known) owed' opens closes' (f a) result' R) :
    Scopes P lo known (owed ++ owed') opens (closes ++ closes') (m >>= f) result' R := by
  intro e
  obtain ⟨hq, added, hops, hadd, hres⟩ := hm e
  obtain ⟨hr, added', hops', hadd', hres'⟩ := hf _ hq (m.run e).2
  have hle := hadd.assigning.le
  have hlabs := hadd.emission.le
  have hbds : Bounds lo known (owed ++ owed') e.ids → Bounds lo known owed e.ids ∧
      Bounds lo (result (m.run e).1 ++ known) owed' (m.run e).2.ids := by
    intro h
    obtain ⟨howed, howed'⟩ := forall_mem_append.1 h.owed
    have hfst : Bounds lo known owed e.ids := { h with owed := howed }
    refine ⟨hfst, le_trans h.temps hle, le_trans h.labels hlabs, forall_mem_append.2 ⟨?_, ?_⟩, ?_⟩
    · exact fun o ho => (hres o ho).1 hfst
    · exact fun o ho => (h.known o ho).mono hle hlabs
    · exact fun t ht => (howed' t ht).mono hle hlabs
  have hassigned : ∀ t, .temp t ∈ result (m.run e).1 ++ known → .temp t ∈ known ∨ t ∈ added.flatMap assigned :=
    fun t ht => (mem_append.1 ht).elim (fun ht => (hres _ ht).2 t rfl) .inl
  refine ⟨hr, added ++ added', ?_, ⟨hadd.emission.append hadd'.emission,
    hadd.assigning.append hadd'.assigning hassigned, fun h => ?_⟩,
    fun o ho => ⟨fun h => (hres' o ho).1 (hbds h).2, fun t ht => ?_⟩⟩
  · rw [← append_assoc, ← hops]
    exact hops'
  · refine forall_mem_append.2 ⟨fun op hop o ho => ?_, hadd'.within (hbds h).2⟩
    exact (hadd.within (hbds h).1 op hop o ho).mono hadd'.assigning.le hadd'.emission.le
  · rw [flatMap_append, mem_append]
    obtain ht | ht := (hres' o ho).2 t ht
    · exact (hassigned t ht).imp_right .inl
    · exact .inr (.inr ht)

theorem bind (hm : Scopes P lo known [] opens [] m result Q)
    (hf : ∀ a, Q a → Scopes P lo (result a ++ known) owed opens closes (f a) result' R) :
    Scopes P lo known owed opens closes (m >>= f) result' R :=
  bind_closes hm hf

theorem next {m : Emit Operand} {f : Operand → Emit β}
    (hm : Scopes P lo known [] opens [] m (fun a => [a]) Operand.IsTemp)
    (hf : ∀ t, Scopes P lo (.temp t :: known) owed opens closes (f (.temp t)) result' R) :
    Scopes P lo known owed opens closes (m >>= f) result' R := by
  refine bind hm ?_
  rintro _ ⟨t, rfl⟩
  exact hf t

section

variable (h : Scopes P lo known owed opens closes m result Q)
include h

theorem imp (himp : ∀ op, P op → P' op) : Scopes P' lo known owed opens closes m result Q := by
  intro e
  obtain ⟨hq, added, hops, hadd, hres⟩ := h e
  exact ⟨hq, added, hops, hadd.imp himp, hres⟩

theorem mono {result' : α → List Operand} (hres : ∀ a, Q a → ∀ o ∈ result' a, o.Usable (result a ++ known))
    {R : α → Prop} (hqr : ∀ a, Q a → R a) :
    Scopes P lo known owed opens closes m result' R := by
  intro e
  obtain ⟨hq, added, hops, hadd, hgiven⟩ := h e
  refine ⟨hqr _ hq, added, hops, hadd, fun o ho => ⟨fun hbds => (hres _ hq o ho).within ?_, ?_⟩⟩
  · exact forall_mem_append.2 ⟨fun o ho => (hgiven o ho).1 hbds,
      fun o ho => (hbds.known o ho).mono hadd.assigning.le hadd.emission.le⟩
  · rintro t rfl
    exact (mem_append.1 (hres _ hq _ ho).ready.mem).elim (fun ht => (hgiven _ ht).2 t rfl) .inl

theorem void : Scopes P lo known owed opens closes m (fun _ => []) fun _ => True :=
  h.mono (by simp) fun _ _ => trivial

theorem map (g : α → β) (hres : ∀ a, Q a → ∀ o ∈ result' (g a), o.Usable (result a ++ known))
    (hr : ∀ a, Q a → R (g a)) :
    Scopes P lo known owed opens closes (g <$> m) result' R :=
  show Scopes P lo known owed opens closes m (fun a => result' (g a)) fun a => R (g a) from h.mono hres hr

end

theorem get {f : Emitter → Emit β} (hf : ∀ e, Scopes P lo known owed opens closes (f e) result' R) :
    Scopes P lo known owed opens closes (MonadState.get >>= f) result' R :=
  fun e => hf e e

theorem ite {_ : Decidable p} (ht : p → Scopes P lo known owed opens closes m result Q)
    (he : ¬p → Scopes P lo known owed opens closes m' result Q) :
    Scopes P lo known owed opens closes (if p then m else m') result Q := by
  split
  · next h => exact ht h
  · next h => exact he h

theorem when {m : Emit Unit} {_ : Decidable p} (hm : p → Scopes P lo known [] opens [] m (fun _ => []) fun _ => True)
    (hrest : Scopes P lo known owed opens closes (rest ()) result' R) :
    Scopes P lo known owed opens closes (if p then m >>= rest else rest ()) result' R :=
  ite (fun h => bind (hm h) fun _ _ => hrest) fun _ => hrest

theorem perm (h : Scopes P lo known owed opens closes m result Q) (hperm : closes.Perm closes') :
    Scopes P lo known owed opens closes' m result Q := by
  intro e
  obtain ⟨hq, added, hops, hadd, hres⟩ := h e
  exact ⟨hq, added, hops, { hadd with emission := hadd.emission.perm hperm }, hres⟩

theorem fresh {f : Operand → Emit β}
    (hf : ∀ n, Scopes P lo (.label n :: known) owed (n :: opens) (n :: closes) (f (.label n)) result' R) :
    Scopes P lo known owed opens closes (freshLabel >>= f) result' R := by
  intro e
  obtain ⟨hr, added, hops, hadd, hres⟩ := hf e.ids.labels (freshLabel.run e).2
  have hgrown : ∀ o : Operand, o.Within lo e.ids → o.Within lo (freshLabel.run e).2.ids :=
    fun o ho => ho.mono (le_refl _) (le_succ _)
  have hbds : Bounds lo known owed e.ids →
      Bounds lo (.label e.ids.labels :: known) owed (freshLabel.run e).2.ids := fun h =>
    ⟨h.temps, le_succ_of_le h.labels, forall_mem_cons.2
      ⟨⟨h.labels, lt_succ_self _⟩, fun o ho => hgrown o (h.known o ho)⟩, fun t ht => hgrown _ (h.owed t ht)⟩
  have hlab : ∀ t, .temp t ∈ .label e.ids.labels :: known → .temp t ∈ known := by simp
  refine ⟨hr, added, hops, ⟨hadd.emission.scope, hadd.assigning.congr hlab, fun h =>
    hadd.within (hbds h)⟩, fun o ho => ⟨fun h => (hres o ho).1 (hbds h), fun t ht => ?_⟩⟩
  exact ((hres o ho).2 t ht).imp_left (hlab t)

theorem forM_closes {xs : List α} {g : α → Emit Unit}
    (h : ∀ x ∈ xs, Scopes P lo known [] opens (c x) (g x) (fun _ => []) fun _ => True) :
    Scopes P lo known [] opens (xs.flatMap c) (xs.forM g) (fun _ => []) fun _ => True := by
  induction xs with
  | nil => exact nop
  | cons x xs ih =>
    exact bind_closes (h x (mem_cons_self ..)) fun _ _ =>
      ih fun y hy => h y (mem_cons_of_mem _ hy)

theorem forM {xs : List α} {g : α → Emit Unit}
    (h : ∀ x ∈ xs, Scopes P lo known [] opens [] (g x) (fun _ => []) fun _ => True) :
    Scopes P lo known [] opens [] (xs.forM g) (fun _ => []) fun _ => True := by
  have hclosed := forM_closes (c := fun _ => []) h
  rwa [flatMap_eq_nil_iff.2 fun _ _ => rfl] at hclosed

theorem mapM {S : α → Operand → Prop} (h : ∀ x ∈ xs, ∀ given : List Operand,
      Scopes P lo (given ++ known) [] opens [] (g x) (fun o => [o]) (S x)) :
    Scopes P lo known [] opens [] (xs.mapM g) id (Forall₂ S xs) := by
  induction xs generalizing known with
  | nil => exact pure .nil (by simp)
  | cons x xs ih =>
    rw [mapM_cons]
    refine bind (h x mem_cons_self []) fun o ho => ?_
    refine bind (ih fun y hy given => ?_) fun _ hos => pure (.cons ho hos) fun _ ho' => ?_
    · have := h y (mem_cons_of_mem _ hy) (given ++ [o])
      rwa [append_assoc] at this
    · obtain rfl | ho' := mem_cons.1 ho'
      · exact .inl (mem_append_right _ mem_cons_self)
      · exact .inl (mem_append_left _ ho')

theorem op (h : P operation) (hcomp : operation.Computes)
    (hdest : ∀ d ∈ operation.dest, d.Settable operation.assigned) (hsrc : ∀ o ∈ operation.sources, o.Usable known)
    (htgts : ∀ n ∈ operation.targets, n ∈ opens) :
    Scopes P lo known operation.assigned opens operation.marks (op operation) (fun _ => operation.dest.toList)
      fun _ => True := by
  intro e
  have hres : Bounds lo known operation.assigned e.ids → ∀ o ∈ operation.dest.toList, o.Within lo e.ids := by
    intro hbds o ho
    obtain ⟨t, ht, rfl⟩ | ⟨hstatic, -⟩ := hdest o (Option.mem_toList.1 ho)
    · exact hbds.owed t ht
    · exact within_of_isStatic hstatic
  refine ⟨trivial, [operation], Array.toList_push, ⟨.singleton h htgts _,
    .singleton hcomp (fun o ho => (hsrc o ho).ready) _, fun hbds => ?_⟩, ?_⟩
  · rw [forall_mem_singleton]
    exact forall_mem_append.2 ⟨hres hbds, fun o ho => (hsrc o ho).within hbds.known⟩
  · refine fun o ho => ⟨fun hbds => hres hbds o ho, ?_⟩
    rintro t rfl
    right
    simp [assigned, Option.mem_toList.1 ho, asTemp?]

section Straight

variable {storage : Storage} {dest : Operand}

theorem straight (h : P operation) (hs : operation.inst.isStraight) (hcomp : operation.Computes)
    (hdest : ∀ d ∈ operation.dest, d.Settable operation.assigned) (hsrc : ∀ o ∈ operation.sources, o.Usable known) :
    Scopes P lo known operation.assigned opens [] (Emit.op operation) (fun _ => operation.dest.toList)
      fun _ => True := by
  have hscp : Scopes P lo known operation.assigned opens operation.marks (Emit.op operation)
      (fun _ => operation.dest.toList) fun _ => True :=
    op h hcomp hdest hsrc (by simp [targets_eq_nil hs])
  rwa [marks_eq_nil hs] at hscp

theorem freshTemp (hf : ∀ t, Scopes P lo known [t] opens closes (f (.temp t)) result' R) :
    Scopes P lo known [] opens closes (Emit.freshTemp >>= f) result' R := by
  intro e
  obtain ⟨hr, added, hops, hadd, hres⟩ := hf e.ids.temps (Emit.freshTemp.run e).2
  have hbds : Bounds lo known [] e.ids → Bounds lo known [e.ids.temps] (Emit.freshTemp.run e).2.ids := fun h =>
    ⟨le_succ_of_le h.temps, h.labels, fun o ho => (h.known o ho).mono (le_succ _) (le_refl _),
      forall_mem_singleton.2 ⟨h.temps, lt_succ_self _⟩⟩
  exact ⟨hr, added, hops, ⟨hadd.emission, hadd.assigning.scope, fun h => hadd.within (hbds h)⟩,
    fun o ho => ⟨fun h => (hres o ho).1 (hbds h), (hres o ho).2⟩⟩

theorem destination (r : Register)
    (hf : ∀ d : Operand, d.Settable d.asTemp?.toList →
      Scopes P lo known d.asTemp?.toList opens closes (f d) result' R) :
    Scopes P lo known [] opens closes (Emit.destination r >>= f) result' R := by
  unfold Emit.destination
  split
  · exact freshTemp fun t => hf (.temp t) (settable_temp t)
  · next h => exact hf (.register r) (.inr ⟨rfl, by simp [isAssignable, h]⟩)

theorem predicateDestination (p : Predicate)
    (hf : ∀ d : Operand, d.Settable d.asTemp?.toList →
      Scopes P lo known d.asTemp?.toList opens closes (f d) result' R) :
    Scopes P lo known [] opens closes (Emit.predicateDestination p >>= f) result' R := by
  unfold Emit.predicateDestination
  split
  · exact freshTemp fun t => hf (.temp t) (settable_temp t)
  · next h => exact hf (.predicate p) (.inr ⟨rfl, by simp [isAssignable, h]⟩)

theorem sets (h : P operation) (hd : operation.inst.hasDestination) (hoper : operation.dest = some dest)
    (hdest : dest.Settable dest.asTemp?.toList) (hsrc : ∀ o ∈ operation.sources, o.Usable known) :
    Scopes P lo known dest.asTemp?.toList opens [] (Emit.op operation) (fun _ => [dest]) fun _ => True := by
  have hassigned : operation.assigned = dest.asTemp?.toList := by rw [assigned, hoper]; rfl
  have hscp : Scopes P lo known operation.assigned opens [] (Emit.op operation) (fun _ => operation.dest.toList)
      fun _ => True := by
    refine straight h (Instruction.isStraight_of_hasDestination hd) (fun _ => hd) ?_ hsrc
    rw [hassigned, hoper]
    rintro _ ⟨⟩
    exact hdest
  rwa [hassigned, hoper] at hscp

theorem assign (h : P ⟨inst, .none, some dest, sources⟩) (hd : inst.hasDestination)
    (hdest : dest.Settable dest.asTemp?.toList) (hsrc : ∀ o ∈ sources, o.Usable known) :
    Scopes P lo known dest.asTemp?.toList opens [] (Emit.assign dest inst sources) (fun _ => []) fun _ => True :=
  (sets h hd rfl hdest hsrc).void

theorem loadInto (h : P ⟨.load, storage, some dest, sources⟩)
    (hdest : dest.Settable dest.asTemp?.toList) (hsrc : ∀ o ∈ sources, o.Usable known) :
    Scopes P lo known dest.asTemp?.toList opens [] (Emit.loadInto dest storage sources) (fun _ => []) fun _ => True :=
  (sets h rfl rfl hdest hsrc).void

theorem assigned {f : Operand → Emit Unit}
    (hf : ∀ t, Scopes P lo known [t] opens [] (f (.temp t)) (fun _ => [.temp t]) fun _ => True) :
    Scopes P lo known [] opens [] (do let d ← Emit.freshTemp; f d; return d) (fun a => [a]) Operand.IsTemp := by
  refine freshTemp fun t => ?_
  have hbind : Scopes P lo known ([t] ++ []) opens ([] ++ []) (do f (.temp t); return .temp t) (fun a => [a])
      Operand.IsTemp := bind_closes (hf t) fun _ _ => pure ⟨t, rfl⟩ (by simp)
  exact hbind

theorem value (h : ∀ t, P ⟨inst, .none, some (.temp t), sources⟩) (hd : inst.hasDestination)
    (hsrc : ∀ o ∈ sources, o.Usable known) :
    Scopes P lo known [] opens [] (Emit.value inst sources) (fun a => [a]) Operand.IsTemp :=
  assigned fun t => sets (h t) hd rfl (settable_temp t) hsrc

theorem load (h : ∀ t, P ⟨.load, storage, some (.temp t), sources⟩) (hsrc : ∀ o ∈ sources, o.Usable known) :
    Scopes P lo known [] opens [] (Emit.load storage sources) (fun a => [a]) Operand.IsTemp :=
  assigned fun t => sets (h t) rfl rfl (settable_temp t) hsrc

theorem effect (h : P ⟨inst, storage, none, sources⟩) (hs : inst.isStraight) (hsrc : ∀ o ∈ sources, o.Usable known) :
    Scopes P lo known [] opens [] (Emit.op ⟨inst, storage, none, sources⟩) (fun _ => []) fun _ => True :=
  straight h hs (computes_of_dest rfl) (by simp) hsrc

end Straight

theorem control (h : P ⟨inst, .none, none, sources⟩) (hsrc : ∀ o ∈ sources, o.Usable known)
    (htgts : ∀ n ∈ targets ⟨inst, .none, none, sources⟩, n ∈ opens) :
    Scopes P lo known [] opens (marks ⟨inst, .none, none, sources⟩) (Emit.effect inst sources)
      (fun _ => []) fun _ => True :=
  op h (computes_of_dest rfl) (by simp) hsrc htgts

theorem ret (h : P ⟨.ret, .none, none, []⟩) : Scopes P lo known [] opens [] ret (fun _ => []) fun _ => True :=
  control h (by simp) (by simp [Operation.targets, Operation.label, Operation.source?])

theorem markLabel (h : P ⟨.markLabel, .none, none, [.label n]⟩) (hn : label n ∈ known) :
    Scopes P lo known [] opens [n] (markLabel (.label n)) (fun _ => []) fun _ => True :=
  control h (by simpa using .inl hn) (by simp [targets, Instruction.isTerminator])

theorem branching (h : P ⟨inst, .none, none, .label n :: rest⟩) (hinst : inst.isTerminator) (hopen : n ∈ opens)
    (hn : Operand.label n ∈ known) (hrest : ∀ o ∈ rest, o.Usable known) :
    Scopes P lo known [] opens [] (Emit.effect inst (.label n :: rest)) (fun _ => []) fun _ => True := by
  have hmarks : marks ⟨inst, .none, none, .label n :: rest⟩ = [] := by
    refine if_neg ?_
    rintro (rfl : inst = .markLabel)
    cases hinst
  have hscp : Scopes P lo known [] opens (marks ⟨inst, .none, none, .label n :: rest⟩)
      (Emit.effect inst (.label n :: rest)) (fun _ => []) fun _ => True := by
    refine control h (forall_mem_cons.2 ⟨.inl hn, hrest⟩) fun k hk => ?_
    obtain rfl : k = n := by
      simpa [Operation.targets, hinst, Operation.label, Operation.source?, Operand.asLabel?] using hk
    exact hopen
  rwa [hmarks] at hscp

end Scopes
end ShaderRecompiler
