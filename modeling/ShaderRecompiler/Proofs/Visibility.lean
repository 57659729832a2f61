import ShaderRecompiler.Proofs.Declarations
import ShaderRecompiler.Proofs.Printing
import ShaderRecompiler.Proofs.SingleAssignment

/-! Where temporaries are visible. A temporary that is not declared ahead is declared by the
operation that assigns it. That operation then stands at one place of the written statements, and
whatever reads the temporary stands behind it in the same list: a block is written in one piece,
with the test at its end right behind it. -/
namespace ShaderRecompiler

open List Operation Stmt

theorem eq_of_nodup_flatMap {α β : Type} {l : List α} {f : α → List β} (h : (l.flatMap f).Nodup) {x y : α} {t : β}
    (hx : x ∈ l) (hy : y ∈ l) (htx : t ∈ f x) (hty : t ∈ f y) : x = y := by
  have : Std.Symm (Function.onFun Disjoint f) := ⟨fun _ _ hdisj _ hx hy => hdisj hy hx⟩
  by_contra hne
  exact (nodup_flatMap.1 h).2.forall hx hy hne htx hty

namespace Routine

variable {r : Routine} {a b t : Nat} {id : OpId}

theorem live_flatMap (r : Routine) (f : Operation → List β) :
    r.live.flatMap f = r.allOps.flatMap fun x => f (r.op x.2) := by
  rw [live, allOps, flatMap_assoc, flatMap_assoc]
  simp only [code, flatMap_map]

/-- An operation that assigns the temporary, and its block. -/
structure Assigns (r : Routine) (t b : Nat) (id : OpId) : Prop where
  block_lt : b < r.blocks.size
  mem : id ∈ r.blockOps b
  assigned : t ∈ (r.op id).assigned

theorem mem_assignments : (t, b, id) ∈ r.assignments ↔ r.Assigns t b id := by
  simp only [assignments, mem_filterMap, Prod.exists, Option.map_eq_some_iff, Prod.mk.injEq]
  constructor
  · rintro ⟨b, id, hmem, t, ht, rfl, rfl, rfl⟩
    obtain ⟨hb, hid⟩ := mem_allOps.1 hmem
    exact ⟨hb, hid, Option.mem_toList.2 ht⟩
  · rintro ⟨hb, hid, ht⟩
    exact ⟨b, id, mem_allOps.2 ⟨hb, hid⟩, t, Option.mem_toList.1 ht, rfl, rfl, rfl⟩

theorem mem_assigned_code : t ∈ (r.code b).flatMap assigned ↔ ∃ id ∈ r.blockOps b, t ∈ (r.op id).assigned := by
  simp only [code, mem_flatMap, mem_map, exists_exists_and_eq_and]

theorem Assigns.unique {id' : OpId} (honce : SingleAssignment r.live) (h : r.Assigns t a id) (h' : r.Assigns t b id') :
    a = b ∧ id = id' := by
  rw [SingleAssignment, live_flatMap] at honce
  have heq := eq_of_nodup_flatMap honce (mem_allOps.2 ⟨h.block_lt, h.mem⟩) (mem_allOps.2 ⟨h'.block_lt, h'.mem⟩)
    h.assigned h'.assigned
  exact ⟨congrArg Prod.fst heq, congrArg Prod.snd heq⟩

theorem getD_foldl_modify (ids : List OpId) (counts : Array Nat) (h : id < counts.size) :
    (ids.foldl (fun counts id => counts.modify id (· + 1)) counts).getD id 0 = counts.getD id 0 + ids.count id := by
  induction ids generalizing counts with
  | nil => rfl
  | cons first ids ih =>
    rw [foldl_cons, ih _ (by simpa using h), count_cons]
    by_cases hid : first = id
    · subst hid
      simp [Array.getD, h, Array.getElem_modify]
      omega
    · simp [Array.getD, h, hid, Array.getElem_modify]

theorem getElem?_foldl_insert (assignments : List (Nat × Nat × OpId)) (home : Std.HashMap Nat Nat)
    (hone : ∀ x ∈ assignments, x.1 = t → x.2.1 = a)
    (h : home[t]? = some a ∨ ∃ x ∈ assignments, x.1 = t) :
    (assignments.foldl (fun home x => home.insert x.1 x.2.1) home)[t]? = some a := by
  induction assignments generalizing home with
  | nil => simpa using h
  | cons first assignments ih =>
    obtain ⟨hfst, hone⟩ := forall_mem_cons.1 hone
    refine ih _ hone ?_
    rw [Std.HashMap.getElem?_insert]
    split
    · next heq => exact .inl (congrArg some (hfst (by simpa using heq)))
    · next hne =>
      refine h.imp_right ?_
      rintro ⟨x, hx, hxt⟩
      obtain rfl | hx := mem_cons.1 hx
      · exact absurd (by simpa using hxt) hne
      · exact ⟨x, hx, hxt⟩

theorem mem_predeclared_of_repeated (hlink : r.WellLinked) (h : r.Assigns t b id)
    (hcnt : 1 < (opsOf body).count id) : t ∈ r.predeclaredTemps body := by
  refine Ascending.mem_ofList.2 (mem_append_left _ (mem_filterMap.2 ⟨_, mem_assignments.2 h, ?_⟩))
  have hid := hlink.lt b id h.mem
  dsimp only
  rw [getD_foldl_modify _ _ (by simpa using hid)]
  simp [Array.getD, hid, hcnt]

theorem mem_predeclared_of_read (honce : SingleAssignment r.live) {op : Operation} (hb : b < r.blocks.size)
    (hop : op ∈ r.code b) (ht : t ∈ op.reads) (h : r.Assigns t a id) (hab : a ≠ b) : t ∈ r.predeclaredTemps body := by
  obtain ⟨reader, hreader, rfl⟩ := mem_map.1 hop
  refine Ascending.mem_ofList.2 (mem_append_right _
    (mem_flatMap.2 ⟨_, mem_allOps.2 ⟨hb, hreader⟩, mem_filter.2 ⟨ht, ?_⟩⟩))
  have hhome : (r.assignments.foldl (fun home x => home.insert x.1 x.2.1) ({} : Std.HashMap Nat Nat))[t]? = some a := by
    refine getElem?_foldl_insert _ _ (fun x hx hxt => ?_) (.inr ⟨_, mem_assignments.2 h, rfl⟩)
    obtain ⟨t, c, other⟩ := x
    obtain rfl : t = _ := hxt
    exact (h.unique honce (mem_assignments.1 hx)).1.symm
  exact (congrArg (Option.any (· != b)) hhome).trans (by simpa using hab)

/-- Temporaries are handed out and assigned once, and what a block reads is assigned before or
in another block. -/
structure Settled (r : Routine) : Prop where
  linked : r.WellLinked
  closed : r.Closed
  once : SingleAssignment r.live
  below : ∀ t ∈ r.live.flatMap assigned, t < r.ids.temps
  reads : r.ReadsFrom (· ≠ ·)

/-- Routing adds blocks that read only what they assign, or what is declared ahead anyway. -/
theorem Settled.singleExitLoops (h : r.Settled)
    (hroute : singleExitLoops exit rounds r [] = .ok (r', loops)) : r'.Settled := by
  refine (singleExitLoops_linked (P := Settled) (fun r _ hloop hr => ?_) h.linked h hroute).2
  obtain ⟨honce, hbelow⟩ := once_routeExits hr.once hr.below hloop
  exact {
    linked := (views_routeExits hloop).1
    closed := hr.closed.routeExits hloop
    once := honce
    below := hbelow
    reads := hr.reads.routeExits hloop fun _ _ _ _ hne => hne }

theorem Settled.mem_before (h : r.Settled) (hb : b < r.blocks.size) {before after : List Operation} {op : Operation}
    (hcode : r.code b = before ++ op :: after) (ht : t ∈ op.reads) (hahead : t ∉ r.predeclaredTemps body) :
    t ∈ before.flatMap assigned := by
  refine (h.reads b hb before op after hcode t ht).resolve_right ?_
  rintro ⟨a, ha, hassigned, hne⟩
  obtain ⟨id, hid, hta⟩ := mem_assigned_code.1 hassigned
  exact hahead (mem_predeclared_of_read h.once hb (by simp [hcode]) ht ⟨ha, hid, hta⟩ hne)

end Routine

namespace Stmt

variable {r : Routine} {known : List Nat} {yes no : List Stmt}

/-- The temporaries that are read where the statement stands, not in its bodies. -/
def reads (r : Routine) : Stmt → List Nat
  | op id => (r.op id).reads
  | cond test _ _ _ => test.asTemp?.toList
  | loop _ | breakLoop | continueLoop | ret => []

def assigned (r : Routine) : Stmt → List Nat
  | op id => (r.op id).assigned
  | cond .. | loop _ | breakLoop | continueLoop | ret => []

mutual

/-- The bodies inside a statement, at any depth. -/
def bodies : Stmt → List (List Stmt)
  | cond _ _ yes no => yes :: no :: (bodiesOf yes ++ bodiesOf no)
  | loop body => body :: bodiesOf body
  | op _ | breakLoop | continueLoop | ret => []

def bodiesOf : List Stmt → List (List Stmt)
  | [] => []
  | stmt :: rest => bodies stmt ++ bodiesOf rest

end

/-- A program and all bodies in it. -/
def lists (program : List Stmt) : List (List Stmt) := program :: bodiesOf program

theorem bodiesOf_append (xs ys : List Stmt) : bodiesOf (xs ++ ys) = bodiesOf xs ++ bodiesOf ys := by
  induction xs with
  | nil => rfl
  | cons stmt xs ih => rw [cons_append, bodiesOf, ih, bodiesOf, append_assoc]

theorem bodiesOf_map_op (ids : List OpId) : bodiesOf (ids.map op) = [] := by
  induction ids with
  | nil => rfl
  | cons id ids ih => rw [map_cons, bodiesOf, ih]; rfl

section Covered

mutual

theorem Covered.bodies (stmt : Stmt) (h : Covered P T stmt) : ∀ l ∈ bodies stmt, CoveredAll P T l := by
  cases stmt with
  | cond _ _ yes no =>
    obtain ⟨-, hyes, hno⟩ := h
    simp only [bodies, forall_mem_cons, forall_mem_append]
    exact ⟨hyes, hno, CoveredAll.bodiesOf yes hyes, CoveredAll.bodiesOf no hno⟩
  | loop body => exact forall_mem_cons.2 ⟨h, CoveredAll.bodiesOf body h⟩
  | op | breakLoop | continueLoop | ret => simp [bodies]

theorem CoveredAll.bodiesOf (xs : List Stmt) (h : CoveredAll P T xs) : ∀ l ∈ bodiesOf xs, CoveredAll P T l := by
  cases xs with
  | nil => simp [bodiesOf]
  | cons stmt rest =>
    exact forall_mem_append.2 ⟨Covered.bodies stmt h.1, CoveredAll.bodiesOf rest h.2⟩

end

theorem CoveredAll.lists (h : CoveredAll P T xs) : ∀ l ∈ lists xs, ∀ stmt ∈ l, Covered P T stmt :=
  fun l hl => coveredAll_iff.1 (forall_mem_cons.2 ⟨h, h.bodiesOf⟩ l hl)

end Covered

mutual

theorem mem_ops (stmt : Stmt) (id : OpId) : id ∈ ops stmt ↔ stmt = op id ∨ ∃ l ∈ bodies stmt, op id ∈ l := by
  cases stmt with
  | op other => simp [ops, bodies, eq_comm]
  | cond _ _ yes no =>
    simp only [ops, bodies, mem_append, mem_cons, mem_opsOf_iff yes, mem_opsOf_iff no, reduceCtorEq, false_or,
      or_and_right, exists_or, exists_eq_left]
    exact or_or_or_comm.trans or_assoc
  | loop body => simp [ops, bodies, mem_opsOf_iff body]
  | breakLoop | continueLoop | ret => simp [ops, bodies]

theorem mem_opsOf_iff (xs : List Stmt) (id : OpId) : id ∈ opsOf xs ↔ op id ∈ xs ∨ ∃ l ∈ bodiesOf xs, op id ∈ l := by
  cases xs with
  | nil => simp [opsOf, bodiesOf]
  | cons stmt rest =>
    simp only [opsOf, bodiesOf, mem_append, mem_cons, mem_ops stmt, mem_opsOf_iff rest, or_and_right,
      exists_or, @eq_comm _ (op id)]
    exact or_or_or_comm

end

theorem mem_opsOf {id : OpId} : id ∈ opsOf xs ↔ ∃ l ∈ lists xs, op id ∈ l := by
  simp [mem_opsOf_iff, lists]

/-- Statements of a list read what is known before it or assigned in it before them. -/
def Ordered (r : Routine) : List Nat → List Stmt → Prop
  | _, [] => True
  | known, stmt :: rest => stmt.reads r ⊆ known ∧ Ordered r (known ++ stmt.assigned r) rest

theorem Ordered.mono (h : Ordered r known xs) (hk : known ⊆ known') : Ordered r known' xs := by
  induction xs generalizing known known' with
  | nil => trivial
  | cons stmt xs ih =>
    refine ⟨Subset.trans h.1 hk, ih h.2 (append_subset.2 ⟨?_, subset_append_right ..⟩)⟩
    exact Subset.trans hk (subset_append_left ..)

theorem ordered_append : Ordered r known (xs ++ ys) ↔
    Ordered r known xs ∧ Ordered r (known ++ xs.flatMap (assigned r)) ys := by
  induction xs generalizing known with
  | nil => simp [Ordered]
  | cons stmt xs ih => simp only [cons_append, Ordered, ih, flatMap_cons, append_assoc, and_assoc]

theorem Ordered.append (hxs : Ordered r known xs) (hys : Ordered r known ys) : Ordered r known (xs ++ ys) :=
  ordered_append.2 ⟨hxs, hys.mono (subset_append_left ..)⟩

theorem Ordered.mem_before (h : Ordered r known xs)
    (hxs : xs = front ++ stmt :: back) (ht : t ∈ stmt.reads r) : t ∈ known ∨ t ∈ front.flatMap (assigned r) := by
  subst hxs
  exact mem_append.1 ((ordered_append.1 h).2.1 ht)

def OrderedAll (r : Routine) (known : List Nat) (program : List Stmt) : Prop :=
  ∀ l ∈ lists program, Ordered r known l

theorem orderedAll_iff : OrderedAll r known xs ↔ Ordered r known xs ∧ ∀ l ∈ bodiesOf xs, Ordered r known l :=
  forall_mem_cons

theorem OrderedAll.append (hxs : OrderedAll r known xs) (hys : OrderedAll r known ys) :
    OrderedAll r known (xs ++ ys) := by
  rw [orderedAll_iff] at hxs hys ⊢
  refine ⟨hxs.1.append hys.1, ?_⟩
  rw [bodiesOf_append]
  exact forall_mem_append.2 ⟨hxs.2, hys.2⟩

theorem OrderedAll.dropFinal (h : OrderedAll r known xs) (isFinal : Stmt → Bool) :
    OrderedAll r known (dropFinal isFinal xs) := by
  obtain heq | ⟨init, last, -, rfl, heq⟩ := dropFinal_cases isFinal xs
  · rwa [heq]
  · rw [orderedAll_iff, ordered_append, bodiesOf_append, forall_mem_append] at h
    rw [heq]
    exact orderedAll_iff.2 ⟨h.1.1, h.2.1⟩

theorem OrderedAll.loop (h : OrderedAll r known xs) : OrderedAll r known [loop xs] := by
  refine orderedAll_iff.2 ⟨⟨nil_subset _, trivial⟩, ?_⟩
  simpa [bodiesOf, bodies] using orderedAll_iff.1 h

/-- The operations of a block, as far as they are written, are in the order of its code. -/
theorem ordered_map_op {ids : List OpId} (h : ∀ before op after, ids.map r.op = before ++ op :: after → ∀ t ∈ op.reads,
      t ∈ known ∨ t ∈ before.flatMap Operation.assigned) : Ordered r known (ids.map op) := by
  induction ids generalizing known with
  | nil => trivial
  | cons id ids ih =>
    refine ⟨fun t ht => ?_, ih fun before op after heq t ht => ?_⟩
    · simpa using h [] (r.op id) (ids.map r.op) rfl t ht
    · have hread := h (r.op id :: before) op after (by rw [map_cons, heq]; rfl) t ht
      rw [flatMap_cons, mem_append, ← or_assoc] at hread
      exact hread.imp_left mem_append.2

theorem ordered_branching {test : Operand} (invert meets : Bool) (yes : List Stmt)
    (htest : test.asTemp?.toList ⊆ known) (hno : Ordered r known no) :
    Ordered r known (branching test invert meets yes no) := by
  have hnone : ∀ yes no : List Stmt, ∀ invert, Ordered r known [cond test invert yes no] :=
    fun _ _ _ => ⟨htest, trivial⟩
  unfold branching
  split
  · trivial
  · exact hnone ..
  · split
    · exact (hnone ..).append hno
    · exact hnone ..

theorem mem_bodiesOf_branching
    (h : l ∈ bodiesOf (branching test invert meets yes no)) : l = [] ∨ l ∈ lists yes ∨ l ∈ lists no := by
  unfold branching at h
  split at h
  · cases h
  · simp only [bodiesOf, bodies, append_nil, mem_cons, lists] at h ⊢
    tauto
  · split at h <;> simp only [bodiesOf, bodies, append_nil, mem_append, mem_cons, lists] at h ⊢ <;> tauto

end Stmt

namespace Layout

open Stmt (Ordered OrderedAll)

/-- Blocks that are in order are written in order, each with its test right behind it. -/
theorem Writes.orderedAll {s : Layout} {loops : List Loop} (h : s.Writes start stop loops entering body n)
    (hblk : ∀ b, Ordered s.routine known (s.plainOps b))
    (htest : ∀ b cond invert, s.leave b = .ok (.test cond invert) →
      cond.asTemp?.toList ⊆ known ++ (s.plainOps b).flatMap (assigned s.routine)) :
    OrderedAll s.routine known body := by
  have hemp : OrderedAll s.routine known [] := orderedAll_iff.2 ⟨trivial, by simp [bodiesOf]⟩
  have hpln : ∀ b, OrderedAll s.routine known (s.plainOps b) := fun b =>
    orderedAll_iff.2 ⟨hblk b, by simp [plainOps_eq, bodiesOf_map_op]⟩
  have hjump : ∀ j, j = .continueLoop ∨ j = .breakLoop ∨ j = .ret → OrderedAll s.routine known [j] := by
    rintro j (rfl | rfl | rfl) <;>
      exact orderedAll_iff.2 ⟨⟨nil_subset _, trivial⟩, by simp [bodiesOf, bodies]⟩
  induction h with
  | nowhere | arrived => exact hemp
  | jump _ hjumps =>
    obtain ⟨l, outer, rfl, ⟨rfl, -, -⟩ | ⟨rfl, -⟩⟩ := jump?_eq_some hjumps
    · exact hjump _ (.inl rfl)
    · exact hjump _ (.inr (.inl rfl))
  | loop _ _ _ _ _ ihbody ihrest =>
    exact (ihbody.dropFinal isContinue).loop.append ihrest
  | @ret b => exact (hpln b).append (hjump _ (.inr (.inr rfl)))
  | @goto b _ _ _ _ _ _ _ _ _ _ _ ihrest => exact (hpln b).append ihrest
  | @test b _ _ _ cond invert _ _ _ _ _ _ _ _ _ hlv _ _ _ ihyes ihno ihrest =>
    refine OrderedAll.append (orderedAll_iff.2 ⟨?_, ?_⟩) ihrest
    · refine ordered_append.2 ⟨hblk b, ordered_branching _ _ _ (htest b cond invert hlv) ?_⟩
      exact (orderedAll_iff.1 ihno).1.mono (subset_append_left ..)
    · rw [bodiesOf_append, forall_mem_append]
      refine ⟨(orderedAll_iff.1 (hpln b)).2, fun l hl => ?_⟩
      obtain rfl | hl | hl := mem_bodiesOf_branching hl
      · trivial
      · exact ihyes l hl
      · exact ihno l hl

theorem code_eq {s : Layout} (hlink : s.routine.WellLinked) (hclosed : s.routine.Closed) (b : Nat) :
    s.routine.code b = (s.plainIds b).map s.routine.op ++ (s.terminator? b).toList := by
  obtain ⟨hids, hterm, -⟩ | ⟨id, hids, hterm, -⟩ := s.block_cases (hclosed.plain hlink b)
  · rw [Routine.code, hids, hterm, Option.toList_none, append_nil]
  · rw [Routine.code, hids, hterm, map_append]
    rfl

theorem flatMap_plainOps (s : Layout) (b : Nat) : (s.plainOps b).flatMap (assigned s.routine) =
    ((s.plainIds b).map s.routine.op).flatMap assigned := by
  rw [plainOps_eq, flatMap_map, flatMap_map]
  rfl

end Layout

namespace Routine

/-- In every list of the written statements, what is read is declared ahead or assigned before. -/
theorem Settled.orderedAll {r : Routine} (h : r.Settled) {loops : List Loop}
    (hwrites : (r.layout exit loops).Writes (some 0) none [] false body n) (isFinal : Stmt → Bool) :
    Stmt.OrderedAll r (r.predeclaredTemps (Stmt.dropFinal isFinal body)) (Stmt.dropFinal isFinal body) := by
  have hcode := Layout.code_eq (s := r.layout exit loops) h.linked h.closed
  have hread : ∀ b before op after, r.code b = before ++ op :: after → ∀ t ∈ op.reads,
      t ∈ r.predeclaredTemps (Stmt.dropFinal isFinal body) ∨ t ∈ before.flatMap Operation.assigned := by
    intro b before op after hspl t ht
    have hb : b < r.blocks.size := by
      by_contra hb
      rw [code, blockOps_of_size_le h.linked (Nat.le_of_not_lt hb)] at hspl
      simp at hspl
    exact or_iff_not_imp_left.2 (h.mem_before hb hspl ht)
  refine Stmt.OrderedAll.dropFinal (hwrites.orderedAll (fun b => ?_) fun b cond _ hlv t ht => ?_) isFinal
  · refine Stmt.ordered_map_op fun before op after heq =>
      hread b before op (after ++ ((r.layout exit loops).terminator? b).toList) ?_
    exact (hcode b).trans (by rw [Layout.plainIds, heq, append_assoc, cons_append])
  · obtain ⟨op, hterm, hsrc⟩ := Layout.source_of_leave hlv
    rw [mem_append, Layout.flatMap_plainOps]
    refine hread b _ op [] ((hcode b).trans (by rw [hterm]; rfl)) t ?_
    exact mem_filterMap.2 ⟨cond, mem_of_getElem? hsrc, Option.mem_toList.1 ht⟩

/-- An operation that assigns a temporary which is not declared ahead is written once, and no other
one assigns it. -/
theorem Settled.countP_assigned {r : Routine} (h : r.Settled) {id : OpId}
    (hbody : ∀ id ∈ opsOf body, ∃ b < r.blocks.size, id ∈ r.blockOps b) (hid : id ∈ opsOf body)
    (ht : t ∈ (r.op id).assigned) (hahead : t ∉ r.predeclaredTemps body) :
    (opsOf body).countP (fun id => decide (t ∈ (r.op id).assigned)) = 1 := by
  obtain ⟨b, hb, hmem⟩ := hbody id hid
  have hassigns : r.Assigns t b id := ⟨hb, hmem, ht⟩
  have hsame : ∀ id' ∈ opsOf body, decide (t ∈ (r.op id').assigned) ↔ (id' == id) := by
    intro id' hid'
    rw [decide_eq_true_iff, beq_iff_eq]
    refine ⟨fun ht' => ?_, fun heq => heq ▸ ht⟩
    obtain ⟨b', hb', hmem'⟩ := hbody id' hid'
    exact (Assigns.unique h.once ⟨hb', hmem', ht'⟩ hassigns).2
  rw [countP_congr hsame]
  have hpos : 0 < (opsOf body).count id := count_pos_iff.2 hid
  have hle : ¬ 1 < (opsOf body).count id := fun hlt =>
    hahead (mem_predeclared_of_repeated h.linked hassigns hlt)
  change (opsOf body).count id = 1
  omega

end Routine

/-- The operands that are read or written where the statement stands. -/
def Stmt.operands (r : Routine) : Stmt → List Operand
  | op id => (r.op id).operands
  | cond test _ _ _ => [test]
  | loop _ | breakLoop | continueLoop | ret => []

/-- Names are declared where they are visible: a temporary by the operation that assigns it, ahead
of its readers in their list, and the others once at the head of the main function. -/
structure Structured.Declares (p : Structured) (r : Routine) : Prop where
  once : ∀ l ∈ lists p.body, ∀ stmt ∈ l, ∀ t, t ∈ stmt.assigned r ∨ t ∈ stmt.reads r → t ∉ p.predeclared →
    (opsOf p.body).countP (fun id => decide (t ∈ (r.op id).assigned)) = 1
  before : ∀ l ∈ lists p.body, ∀ front stmt back, l = front ++ stmt :: back →
    ∀ t ∈ stmt.reads r, t ∉ p.predeclared → t ∈ front.flatMap (assigned r)
  ahead : ∀ x, ∀ t ∈ p.predeclared, Glsl.Scope.DeclaresOnce ⟨x, .ofRoutine x r, p.predeclared⟩ r (.temp t)
  operands : ∀ x, ∀ l ∈ lists p.body, ∀ stmt ∈ l, ∀ o ∈ stmt.operands r, o.isVariable →
    Glsl.Scope.DeclaresOnce ⟨x, .ofRoutine x r, p.predeclared⟩ r o
  head : ∀ x text, Glsl.source x r p = .ok text → ∃ before body, text = Glsl.Lines.render (before ++
    "void main()" :: Glsl.Lines.block (Glsl.Scope.declarations ⟨x, .ofRoutine x r, p.predeclared⟩ r ++ body) "")

namespace Routine

variable {r r' : Routine} {p : Structured}

theorem covered_written (hlink : r.WellLinked) (hwrites : (r.layout exit loops).Writes (some 0) none [] false body n) :
    CoveredAll (fun id => ∃ b < r.blocks.size, id ∈ r.blockOps b)
      (fun o => ∃ b < r.blocks.size, ∃ op ∈ r.code b, o ∈ op.operands) body := by
  have hlt : ∀ b, ∀ id ∈ r.blockOps b, b < r.blocks.size := by
    intro b id hid
    by_contra hb
    rw [blockOps_of_size_le hlink (Nat.le_of_not_lt hb)] at hid
    cases hid
  refine hwrites.covered (fun b id hid => ⟨b, hlt b id hid, hid⟩) fun b _ _ hlv => ?_
  obtain ⟨op, hterm, hsrc⟩ := Layout.source_of_leave hlv
  obtain ⟨id, hid, rfl⟩ := mem_map.1 (Layout.mem_of_terminator? hterm).1
  exact ⟨b, hlt b id hid, _, mem_map_of_mem hid, mem_append_right _ (mem_of_getElem? hsrc)⟩

theorem IsSsa.settled (h : r.IsSsa) (hlink : r.WellLinked) (hclosed : r.Closed)
    (hbelow : ∀ t ∈ r.live.flatMap assigned, t < r.ids.temps) : r.Settled where
  linked := hlink
  closed := hclosed
  once := h.once
  below := hbelow
  reads b hb before op after hspl t ht := by
    refine (h.defined b hb before op after hspl t ht).imp_right ?_
    rintro ⟨a, ha, hne, hassigned, -⟩
    exact ⟨a, ha, hassigned, hne⟩

/-- In a routine in single assignment form whose temporaries were all handed out, structuring
leaves every name declared where it is read and written. -/
theorem structured_declares {ops : List Operation} {ids : Ids} (hr : ofOperations ops ids = .ok r) (hssa : r.IsSsa)
    (hbelow : ∀ t ∈ r.live.flatMap Operation.assigned, t < r.ids.temps) (h : r.structured = .ok (p, r')) :
    p.Declares r' := by
  have hpos := blocks_pos_ofOperations hr
  obtain ⟨loops, body, n, hroute, hwrites, hbody, hpredeclared⟩ := structured_eq hpos h
  have hsettled := (hssa.settled (WellLinked.ofOperations hr) (Closed.ofOperations hr) hbelow).singleExitLoops hroute
  have hnodup : p.predeclared.Nodup := hpredeclared ▸ Ascending.nodup_ofList _
  have hordered : Stmt.OrderedAll r' p.predeclared p.body := by
    rw [hpredeclared, hbody]
    exact hsettled.orderedAll hwrites Stmt.isRet
  have hcovered := (hbody ▸ (covered_written hsettled.linked hwrites).dropFinal Stmt.isRet :
    Stmt.CoveredAll _ _ p.body)
  have hops : ∀ id ∈ Stmt.opsOf p.body, ∃ b < r'.blocks.size, id ∈ r'.blockOps b := by
    intro id hid
    obtain ⟨l, hl, hop⟩ := Stmt.mem_opsOf.1 hid
    exact hcovered.lists l hl _ hop
  have honce : ∀ l ∈ Stmt.lists p.body, ∀ stmt ∈ l, ∀ t ∈ stmt.assigned r', t ∉ p.predeclared →
      (Stmt.opsOf p.body).countP (fun id => decide (t ∈ (r'.op id).assigned)) = 1 := by
    intro l hl stmt hstmt t ht hahead
    cases stmt with
    | op id => exact hsettled.countP_assigned hops (Stmt.mem_opsOf.2 ⟨l, hl, hstmt⟩) ht (hpredeclared ▸ hahead)
    | _ => cases ht
  refine ⟨?_, ?_, ?_, ?_, ?_⟩
  · rintro l hl stmt hstmt t (ht | ht) hahead
    · exact honce l hl stmt hstmt t ht hahead
    · obtain ⟨front, back, rfl⟩ := List.append_of_mem hstmt
      obtain ⟨other, hother, ht⟩ :=
        List.mem_flatMap.1 (((hordered _ hl).mem_before rfl ht).resolve_left hahead)
      exact honce _ hl other (List.mem_append_left _ hother) t ht hahead
  · intro l hl front stmt back hsplit t ht hahead
    exact ((hordered l hl).mem_before hsplit ht).resolve_left hahead
  · exact fun x t ht => Glsl.Scope.declaresOnce_temp hnodup ht
  · intro x l hl stmt hstmt o ho hvariable
    have hstmt := hcovered.lists l hl stmt hstmt
    cases stmt with
    | op id =>
      obtain ⟨b, hb, hid⟩ := hstmt
      exact Glsl.Scope.declaresOnce_operand hnodup hb (List.mem_map_of_mem hid) ho hvariable
    | cond test invert yes no =>
      obtain ⟨b, hb, op, hop, htest⟩ := hstmt.1
      exact Glsl.Scope.declaresOnce_operand hnodup hb hop (List.mem_singleton.1 ho ▸ htest) hvariable
    | _ => cases ho
  · exact fun x text => Glsl.source_eq_ok

end Routine

namespace StageContext

/-- Two ways lead to the fifth block, and a third one past it, so that it is written twice. -/
def forking : StageContext :=
  let program : Guest.Program :=
    { blocks :=
        [ ⟨0, [⟨0, { predicate := ⟨0⟩ }, .bra 24⟩]⟩, ⟨8, [⟨8, { predicate := ⟨1⟩ }, .bra 48⟩]⟩,
          ⟨16, [⟨16, {}, .bra 32⟩]⟩,
          ⟨24, [⟨24, {}, .ld ⟨4⟩ 1 (.global 0) ⟨0⟩ 4⟩]⟩,
          ⟨32, [⟨32, {}, .ld ⟨4⟩ 1 (.global 0) ⟨4⟩ 8⟩, ⟨40, {}, .exit⟩]⟩,
          ⟨48, [⟨48, {}, .exit⟩]⟩ ] }
  ofProgram program { stage := .compute } {} {}

def forkingLowered : Lowered :=
  (forking.lower false (forking.beginLocalMemory (forking.resources false)) {} {}).toOption.get (by decide +kernel)

def forkingRoutine : Routine :=
  (Routine.ofOperations forkingLowered.ops forkingLowered.ids).toOption.get (by decide +kernel)

end StageContext

namespace Routine

open StageContext in
theorem structured_declares_forking : forkingRoutine.IsSsa ∧
    ∃ p r', forkingRoutine.structured = .ok (p, r') ∧ ¬ (Stmt.opsOf p.body).Nodup ∧ p.Declares r' := by
  have hops : Assembled forkingLowered.ops forkingLowered.ids := .alone (lower_ok (eq_ok_get _))
  have hr : ofOperations forkingLowered.ops forkingLowered.ids = .ok forkingRoutine := eq_ok_get _
  have horderly := Orderly.ofOperations hops hr
  have hssa := horderly.isSsa fun b => reachable_ofOperations (b := b) hr
  obtain ⟨⟨p, r'⟩, hs⟩ : ∃ structured, forkingRoutine.structured = .ok structured :=
    ⟨_, eq_ok_get (by decide +kernel)⟩
  have htwice : forkingRoutine.structured.toOption.any (fun x => decide (¬ (Stmt.opsOf x.1.body).Nodup)) = true := by
    decide +kernel
  rw [hs] at htwice
  exact ⟨hssa, p, r', hs, of_decide_eq_true htwice, structured_declares hr hssa horderly.below hs⟩

/-- One temporary for two values that nothing reads. -/
def reassigned : List Operation :=
  [⟨.copy, .none, some (.temp 0), [.register ⟨0⟩]⟩, ⟨.copy, .none, some (.temp 0), [.register ⟨1⟩]⟩,
    ⟨.ret, .none, none, []⟩]

def reassignedRoutine : Routine := (ofOperations reassigned { temps := 1 }).toOption.get (by decide +kernel)

/-- Where a temporary that is never read is assigned twice, both operations declare it. -/
theorem reassigned_declared_twice : (∀ op ∈ reassignedRoutine.live, op.reads = []) ∧
    (∀ t ∈ reassignedRoutine.live.flatMap Operation.assigned, t < reassignedRoutine.ids.temps) ∧
    ∃ p r', reassignedRoutine.structured = .ok (p, r') ∧ 0 ∉ p.predeclared ∧
      (Stmt.opsOf p.body).countP (fun id => decide (0 ∈ (r'.op id).assigned)) = 2 := by
  obtain ⟨⟨p, r'⟩, hs⟩ : ∃ structured, reassignedRoutine.structured = .ok structured :=
    ⟨_, StageContext.eq_ok_get (by decide +kernel)⟩
  have htwice : reassignedRoutine.structured.toOption.any (fun x => decide (0 ∉ x.1.predeclared ∧
      (Stmt.opsOf x.1.body).countP (fun id => decide (0 ∈ (x.2.op id).assigned)) = 2)) = true := by decide +kernel
  rw [hs] at htwice
  exact ⟨by decide +kernel, by decide +kernel, p, r', hs, of_decide_eq_true htwice⟩

end Routine
end ShaderRecompiler
