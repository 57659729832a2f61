import ShaderRecompiler.Flow.Routing
import ShaderRecompiler.Proofs.Assignment
import ShaderRecompiler.Proofs.Blocks
import ShaderRecompiler.Proofs.Loop

/-! What routing the exits of a loop does to the blocks: edges that leave the
loop are moved to landings, and behind the old blocks stand the tests and then
the landings. A closed routine stays closed, and whatever one round keeps holds
after all of them. -/
namespace ShaderRecompiler

open List Option Loop Nat

variable {l : Loop} {exit : Nat}

def View.moveEdges (f : Nat → Nat) (v : View) : View :=
  { v with next := v.next.map f, branch := v.branch.map f }

/-- The temporaries that a block assigns. -/
def View.assigned (v : View) : List Nat := v.ops.flatMap Operation.assigned

def View.IsTest (selector : Operand) (index target next : Nat) (v : View) : Prop :=
  ∃ taken label, v = ⟨[⟨.compare .equal .u32, .none, some (.temp taken), [selector, .word index]⟩,
      ⟨.branchIfTrue, .none, none, [.label label, .temp taken]⟩],
    some next, some target⟩

def View.IsLanding (selector : Operand) (index dispatch : Nat) (v : View) : Prop :=
  ∃ label, v = ⟨[⟨.copy, .none, some selector, [.word index]⟩, ⟨.branch, .none, none, [.label label]⟩],
    none, some dispatch⟩

/-- The operations that routing adds. -/
inductive Operation.Dispatches : Operation → Prop
  | compare (selector taken index : Nat) : Dispatches
      ⟨.compare .equal .u32, .none, some (.temp taken), [.var selector, .word index]⟩
  | branchIfTrue (label taken : Nat) : Dispatches ⟨.branchIfTrue, .none, none, [.label label, .temp taken]⟩
  | copy (selector index : Nat) : Dispatches ⟨.copy, .none, some (.var selector), [.word index]⟩
  | branch (label : Nat) : Dispatches ⟨.branch, .none, none, [.label label]⟩

namespace Loop

theorem smallest?_eq_none : smallest? loops = none ↔ loops = [] := by
  cases loops with
  | nil => simp [smallest?]
  | cons l rest =>
    rw [smallest?]
    split
    · simp
    · split <;> simp

theorem smallest?_spec (h : smallest? loops = some l) : l ∈ loops ∧ ∀ m ∈ loops, l.size ≤ m.size := by
  induction loops generalizing l with
  | nil => cases h
  | cons a rest ih =>
    rw [smallest?] at h
    cases hrest : smallest? rest with
    | none =>
      simp only [hrest, Option.some.injEq] at h
      simp [smallest?_eq_none.1 hrest, h]
    | some k =>
      obtain ⟨hk, hle⟩ := ih hrest
      simp only [hrest] at h
      split at h <;> obtain rfl := Option.some.inj h
      · exact ⟨mem_cons_of_mem _ hk, forall_mem_cons.2 ⟨by omega, hle⟩⟩
      · exact ⟨mem_cons_self, forall_mem_cons.2 ⟨le_refl _, fun m hm => by have := hle m hm; omega⟩⟩

theorem contains_of_size_le (h : l.body.size ≤ b) : l.contains b = false := by
  simp [contains, h]

/-- The landing of exit `t`, where the landings of `exits` are numbered from `base`. -/
def landOn (exits : List Nat) (base t : Nat) : Nat :=
  if t ∈ exits then base + exits.idxOf t else t

theorem landOn_cons (hx : base ∉ xs) (t : Nat) :
    landOn xs (base + 1) (if t = x then base else t) = landOn (x :: xs) base t := by
  unfold landOn
  by_cases ht : t = x
  · subst ht
    simp [hx]
  · by_cases hmem : t ∈ xs
    · simp [ht, hmem, idxOf_cons_ne _ (Ne.symm ht)]
      omega
    · simp [ht, hmem]

theorem landOn_lt {exits : List Nat} {size : Nat} (hsize : base + exits.length ≤ size)
    (ht : t < base) : landOn exits base t < size := by
  unfold landOn
  split
  · next hmem =>
    have := idxOf_lt_length_iff.2 hmem
    omega
  · omega

/-- The view of block `b` with its exit edges moved, if it belongs to the loop. -/
def reroute (l : Loop) (f : Nat → Nat) (b : Nat) (v : View) : View :=
  if l.contains b then v.moveEdges f else v

theorem reroute_comp (l : Loop) (f g : Nat → Nat) (b : Nat) (v : View) :
    l.reroute g b (l.reroute f b v) = l.reroute (g ∘ f) b v := by
  unfold reroute
  split
  · simp [View.moveEdges]
  · rfl

theorem mapIdx_reroute_append {vs : List View} (h : l.body.size ≤ vs.length) :
    (vs ++ added).mapIdx (l.reroute f) = vs.mapIdx (l.reroute f) ++ added := by
  rw [mapIdx_append]
  congr 1
  apply ext_getElem
  · simp
  · intro i hi hi'
    simp [reroute, contains_of_size_le (le_trans h (le_add_left _ i))]

end Loop

namespace Routine

variable {r : Routine}

theorem block_redirect (r : Routine) (l : Loop) (target landing b : Nat) : (r.redirect l target landing).block b =
      if l.contains b ∧ b < r.blocks.size then { r.block b with
          next := (r.block b).next.map fun t => if t = target then landing else t
          branch := (r.block b).branch.map fun t => if t = target then landing else t }
      else r.block b := by
  have hmove : ∀ e : Option Nat, (if e = some target then some landing else e) =
      e.map fun t => if t = target then landing else t := by
    intro e
    cases e with
    | none => rfl
    | some t => by_cases ht : t = target <;> simp [ht]
  unfold redirect block
  simp only [Array.getD_eq_getD_getElem?, Array.getElem?_mapIdx, hmove]
  by_cases hb : b < r.blocks.size
  · by_cases hl : l.contains b <;> simp [hb, hl]
  · simp [hb]

@[simp] theorem blocks_size_redirect (r : Routine) (l : Loop) (target landing : Nat) :
    (r.redirect l target landing).blocks.size = r.blocks.size := by
  simp [redirect]

private theorem ends_redirect (r : Routine) (l : Loop) (target landing b : Nat) :
    (r.redirect l target landing).first b = r.first b ∧
      (r.redirect l target landing).last b = r.last b := by
  unfold first last
  rw [block_redirect]
  split <;> exact ⟨rfl, rfl⟩

theorem WellLinked.redirect (h : r.WellLinked) (l : Loop) (target landing : Nat) :
    (r.redirect l target landing).WellLinked :=
  h.congr rfl (fun b => (ends_redirect r l target landing b).1) fun b => (ends_redirect r l target landing b).2

theorem views_redirect (r : Routine) (l : Loop) (target landing : Nat) : (r.redirect l target landing).views =
      r.views.mapIdx (l.reroute fun t => if t = target then landing else t) := by
  have hcode : (r.redirect l target landing).code = r.code :=
    code_congr rfl fun b => (ends_redirect r l target landing b).1
  apply ext_getElem
  · simp
  · intro b hb hb'
    have hb : b < r.blocks.size := by simpa using hb
    simp only [views, getElem_map, getElem_range, getElem_mapIdx, view, hcode, block_redirect]
    by_cases hl : l.contains b <;> simp [reroute, View.moveEdges, hl, hb]

theorem views_addFilledBlock_ids (h : r.WellLinked) (ids : Ids) (ops : List Operation) (next branch : Option Nat) :
    ({ r with ids }.addFilledBlock ops next branch).WellLinked ∧
      ({ r with ids }.addFilledBlock ops next branch).views = r.views ++ [⟨ops, next, branch⟩] := by
  have hlink : { r with ids }.WellLinked := h.congr rfl (fun _ => rfl) fun _ => rfl
  have hviews : { r with ids }.views = r.views := views_congr rfl rfl
  exact ⟨hlink.addFilledBlock _ _ _, hviews ▸ hlink.views_addFilledBlock _ _ _⟩

theorem views_addDispatch (h : r.WellLinked) (selector : Operand) (index target next : Nat) :
    (r.addDispatch selector index target next).WellLinked ∧
      ∃ v, v.IsTest selector index target next ∧ v.assigned = [r.ids.temps] ∧
        (r.addDispatch selector index target next).views = r.views ++ [v] :=
  (views_addFilledBlock_ids h ⟨r.ids.temps + 1, r.ids.labels + 1, r.ids.vars⟩ _ _ _).imp_right
    fun hviews => ⟨_, ⟨r.ids.temps, r.ids.labels, rfl⟩, rfl, hviews⟩

theorem views_addLanding (h : r.WellLinked) (selector : Operand) (index dispatch : Nat) :
    (r.addLanding selector index dispatch).WellLinked ∧ ∃ v, v.IsLanding selector index dispatch ∧
        (r.addLanding selector index dispatch).views = r.views ++ [v] :=
  (views_addFilledBlock_ids h ⟨r.ids.temps, r.ids.labels + 1, r.ids.vars⟩ _ _ _).imp_right
    fun hviews => ⟨_, ⟨r.ids.labels, rfl⟩, hviews⟩

theorem views_addDispatches (h : r.WellLinked) (selector : Operand) (next : Nat → Nat) (tests : List (Nat × Nat)) :
    let routed := tests.foldl (fun r (target, index) => r.addDispatch selector index target (next index)) r
    routed.WellLinked ∧ routed.ids.temps = r.ids.temps + tests.length ∧ ∃ vs,
      Forall₂ (fun (x : Nat × Nat) v => v.IsTest selector x.2 x.1 (next x.2)) tests vs ∧
        vs.flatMap View.assigned = range' r.ids.temps tests.length ∧ routed.views = r.views ++ vs := by
  induction tests generalizing r with
  | nil => exact ⟨h, rfl, [], .nil, rfl, by simp⟩
  | cons test tests ih =>
    obtain ⟨hlink, v, hv, hnew, hviews⟩ := views_addDispatch h selector test.2 test.1 (next test.2)
    have hids : (r.addDispatch selector test.2 test.1 (next test.2)).ids.temps = r.ids.temps + 1 :=
      congrArg Ids.temps (ids_addFilledBlock ..)
    obtain ⟨hlink', htmps, vs, hvs, hassigned, hviews'⟩ := ih hlink
    rw [hids] at htmps hassigned
    refine ⟨hlink', ?_, v :: vs, .cons hv hvs, ?_, ?_⟩
    · rw [foldl_cons, htmps, length_cons]
      omega
    · rw [flatMap_cons, hnew, hassigned]
      rfl
    · rw [foldl_cons, hviews', hviews, append_assoc]
      rfl

/-- Landings are added one by one; each takes over the edges to its exit. -/
theorem views_addLandings (h : r.WellLinked) (hbody : l.body.size ≤ r.blocks.size)
    (selector : Operand) (dispatch base : Nat) (exits : List Nat) (k : Nat) (hexits : ∀ x ∈ exits, x < base) :
    let routed := (exits.zipIdx k).foldl
      (fun r (target, index) => (r.addLanding selector index dispatch).redirect l target (base + index)) r
    routed.WellLinked ∧ routed.ids.temps = r.ids.temps ∧ ∃ vs,
      Forall₂ (fun (x : Nat × Nat) v => v.IsLanding selector x.2 dispatch) (exits.zipIdx k) vs ∧
        routed.views = r.views.mapIdx (l.reroute (landOn exits (base + k))) ++ vs := by
  induction exits generalizing r k with
  | nil =>
    refine ⟨h, rfl, [], .nil, ?_⟩
    have hsame : ∀ b v, l.reroute (landOn [] (base + k)) b v = v := by
      intro b v
      have hid : landOn [] (base + k) = id := by funext t; simp [landOn]
      unfold reroute View.moveEdges
      simp [hid]
    apply ext_getElem <;> simp [hsame]
  | cons x xs ih =>
    obtain ⟨hlink, v, hv, hviews⟩ := views_addLanding h selector k dispatch
    have hsize := congrArg length hviews
    simp only [length_views, length_append, length_singleton] at hsize
    have hids : (r.addLanding selector k dispatch).ids.temps = r.ids.temps :=
      (congrArg Ids.temps (r.freshLabel.2.ids_addFilledBlock ..) : _ = r.freshLabel.2.ids.temps)
    obtain ⟨hlink', htmps, vs, hvs, hviews'⟩ :=
      ih (hlink.redirect l x (base + k)) (by rw [blocks_size_redirect]; omega) (k + 1)
        fun y hy => hexits y (mem_cons_of_mem _ hy)
    refine ⟨hlink', htmps.trans hids, v :: vs, .cons hv hvs, ?_⟩
    have hnew : base + k ∉ xs := fun hmem =>
      absurd (hexits _ (mem_cons_of_mem _ hmem)) (by omega)
    have hcomp : (landOn xs (base + (k + 1)) ∘ fun t => if t = x then base + k else t) =
        landOn (x :: xs) (base + k) := by
      funext t
      exact landOn_cons hnew t
    rw [zipIdx_cons, foldl_cons, hviews', views_redirect, hviews, mapIdx_reroute_append (by simpa using hbody),
      mapIdx_reroute_append (by simpa using hbody), mapIdx_mapIdx, append_assoc]
    simp only [Function.comp_def, reroute_comp]
    rw [← hcomp]
    rfl

/-- The number of the test that follows the test of exit `index`. -/
def nextTest (r : Routine) (l : Loop) (index : Nat) : Nat :=
  if index + 1 < l.exits.length - 1 then r.blocks.size + index + 1 else l.exits.getLastD 0

def landingBase (r : Routine) (l : Loop) : Nat := r.blocks.size + (l.exits.length - 1)

/-- A loop of the routine. -/
structure HasLoop (r : Routine) (l : Loop) : Prop where
  linked : r.WellLinked
  body_le : l.body.size ≤ r.blocks.size
  exits_lt : ∀ x ∈ l.exits, x < r.blocks.size

theorem WellLinked.hasLoop (h : r.WellLinked)
    (hloops : r.graph.loops exit landings = .ok loops) (hl : l ∈ loops) : r.HasLoop l := by
  obtain ⟨hbody, hexits⟩ := Digraph.mem_loops hloops hl
  rw [size_graph] at hbody hexits
  exact ⟨h, le_of_eq hbody, hexits⟩

theorem views_routeExits (h : r.HasLoop l) :
    (r.routeExits l).1.WellLinked ∧ (r.routeExits l).1.ids.temps = r.ids.temps + (l.exits.length - 1) ∧
      ∃ tests landings, tests.flatMap View.assigned = range' r.ids.temps (l.exits.length - 1) ∧
      Forall₂ (fun (x : Nat × Nat) v => v.IsTest (.var r.ids.vars) x.2 x.1 (r.nextTest l x.2))
        l.exits.dropLast.zipIdx tests ∧
      Forall₂ (fun (x : Nat × Nat) v => v.IsLanding (.var r.ids.vars) x.2 r.blocks.size) l.exits.zipIdx landings ∧
      (r.routeExits l).1.views =
        r.views.mapIdx (l.reroute (landOn l.exits (r.landingBase l))) ++ tests ++ landings := by
  have hlink : r.freshVar.2.WellLinked := h.linked.congr rfl (fun _ => rfl) fun _ => rfl
  have hviews : r.freshVar.2.views = r.views := views_congr rfl rfl
  obtain ⟨hlink₁, htmps₁, tests, htests, hassigned, hviews₁⟩ :=
    views_addDispatches hlink (.var r.ids.vars) (r.nextTest l) l.exits.dropLast.zipIdx
  have hsize := congrArg length hviews₁
  simp only [length_views, length_append] at hsize
  have hbase : ∀ x ∈ l.exits, x < r.landingBase l := fun x hx =>
    lt_of_lt_of_le (h.exits_lt x hx) (le_add_right _ _)
  obtain ⟨hlink₂, htmps₂, landings, hlands, hviews₂⟩ :=
    views_addLandings hlink₁ (l := l) (le_trans h.body_le (by rw [hsize]; exact le_add_right _ _))
      (.var r.ids.vars) r.blocks.size (r.landingBase l) l.exits 0 hbase
  rw [length_zipIdx, length_dropLast] at htmps₁ hassigned
  refine ⟨hlink₂, htmps₂.trans htmps₁, tests, landings, hassigned, htests, hlands, ?_⟩
  rw [hviews₁, hviews, mapIdx_reroute_append (by simpa using h.body_le)] at hviews₂
  exact hviews₂

theorem blocks_size_routeExits (h : r.HasLoop l) :
    (r.routeExits l).1.blocks.size = r.landingBase l + l.exits.length := by
  obtain ⟨-, -, tests, landings, -, htests, hlands, hviews⟩ := views_routeExits h
  have hlen := congrArg length hviews
  simpa [← htests.length_eq, ← hlands.length_eq, landingBase, Nat.add_assoc] using hlen

/-- The blocks of a routed routine by their numbers. -/
theorem view_routeExits (h : r.HasLoop l) : (∀ b < r.blocks.size, (r.routeExits l).1.view b =
      l.reroute (landOn l.exits (r.landingBase l)) b (r.view b)) ∧
    (∀ j < l.exits.length - 1, ∃ target, l.exits[j]? = some target ∧
      ((r.routeExits l).1.view (r.blocks.size + j)).IsTest (.var r.ids.vars) j target (r.nextTest l j)) ∧
    ∀ i < l.exits.length,
      ((r.routeExits l).1.view (r.landingBase l + i)).IsLanding (.var r.ids.vars) i r.blocks.size := by
  have hsize := blocks_size_routeExits h
  obtain ⟨-, -, tests, landings, -, htests, hlands, hviews⟩ := views_routeExits h
  have hget : ∀ b v, (r.routeExits l).1.views[b]? = some v → (r.routeExits l).1.view b = v := by
    intro b v hv
    rw [getElem?_views] at hv
    split at hv
    · exact Option.some.inj hv
    · cases hv
  have htests' : tests.length = l.exits.length - 1 := by simp [← htests.length_eq]
  refine ⟨fun b hb => hget _ _ ?_, fun j hj => ?_, fun i hi => ?_⟩
  · rw [hviews, append_assoc, getElem?_append_left (by simpa using hb), getElem?_mapIdx, getElem?_views, if_pos hb]
    rfl
  · have hjt : j < tests.length := by omega
    have htest := htests.get (by simpa using hj) hjt
    refine ⟨l.exits[j], getElem?_eq_getElem (by omega), ?_⟩
    have hview : (r.routeExits l).1.view (r.blocks.size + j) = tests[j] := by
      apply hget
      rw [hviews, append_assoc, getElem?_append_right (by simp), getElem?_append_left (by simp; omega)]
      simp [hjt]
    rw [hview]
    simpa using htest
  · have hil : i < landings.length := by simpa [← hlands.length_eq] using hi
    have hland := hlands.get (by simpa using hi) hil
    have hview : (r.routeExits l).1.view (r.landingBase l + i) = landings[i] := by
      apply hget
      rw [hviews, getElem?_append_right (by simp [htests', landingBase])]
      simp [htests', landingBase, hil]
    rw [hview]
    simpa using hland

/-- Every edge leads to a block. -/
def Inside (r : Routine) : Prop := ∀ v ∈ r.views, ∀ t, t ∈ v.next ∨ t ∈ v.branch → t < r.blocks.size

theorem Closed.inside (h : r.Closed) : r.Inside := fun v hv t ht =>
  ht.elim ((h v hv).next_lt t) ((h v hv).branch_lt t)

section Edges

variable (h : r.HasLoop l)
include h

theorem edge_routeExits_old (hins : r.Inside) {v : Nat} (hu : u < r.blocks.size) :
    (r.routeExits l).1.graph.Edge u v ↔ ∃ t, r.graph.Edge u t ∧
      v = if l.contains u then landOn l.exits (r.landingBase l) t else t := by
  have hsize := blocks_size_routeExits h
  have hgrow : r.blocks.size ≤ r.landingBase l := le_add_right _ _
  have hlt := hins _ (mem_views.2 ⟨u, hu, rfl⟩)
  have hmoved : ∀ t < r.blocks.size, landOn l.exits (r.landingBase l) t < (r.routeExits l).1.blocks.size := fun t ht =>
    landOn_lt (le_of_eq hsize.symm) (by omega)
  rw [edge_graph, (view_routeExits h).1 u hu]
  simp only [edge_graph, reroute]
  by_cases hin : l.contains u
  · simp only [hin, if_true, View.moveEdges, mem_def, map_eq_some_iff]
    constructor
    · rintro ⟨-, ⟨t, ht, rfl⟩ | ⟨t, ht, rfl⟩⟩
      · exact ⟨t, ⟨hlt t (.inl ht), .inl ht⟩, rfl⟩
      · exact ⟨t, ⟨hlt t (.inr ht), .inr ht⟩, rfl⟩
    · rintro ⟨t, ⟨htlt, ht | ht⟩, rfl⟩
      · exact ⟨hmoved t htlt, .inl ⟨t, ht, rfl⟩⟩
      · exact ⟨hmoved t htlt, .inr ⟨t, ht, rfl⟩⟩
  · simp only [hin, if_false, Bool.false_eq_true]
    constructor
    · rintro ⟨-, ht⟩
      exact ⟨v, ⟨hlt v ht, ht⟩, rfl⟩
    · rintro ⟨t, ⟨htlt, ht⟩, rfl⟩
      exact ⟨by omega, ht⟩

theorem edge_routeExits_test (hj : j < l.exits.length - 1) : (r.routeExits l).1.graph.Edge (r.blocks.size + j) v ↔
      l.exits[j]? = some v ∨ v = r.nextTest l j := by
  have hsize := blocks_size_routeExits h
  obtain ⟨target, htgt, taken, label, hview⟩ := (view_routeExits h).2.1 j hj
  have hmem := h.exits_lt target (mem_of_getElem? htgt)
  have hnext : r.nextTest l j < (r.routeExits l).1.blocks.size := by
    have hlast := h.exits_lt _ (getLastD_mem (ne_nil_of_length_pos (by omega)))
    unfold landingBase at hsize
    unfold nextTest
    split <;> omega
  unfold landingBase at hsize
  rw [edge_graph, hview, htgt]
  simp only [mem_def, Option.some.injEq]
  constructor
  · rintro ⟨-, rfl | rfl⟩
    · exact .inr rfl
    · exact .inl rfl
  · rintro (rfl | rfl)
    · exact ⟨by omega, .inr rfl⟩
    · exact ⟨hnext, .inl rfl⟩

theorem edge_routeExits_landing (hi : i < l.exits.length) :
    (r.routeExits l).1.graph.Edge (r.landingBase l + i) v ↔ v = r.blocks.size := by
  have hsize := blocks_size_routeExits h
  obtain ⟨label, hview⟩ := (view_routeExits h).2.2 i hi
  unfold landingBase at hsize
  rw [edge_graph, hview]
  simp only [mem_def, reduceCtorEq, Option.some.injEq, false_or]
  constructor
  · exact fun hv => hv.2.symm
  · rintro rfl
    exact ⟨by omega, rfl⟩

end Edges

/-- Each block of a routed routine is an old one with its edges moved, a test or
a landing. -/
theorem mem_views_routeExits (h : r.HasLoop l) (hv : v ∈ (r.routeExits l).1.views) :
    (∃ b v₀, v₀ ∈ r.views ∧ v = l.reroute (landOn l.exits (r.landingBase l)) b v₀) ∨
    (∃ target index, target ∈ l.exits ∧ v.IsTest (.var r.ids.vars) index target (r.nextTest l index)) ∨
    (∃ index, l.exits ≠ [] ∧ v.IsLanding (.var r.ids.vars) index r.blocks.size) := by
  obtain ⟨-, -, tests, landings, -, htests, hlands, hviews⟩ := views_routeExits h
  rw [hviews, mem_append, mem_append] at hv
  obtain (hv | hv) | hv := hv
  · obtain ⟨b, hb, rfl⟩ := mem_mapIdx.1 hv
    exact .inl ⟨b, _, getElem_mem hb, rfl⟩
  · obtain ⟨i, hi, rfl⟩ := getElem_of_mem hv
    have htest := htests.get (by simpa [htests.length_eq] using hi) hi
    refine .inr (.inl ⟨_, _, ?_, htest⟩)
    exact dropLast_subset _ (fst_mem_of_mem_zipIdx (get_mem _ _))
  · obtain ⟨i, hi, rfl⟩ := getElem_of_mem hv
    have hland := hlands.get (by simpa [hlands.length_eq] using hi) hi
    refine .inr (.inr ⟨_, ?_, hland⟩)
    rintro hnil
    simp [hnil, ← hlands.length_eq] at hi

theorem Inside.routeExits (hr : r.Inside) (h : r.HasLoop l) : (r.routeExits l).1.Inside := by
  have hsize := blocks_size_routeExits h
  have hgrow : r.blocks.size ≤ r.landingBase l := le_add_right _ _
  have hmoved : ∀ t < r.blocks.size, landOn l.exits (r.landingBase l) t < (r.routeExits l).1.blocks.size :=
    fun t ht => landOn_lt (le_of_eq hsize.symm) (by omega)
  have hold : ∀ t < r.blocks.size, t < (r.routeExits l).1.blocks.size := fun t ht => by omega
  intro v hv t ht
  obtain ⟨b, v₀, hv₀, rfl⟩ | ⟨target, index, htgt, _, _, rfl⟩ | ⟨index, hne, _, rfl⟩ :=
    mem_views_routeExits h hv
  · unfold reroute at ht
    split at ht
    · simp only [View.moveEdges, mem_def, map_eq_some_iff] at ht
      obtain ⟨m, hm, rfl⟩ | ⟨m, hm, rfl⟩ := ht
      · exact hmoved m (hr v₀ hv₀ m (.inl hm))
      · exact hmoved m (hr v₀ hv₀ m (.inr hm))
    · exact hold t (hr v₀ hv₀ t ht)
  · have hlast := h.exits_lt _ (getLastD_mem (ne_nil_of_mem htgt))
    have htgt := h.exits_lt _ htgt
    simp only [mem_def, Option.some.injEq] at ht
    obtain rfl | rfl := ht
    · unfold nextTest
      unfold landingBase at hsize
      split <;> omega
    · exact hold _ htgt
  · have hpos := length_pos_iff.2 hne
    simp only [mem_def, reduceCtorEq, Option.some.injEq, false_or] at ht
    omega

/-- A property of blocks holds after routing if moved edges do not matter to it and the new
blocks have it. -/
theorem forall_views_routeExits {P : View → Prop} (h : r.HasLoop l) (hold : ∀ v ∈ r.views, P v)
    (hmove : ∀ f v, P v → P (v.moveEdges f))
    (htest : ∀ selector index target next v, v.IsTest selector index target next → P v)
    (hland : ∀ selector index dispatch v, v.IsLanding selector index dispatch → P v) :
    ∀ v ∈ (r.routeExits l).1.views, P v := by
  intro v hv
  obtain ⟨b, v₀, hv₀, rfl⟩ | ⟨_, _, -, hv⟩ | ⟨_, -, hv⟩ := mem_views_routeExits h hv
  · unfold reroute
    split
    · exact hmove _ v₀ (hold v₀ hv₀)
    · exact hold v₀ hv₀
  · exact htest _ _ _ _ v hv
  · exact hland _ _ _ v hv

theorem Closed.routeExits (hc : r.Closed) (h : r.HasLoop l) : (r.routeExits l).1.Closed := by
  have hends : ∀ v ∈ (r.routeExits l).1.views, (∀ op ∈ v.ops.dropLast, op.inst.isTerminator = false) ∧
      ∀ op ∈ v.ops.getLast?, op.inst.isTerminator → op.inst ≠ .ret → v.branch.isSome := by
    refine forall_views_routeExits h (fun v hv => ⟨(hc v hv).plain, (hc v hv).branch_isSome⟩)
      (fun _ v hv => ⟨hv.1, by simpa [View.moveEdges] using hv.2⟩) ?_ ?_
    · rintro _ _ _ _ _ ⟨_, _, rfl⟩
      exact ⟨by simp [Instruction.isTerminator], by simp⟩
    · rintro _ _ _ _ ⟨_, rfl⟩
      exact ⟨by simp [Instruction.isTerminator], by simp⟩
  intro v hv
  have hlt := hc.inside.routeExits h v hv
  exact ⟨(hends v hv).1, fun t ht => hlt t (.inl ht), fun t ht => hlt t (.inr ht), (hends v hv).2⟩

theorem Onward.routeExits (ho : r.Onward) (h : r.HasLoop l) : (r.routeExits l).1.Onward := by
  refine forall_views_routeExits h ho (fun _ _ hv hjump => ?_) ?_ ?_
  · simpa [View.moveEdges] using hv hjump
  · rintro _ _ _ _ _ ⟨_, _, rfl⟩ _
    rfl
  · rintro _ _ _ _ ⟨_, rfl⟩ hjump
    simp [Instruction.isJump] at hjump

theorem singleExitLoops_rounds {P : Routine → List Landing → Prop}
    (hrnd : ∀ r landings loops l, P r landings → r.graph.loops exit landings = .ok loops →
      Loop.smallest? (loops.filter fun l => decide (1 < l.exits.length)) = some l →
      P (r.routeExits l).1 (landings ++ (r.routeExits l).2))
    (hP : P r landings) (h : singleExitLoops exit rounds r landings = .ok (r', loops)) :
    ∃ landings', P r' landings' ∧ ∀ l ∈ loops, l.exits.length ≤ 1 := by
  induction rounds generalizing r landings with
  | zero => cases h
  | succ rounds ih =>
    rw [singleExitLoops] at h
    cases hloops : r.graph.loops exit landings with
    | error e => simp [hloops] at h
    | ok found =>
      simp only [hloops] at h
      cases hsmall : Loop.smallest? (found.filter fun l => decide (1 < l.exits.length)) with
      | none =>
        simp only [hsmall, Except.ok.injEq, Prod.mk.injEq] at h
        obtain ⟨rfl, rfl⟩ := h
        refine ⟨landings, hP, fun l hl => Nat.le_of_not_lt fun htwo => ?_⟩
        have hmem : l ∈ found.filter fun l => decide (1 < l.exits.length) := mem_filter.2 ⟨hl, by simpa using htwo⟩
        rw [Loop.smallest?_eq_none.1 hsmall] at hmem
        cases hmem
      | some l =>
        simp only [hsmall] at h
        exact ih (hrnd r landings found l hP hloops hsmall) h

theorem singleExitLoops_linked {P : Routine → Prop} (hrnd : ∀ r l, r.HasLoop l → P r → P (r.routeExits l).1)
    (hlink : r.WellLinked) (hP : P r)
    (h : singleExitLoops exit rounds r landings = .ok (r', loops)) : r'.WellLinked ∧ P r' := by
  obtain ⟨-, hkept, -⟩ := singleExitLoops_rounds (P := fun r _ => r.WellLinked ∧ P r)
    (fun r landings _ l hr hloops hsmall => by
      have hloop := hr.1.hasLoop hloops (mem_filter.1 (smallest?_spec hsmall).1).1
      exact ⟨(views_routeExits hloop).1, hrnd r l hloop hr.2⟩)
    ⟨hlink, hP⟩ h
  exact hkept

/-- A property of every operation that stands in a block. -/
def Holds (r : Routine) (P : Operation → Prop) : Prop := ∀ v ∈ r.views, ∀ op ∈ v.ops, P op

theorem holds_iff (h : r.WellLinked) : r.Holds P ↔ ∀ b, ∀ op ∈ r.code b, P op := by
  constructor
  · intro hP b op hop
    by_cases hb : b < r.blocks.size
    · exact hP _ (mem_views.2 ⟨b, hb, rfl⟩) op hop
    · rw [code, blockOps_of_size_le h (Nat.le_of_not_lt hb)] at hop
      cases hop
  · intro hP v hv
    obtain ⟨b, -, rfl⟩ := mem_views.1 hv
    exact hP b

theorem Holds.routeExits (h : r.Holds P) (hP : ∀ op : Operation, op.Dispatches → P op)
    (hloop : r.HasLoop l) : (r.routeExits l).1.Holds P := by
  intro v hv op hop
  obtain ⟨b, v₀, hv₀, rfl⟩ | ⟨target, index, -, taken, label, rfl⟩ | ⟨index, -, label, rfl⟩ :=
    mem_views_routeExits hloop hv
  · refine h v₀ hv₀ op ?_
    unfold reroute at hop
    split at hop <;> exact hop
  · simp only [mem_cons, not_mem_nil, or_false] at hop
    obtain rfl | rfl := hop
    · exact hP _ (.compare ..)
    · exact hP _ (.branchIfTrue ..)
  · simp only [mem_cons, not_mem_nil, or_false] at hop
    obtain rfl | rfl := hop
    · exact hP _ (.copy ..)
    · exact hP _ (.branch ..)

theorem Holds.singleExitLoops (h : r.Holds P) (hP : ∀ op : Operation, op.Dispatches → P op) (hlink : r.WellLinked)
    (hroute : singleExitLoops exit rounds r [] = .ok (r', loops)) :
    r'.WellLinked ∧ r'.Holds P :=
  singleExitLoops_linked (P := (·.Holds P)) (fun _ _ hloop hr => hr.routeExits hP hloop) hlink h hroute

end Routine
end ShaderRecompiler
