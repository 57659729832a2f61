import ShaderRecompiler.Proofs.Dominance

/-! Natural loops along paths: which blocks belong to one, how two of them lie to
each other, and that the searches compute exactly them, their landings and their
exits. -/
namespace ShaderRecompiler

open List Ascending

theorem getLastD_mem (h : xs ≠ []) : xs.getLastD 0 ∈ xs := by
  rw [getLastD_eq_getLast?, getLast?_eq_some_getLast h]
  exact getLast_mem h

namespace Digraph

open Relation

variable {g : Digraph} {loops : List Loop}

theorem loops_eq (h : g.loops exit landings = .ok loops) :
    (∀ e ∈ g.retreatingEdges (g.reversePostorder 0), (g.dominance 0).dominates e.2 e.1) ∧
      loops = (ofList ((g.retreatingEdges (g.reversePostorder 0)).map (·.2))).map fun header =>
        g.loopAt (g.reverse.reached [exit]) landings header
          (((g.retreatingEdges (g.reversePostorder 0)).filter (·.2 == header)).map (·.1)) := by
  unfold Digraph.loops at h
  dsimp only at h
  split at h
  · cases h
  · next hfind =>
    refine ⟨fun e he => ?_, (Except.ok.inj h).symm⟩
    have := find?_eq_none.1 hfind e he
    simpa using this

theorem size_loopBody (g : Digraph) (header : Nat) (latches : List Nat) :
    (g.loopBody header latches).size = g.size := by
  have hsize : (g.unseen.setIfInBounds header true).size = g.reverse.size := by simp
  exact (g.reverse.explores_search (Nat.le_of_eq hsize) latches).size_seen.trans (by simp)

theorem size_setAll (body : Array Bool) (landings : List Landing) :
    (landings.foldl (fun body l => body.setIfInBounds l.block true) body).size = body.size := by
  induction landings generalizing body with
  | nil => rfl
  | cons l landings ih => rw [foldl_cons, ih, Array.size_setIfInBounds]

theorem size_body_loopAt (g : Digraph) (reachesExit : Array Bool) (landings : List Landing)
    (header : Nat) (latches : List Nat) :
    (g.loopAt reachesExit landings header latches).body.size = g.size := by
  unfold loopAt
  dsimp only
  rw [size_setAll, size_loopBody]

theorem mem_exits_loopAt : t ∈ (g.loopAt reachesExit landings header latches).exits ↔
      (g.loopAt reachesExit landings header latches).contains t = false ∧ reachesExit.getD t false ∧
        ∃ b, (g.loopAt reachesExit landings header latches).contains b ∧ t ∈ g.next b := by
  simp only [loopAt, ofList, mem_union, mem_filter, mem_flatMap, mem_range, Loop.contains]
  constructor
  · rintro (h | ⟨⟨b, ⟨-, hin⟩, ht⟩, hout⟩)
    · cases h
    · simp only [Bool.and_eq_true, Bool.not_eq_true'] at hout
      exact ⟨hout.1, hout.2, b, hin, ht⟩
  · rintro ⟨hout, hrch, b, hin, ht⟩
    refine .inr ⟨⟨b, ⟨?_, hin⟩, ht⟩, by simp only [hout, hrch]; rfl⟩
    by_contra hb
    simp [next_of_size_le (Nat.le_of_not_lt hb)] at ht

theorem getD_lt_size {a : Array Bool} (h : a.getD i false) : i < a.size := by
  by_contra hi
  simp [hi] at h

theorem mem_loops (h : g.loops exit landings = .ok loops) (hl : l ∈ loops) :
    l.body.size = g.size ∧ ∀ x ∈ l.exits, x < g.size := by
  rw [(loops_eq h).2] at hl
  obtain ⟨header, -, rfl⟩ := mem_map.1 hl
  refine ⟨size_body_loopAt .., fun x hx => ?_⟩
  have hrch := (mem_exits_loopAt.1 hx).2.1
  simpa [size_reached] using getD_lt_size hrch

/-- An edge from `u` back to its dominator `h`. -/
def Latch (g : Digraph) (h u : Nat) : Prop := g.Reachable u ∧ g.Edge u h ∧ g.Dominates h u

def IsHeader (g : Digraph) (h : Nat) : Prop := ∃ u, g.Latch h u

/-- The natural loop: `h`, and what reaches a latch without passing `h`. -/
def InLoop (g : Digraph) (h x : Nat) : Prop := x = h ∨ ∃ u, g.Latch h u ∧ g.Avoids h x u

namespace InLoop

theorem self (g : Digraph) (h : Nat) : g.InLoop h h := .inl rfl

theorem of_latch (hu : g.Latch h u) : g.InLoop h u := by
  by_cases huh : u = h
  · exact .inl huh
  · exact .inr ⟨u, hu, .refl huh⟩

theorem dominates (hx : g.InLoop h x) : g.Dominates h x := by
  rcases hx with rfl | ⟨u, hu, hpath⟩
  · exact g.dominates_self x
  · exact hu.2.2.of_avoids hpath

theorem pred (hx : g.InLoop h x) (hxh : x ≠ h) (hedge : g.Edge y x) : g.InLoop h y := by
  by_cases hyh : y = h
  · exact .inl hyh
  · obtain ⟨u, hu, hpath⟩ := hx.resolve_left hxh
    exact .inr ⟨u, hu, .head hyh hedge hpath⟩

theorem entry (h0 : g.InLoop h 0) : h = 0 := by
  by_contra hne
  exact h0.dominates (.refl (Ne.symm hne))

theorem lt_size (hh : g.IsHeader h) (hx : g.InLoop h x) : x < g.size := by
  rcases hx with rfl | ⟨u, hu, hpath⟩
  · obtain ⟨u, hu⟩ := hh
    exact hu.2.1.2
  · rcases ReflTransGen.cases_head hpath.2 with rfl | ⟨y, hxy, -⟩
    · exact hu.2.1.lt_size
    · exact hxy.1.lt_size

theorem inside (hrch : g.Reachable x) (hx : g.InLoop h x) :
    ReflTransGen (fun u v => g.Edge u v ∧ g.InLoop h u ∧ g.InLoop h v) h x := by
  induction hrch with
  | refl => exact hx.entry ▸ .refl
  | @tail u v _ hedge ih =>
    by_cases hv : v = h
    · exact hv ▸ .refl
    · have hu := hx.pred hv hedge
      exact (ih hu).tail ⟨hedge, hu, hx⟩

theorem runs (hrch : g.Reachable x) (hx : g.InLoop h x) : ReflTransGen g.Edge h x :=
  ReflTransGen.mono (fun _ _ hstep => hstep.1) _ _ (hx.inside hrch)

theorem returns (hh : g.IsHeader h) (hx : g.InLoop h x) : TransGen g.Edge x h := by
  rcases hx with rfl | ⟨u, hu, hpath⟩
  · obtain ⟨u, hu⟩ := hh
    exact TransGen.tail' (runs hu.1 (.of_latch hu)) hu.2.1
  · exact TransGen.tail' hpath.reaches hu.2.1

end InLoop

theorem Trail.nearer (htrail : g.Trail 0 (x :: t)) (hx : x < g.size)
    (hh : h ∈ x :: t) (hk : k ∈ x :: t) (hne : h ≠ k) : g.Avoids h k x ∨ g.Avoids k h x := by
  generalize hl : x :: t = l at htrail hh hk
  induction htrail generalizing x t with
  | start => exact absurd ((mem_singleton.1 hh).trans (mem_singleton.1 hk).symm) hne
  | @step v w path htrail hw ih =>
    obtain ⟨rfl, rfl⟩ := List.cons.inj hl
    by_cases hhx : h = x
    · exact .inr (hhx ▸ .refl (hhx ▸ hne))
    · by_cases hkx : k = x
      · subst hkx
        exact .inl (.refl (Ne.symm hne))
      · have hedge : g.Edge v x := ⟨hw, hx⟩
        rcases ih hedge.lt_size rfl ((mem_cons.1 hh).resolve_left hhx) ((mem_cons.1 hk).resolve_left hkx) with h₁ | h₁
        · exact .inl (h₁.tail hedge (Ne.symm hhx))
        · exact .inr (h₁.tail hedge (Ne.symm hkx))

section Nesting

variable (h0 : 0 < g.size)
include h0

theorem InLoop.not_outer (hk : g.Reachable k) (hkh : g.InLoop h k) (hne : k ≠ h) : ¬g.InLoop k h :=
  fun hhk => hne (Dominates.antisymm h0 hk hkh.dominates hhk.dominates).symm

theorem InLoop.nested (hk : g.Reachable k) (hkh : g.InLoop h k) (hx : g.InLoop k x) : g.InLoop h x := by
  by_cases hne : k = h
  · exact hne ▸ hx
  obtain ⟨w, hw, hpath⟩ := hkh.resolve_left hne
  rcases hx with rfl | ⟨u, hu, hxu⟩
  · exact hkh
  -- What runs inside the inner loop does not meet the outer header.
  have hinner : ∀ y, g.Avoids k y u → y ≠ h := by
    rintro y hy rfl
    exact InLoop.not_outer h0 hk hkh hne (.inr ⟨u, hu, hy⟩)
  have houter : g.Avoids h x u := by
    obtain ⟨hxk, hsteps⟩ := hxu
    induction hsteps using ReflTransGen.head_induction_on with
    | refl => exact .refl (hinner u (.refl hxk))
    | @head y z hyz hzu ih =>
      have hz : g.Avoids k z u := ⟨hyz.2, hzu⟩
      exact .head (hinner y (.head hxk hyz.1 hz)) hyz.1 (ih hyz.2)
  exact .inr ⟨w, hw, (houter.tail hu.2.1 hne).trans hpath⟩

theorem InLoop.comparable (hx : g.Reachable x) (hxh : g.InLoop h x) (hxk : g.InLoop k x) :
    g.InLoop h k ∨ g.InLoop k h := by
  by_cases hne : h = k
  · exact .inl (hne ▸ .self g h)
  obtain ⟨t, htrail, -⟩ := trail_reversePostorder h0 hx
  have hlt := hx.lt h0
  rcases htrail.nearer hlt (htrail.mem_of_dominates hlt hxh.dominates)
    (htrail.mem_of_dominates hlt hxk.dominates) hne with hpath | hpath
  · left
    rcases hxh with rfl | ⟨u, hu, hxu⟩
    · exact absurd rfl hpath.target_ne
    · exact .inr ⟨u, hu, hpath.trans hxu⟩
  · right
    rcases hxk with rfl | ⟨u, hu, hxu⟩
    · exact absurd rfl hpath.target_ne
    · exact .inr ⟨u, hu, hpath.trans hxu⟩

end Nesting

theorem avoids_reverse : g.reverse.Avoids h x y ↔ g.Avoids h y x := by
  constructor
  · intro hpath
    refine hpath.induct (P := fun y => g.Avoids h y x) .refl fun _ _ _ ih hedge hv => ?_
    exact .head hv (edge_reverse.1 hedge) ih
  · intro hpath
    refine hpath.induct (P := fun x => g.reverse.Avoids h x y) .refl fun _ _ _ ih hedge hv => ?_
    exact .head hv (edge_reverse.2 hedge) ih

/-- Control at `t` can come to the end of the program. -/
def Ends (g : Digraph) (exit t : Nat) : Prop := t < g.size ∧ ReflTransGen g.Edge t exit

theorem reached_reverse (hexit : exit < g.size) (t : Nat) :
    (g.reverse.reached [exit]).getD t false ↔ g.Ends exit t := by
  have hswap : ReflTransGen g.reverse.Edge exit t ↔ ReflTransGen g.Edge t exit := by
    rw [← reflTransGen_swap]
    have : Function.swap g.reverse.Edge = g.Edge := by
      funext x y
      exact propext edge_reverse
    rw [this]
  rw [reached_iff, Ends]
  simp only [mem_singleton, exists_eq_left, size_reverse, hexit, true_and, hswap]
  constructor
  · intro hpath
    refine ⟨?_, hpath⟩
    rcases ReflTransGen.cases_head hpath with rfl | ⟨y, hedge, -⟩
    · exact hexit
    · exact hedge.lt_size
  · exact And.right

theorem contains_loopBody (hh : h < g.size) (hlatches : ∀ u, u ∈ latches ↔ g.Latch h u) (x : Nat) :
    (g.loopBody h latches).getD x false ↔ x < g.size ∧ g.InLoop h x := by
  rw [loopBody, search_seen (by simp)]
  simp only [getD_marked, hh, and_true, decide_eq_true_eq, decide_eq_false_iff_not, size_reverse, InLoop]
  have hsearch : ∀ u, (u < g.size ∧ ¬u = h ∧
      ReflTransGen (fun a b => g.reverse.Edge a b ∧ ¬b = h) u x) ↔ u < g.size ∧ g.Avoids h x u := by
    intro u
    rw [← avoids_reverse]
    rfl
  simp only [hsearch, hlatches]
  constructor
  · rintro ⟨hx, hor⟩
    refine ⟨hx, hor.imp_right ?_⟩
    rintro ⟨u, hu, -, hpath⟩
    exact ⟨u, hu, hpath⟩
  · rintro ⟨hx, hor⟩
    refine ⟨hx, hor.imp_right ?_⟩
    rintro ⟨u, hu, hpath⟩
    exact ⟨u, hu, hu.2.1.lt_size, hpath⟩

theorem getD_setAll (body : Array Bool) (landings : List Landing) (x : Nat) :
    (landings.foldl (fun body l => body.setIfInBounds l.block true) body).getD x false ↔
      body.getD x false ∨ (x < body.size ∧ ∃ l ∈ landings, l.block = x) := by
  induction landings generalizing body with
  | nil => simp
  | cons l landings ih =>
    have hset : (body.setIfInBounds l.block true).getD x false ↔
        body.getD x false ∨ (x < body.size ∧ l.block = x) := by
      simp only [Array.getD_eq_getD_getElem?, Array.getElem?_setIfInBounds]
      by_cases hl : l.block = x
      · subst hl
        by_cases hb : l.block < body.size
        · simp [hb]
        · simp [hb]
      · simp [hl]
    rw [foldl_cons, ih, hset, Array.size_setIfInBounds]
    simp only [mem_cons, exists_eq_or_imp, and_or_left, or_assoc]

/-- The loop with the landings it owns. -/
def InBody (g : Digraph) (landings : List Landing) (h x : Nat) : Prop :=
  g.InLoop h x ∨ ⟨x, h⟩ ∈ landings

/-- A block outside the loop of `h` that the loop leads to and that comes to the
end of the program. -/
def Exit (g : Digraph) (exit : Nat) (landings : List Landing) (h t : Nat) : Prop :=
  ¬g.InBody landings h t ∧ g.Ends exit t ∧ ∃ b, b < g.size ∧ g.InBody landings h b ∧ g.Edge b t

/-- A loop as it is found: body and exits are the ones along paths. -/
structure Found (g : Digraph) (exit : Nat) (landings : List Landing) (l : Loop) : Prop where
  isHeader : g.IsHeader l.header
  contains_iff : ∀ x, l.contains x ↔ x < g.size ∧ g.InBody landings l.header x
  mem_exits : ∀ t, t ∈ l.exits ↔ g.Exit exit landings l.header t
  sorted : l.exits.Pairwise (· < ·)

theorem found_loopAt (hh : g.IsHeader h) (hexit : exit < g.size) (hlatches : ∀ u, u ∈ latches ↔ g.Latch h u) :
    g.Found exit landings (g.loopAt (g.reverse.reached [exit]) landings h latches) := by
  have hlt : h < g.size := (InLoop.self g h).lt_size hh
  have hcont : ∀ x, (g.loopAt (g.reverse.reached [exit]) landings h latches).contains x ↔
      x < g.size ∧ g.InBody landings h x := by
    intro x
    unfold Loop.contains loopAt
    dsimp only
    rw [getD_setAll, contains_loopBody hlt hlatches, size_loopBody, InBody, ← and_or_left]
    have howned : (∃ l ∈ landings.filter (·.header == h), l.block = x) ↔ (⟨x, h⟩ : Landing) ∈ landings := by
      simp only [mem_filter, beq_iff_eq]
      constructor
      · rintro ⟨l, ⟨hl, rfl⟩, rfl⟩
        exact hl
      · exact fun hl => ⟨_, ⟨hl, rfl⟩, rfl⟩
    rw [howned]
  refine ⟨hh, hcont, fun t => ?_, pairwise_ofList _⟩
  have hnot : (g.loopAt (g.reverse.reached [exit]) landings h latches).contains t = false ↔
      ¬(t < g.size ∧ g.InBody landings h t) := by
    rw [← hcont t, Bool.not_eq_true]
  rw [mem_exits_loopAt, hnot, reached_reverse hexit]
  constructor
  · rintro ⟨hout, hends, b, hb, hedge⟩
    obtain ⟨hlt, hbody⟩ := (hcont b).1 hb
    exact ⟨fun hin => hout ⟨hends.1, hin⟩, hends, b, hlt, hbody, hedge, hends.1⟩
  · rintro ⟨hout, hends, b, hlt, hbody, hedge⟩
    exact ⟨fun hin => hout hin.2, hends, b, (hcont b).2 ⟨hlt, hbody⟩, hedge.1⟩

theorem reducible_of_loops (h0 : 0 < g.size) (h : g.loops exit landings = .ok loops) : g.Reducible := by
  have hfwd : ∀ u v, g.Forward u v → (g.reversePostorder 0).idxOf u < (g.reversePostorder 0).idxOf v := by
    rintro u v ⟨hedge, hdom⟩
    have hu : g.Reachable u := (not_not.1 hdom).reaches
    by_contra hle
    have hback := (loops_eq h).1 (u, v) ((mem_retreatingEdges_iff h0).2 ⟨hu, hedge.1, Nat.le_of_not_lt hle⟩)
    exact hdom ((dominates_dominance h0 hu v).1 hback)
  have hrises : ∀ u v, TransGen g.Forward u v → (g.reversePostorder 0).idxOf u < (g.reversePostorder 0).idxOf v := by
    intro u v hpath
    induction hpath with
    | single hedge => exact hfwd _ _ hedge
    | tail _ hedge ih => exact Nat.lt_trans ih (hfwd _ _ hedge)
  exact fun v hcyc => Nat.lt_irrefl _ (hrises v v hcyc)

theorem loops_of_reducible (h0 : 0 < g.size) (hred : g.Reducible) (hexit : exit < g.size) (landings : List Landing) :
    ∃ loops, g.loops exit landings = .ok loops ∧ (∀ l ∈ loops, g.Found exit landings l) ∧
      ∀ h, g.IsHeader h → ∃ l ∈ loops, l.header = h := by
  have hedges := fun u v => mem_retreatingEdges (u := u) (v := v) h0 hred
  have hfind : (g.retreatingEdges (g.reversePostorder 0)).find?
      (fun e => !(g.dominance 0).dominates e.2 e.1) = none := by
    rw [find?_eq_none]
    rintro ⟨u, v⟩ huv
    obtain ⟨hu, -, hdom⟩ := (hedges u v).1 huv
    simpa using (dominates_dominance h0 hu v).2 hdom
  have hlatches : ∀ h u, u ∈ ((g.retreatingEdges (g.reversePostorder 0)).filter
      (·.2 == h)).map (·.1) ↔ g.Latch h u := by
    intro h u
    simp only [mem_map, mem_filter, beq_iff_eq, Prod.exists, exists_and_right, exists_eq_right]
    exact hedges u h
  have hhdrs : ∀ h, h ∈ ofList ((g.retreatingEdges (g.reversePostorder 0)).map (·.2)) ↔ g.IsHeader h := by
    intro h
    simp only [ofList, mem_union, not_mem_nil, false_or, mem_map, Prod.exists, exists_eq_right, IsHeader, Latch]
    exact exists_congr fun u => hedges u h
  refine ⟨_, by unfold Digraph.loops; dsimp only; rw [hfind], ?_, ?_⟩
  · intro l hl
    obtain ⟨h, hh, rfl⟩ := mem_map.1 hl
    exact found_loopAt ((hhdrs h).1 hh) hexit (hlatches h)
  · intro h hh
    exact ⟨_, mem_map_of_mem ((hhdrs h).2 hh), rfl⟩

end Digraph
end ShaderRecompiler
