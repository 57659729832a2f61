import ShaderRecompiler.Proofs.Loop

/-! Routing as a change of graphs. Edges from a loop to its exits make a detour:
over a landing to a chain of tests, and from one of the tests to an exit. The
detour has paths the old graph lacks, from any way out to any exit, and still
every edge back to a dominator stays one, so a reducible graph stays reducible,
and no new block becomes a header. -/
namespace ShaderRecompiler.Digraph

open Relation

open Nat (le_of_not_lt)

/-- `g'` is `g` with the exit edges of the loop of `h` sent over tests, numbered
from `g.size`, and landings behind them. -/
structure Detour (g g' : Digraph) (h : Nat) (exits : List Nat) : Prop where
  pos : 0 < g.size
  reach : ∀ b < g.size, g.Reachable b
  isHeader : g.IsHeader h
  two : 2 ≤ exits.length
  exit_lt : ∀ e ∈ exits, e < g.size
  exit_out : ∀ e ∈ exits, ¬g.InLoop h e
  exit_left : ∀ e ∈ exits, ∃ b, g.InLoop h b ∧ g.Edge b e
  size : g'.size = g.size + (exits.length - 1) + exits.length
  old : ∀ u v, u < g.size → v < g.size → (g'.Edge u v ↔ g.Edge u v ∧ ¬(g.InLoop h u ∧ v ∈ exits))
  landed : ∀ u v, u < g.size → g.size ≤ v → (g'.Edge u v ↔ g.InLoop h u ∧
    ∃ i e, exits[i]? = some e ∧ g.Edge u e ∧ v = g.size + (exits.length - 1) + i)
  test : ∀ j v, j < exits.length - 1 → (g'.Edge (g.size + j) v ↔ exits[j]? = some v ∨
    v = if j + 1 < exits.length - 1 then g.size + j + 1 else exits.getLastD 0)
  landing : ∀ i v, i < exits.length → (g'.Edge (g.size + (exits.length - 1) + i) v ↔ v = g.size)

namespace Detour

variable {g g' : Digraph} {h : Nat} {exits : List Nat} {a b u v x y : Nat} (d : Detour g g' h exits)
include d

theorem last_mem : exits.getLastD 0 ∈ exits := by
  apply getLastD_mem
  rintro rfl
  simpa using d.two

theorem new_cases (hv : g.size ≤ v) (hlt : v < g'.size) : (∃ j < exits.length - 1, v = g.size + j) ∨
      ∃ i < exits.length, v = g.size + (exits.length - 1) + i := by
  rw [d.size] at hlt
  by_cases hv' : v < g.size + (exits.length - 1)
  · exact .inl ⟨v - g.size, by omega, by omega⟩
  · exact .inr ⟨v - (g.size + (exits.length - 1)), by omega, by omega⟩

theorem exit_of_edge (hu : g.size ≤ u) (hv : v < g.size) (hedge : g'.Edge u v) : v ∈ exits := by
  rcases d.new_cases hu hedge.lt_size with ⟨j, hj, rfl⟩ | ⟨i, hi, rfl⟩
  · rcases (d.test j v hj).1 hedge with hget | heq
    · exact List.mem_of_getElem? hget
    · split at heq
      · omega
      · exact heq ▸ d.last_mem
  · have := (d.landing i v hi).1 hedge
    omega

theorem inLoop_of_edge (hu : u < g.size) (hv : g.size ≤ v) (hedge : g'.Edge u v) : g.InLoop h u :=
  ((d.landed u v hu hv).1 hedge).1

/-- Landings come before tests, and tests in their order. -/
def rank (g : Digraph) (exits : List Nat) (v : Nat) : Nat :=
  if v < g.size + (exits.length - 1) then v - g.size + 1 else 0

theorem rank_lt (hu : g.size ≤ u) (hv : g.size ≤ v) (hedge : g'.Edge u v) : rank g exits u < rank g exits v := by
  have htwo := d.two
  unfold rank
  rcases d.new_cases hu hedge.lt_size with ⟨j, hj, rfl⟩ | ⟨i, hi, rfl⟩
  · rcases (d.test j v hj).1 hedge with hget | heq
    · have := d.exit_lt v (List.mem_of_getElem? hget)
      omega
    · split at heq
      · rw [if_pos (by omega), if_pos (by omega)]
        omega
      · have := d.exit_lt _ (heq ▸ d.last_mem)
        omega
  · obtain rfl := (d.landing i v hi).1 hedge
    rw [if_neg (by omega), if_pos (by omega)]
    omega

/-- An edge of the old graph that is still there. -/
def Kept (g : Digraph) (h : Nat) (exits : List Nat) (u v : Nat) : Prop :=
  g.Edge u v ∧ ¬(g.InLoop h u ∧ v ∈ exits)

theorem edge_of_kept (hedge : Kept g h exits u v) : g'.Edge u v :=
  (d.old u v hedge.1.lt_size hedge.1.2).2 hedge

theorem kept_of_edge (hu : u < g.size) (hv : v < g.size) (hedge : g'.Edge u v) : Kept g h exits u v :=
  (d.old u v hu hv).1 hedge

theorem kept_inLoop (hx : g.InLoop h x) : ReflTransGen (Kept g h exits) 0 x := by
  have hhdr : ∀ y, g.Reachable y → ReflTransGen (Kept g h exits) 0 y ∨ ReflTransGen (Kept g h exits) 0 h := by
    intro y hy
    induction hy with
    | refl => exact .inl .refl
    | @tail u v _ hedge ih =>
      rcases ih with ih | ih
      · by_cases hkept : g.InLoop h u ∧ v ∈ exits
        · exact .inr (hkept.1.dominates.reached (fun _ _ hstep => hstep.1) ih)
        · exact .inl (ih.tail ⟨hedge, hkept⟩)
      · exact .inr ih
  have hlt : h < g.size := (InLoop.self g h).lt_size d.isHeader
  have h₀ : ReflTransGen (Kept g h exits) 0 h := (hhdr h (d.reach h hlt)).elim id id
  refine h₀.trans (ReflTransGen.mono ?_ _ _ (hx.inside (d.reach x (hx.lt_size d.isHeader))))
  exact fun u v hstep => ⟨hstep.1, fun hout => d.exit_out v hout.2 hstep.2.2⟩

theorem avoids_of_new (ha : g.size ≤ a) (hx : g.InLoop h x) : g'.Avoids a 0 x := by
  have hpos := d.pos
  refine ⟨by omega, ReflTransGen.mono (fun _ _ hstep => ⟨d.edge_of_kept hstep, ?_⟩) _ _ (d.kept_inLoop hx)⟩
  have := hstep.1.2
  omega

theorem avoids_test (hj : j < exits.length - 1) (ha : a < g.size ∨ g.size + j < a) :
    g'.Avoids a g.size (g.size + j) := by
  induction j with
  | zero => exact .refl (by omega)
  | succ j ih =>
    have hedge : g'.Edge (g.size + j) (g.size + (j + 1)) := by
      refine (d.test j _ (by omega)).2 (.inr ?_)
      rw [if_pos (by omega)]
      omega
    exact (ih (by omega) (by omega)).tail hedge (by omega)

theorem edge_landing (hi : exits[i]? = some e) (hb : g.InLoop h b) (hedge : g.Edge b e) :
    g'.Edge b (g.size + (exits.length - 1) + i) :=
  (d.landed b _ hedge.lt_size (by omega)).2 ⟨hb, i, e, hi, hedge, rfl⟩

theorem avoids_exit (hi : i < exits.length) (he : e ∈ exits) (ha : a < g.size) (hae : e ≠ a) :
    g'.Avoids a (g.size + (exits.length - 1) + i) e := by
  have htwo := d.two
  have hstart : g'.Avoids a (g.size + (exits.length - 1) + i) g.size :=
    .tail (.refl (by omega)) ((d.landing i _ hi).2 rfl) (by omega)
  obtain ⟨j, hj, hget⟩ := List.getElem_of_mem he
  by_cases hlast : j < exits.length - 1
  · refine (hstart.trans (d.avoids_test hlast (.inl ha))).tail ?_ hae
    exact (d.test j e hlast).2 (.inl (List.getElem?_eq_some_iff.2 ⟨hj, hget⟩))
  · have hj' : exits.length - 2 < exits.length - 1 := by omega
    refine (hstart.trans (d.avoids_test hj' (.inl ha))).tail ((d.test _ e hj').2 (.inr ?_)) hae
    rw [if_neg (by omega), List.getLastD_eq_getLast?, List.getLast?_eq_getElem?]
    obtain rfl : j = exits.length - 1 := by omega
    rw [List.getElem?_eq_some_iff.2 ⟨hj, hget⟩]
    rfl

theorem avoids_detour (hb : g.InLoop h b) (he : e ∈ exits) (hedge : g.Edge b e) (ha : a < g.size)
    (hba : b ≠ a) (hea : e ≠ a) : g'.Avoids a b e := by
  obtain ⟨i, hi, hget⟩ := List.getElem_of_mem he
  have hland := d.edge_landing (List.getElem?_eq_some_iff.2 ⟨hi, hget⟩) hb hedge
  exact .head hba hland (d.avoids_exit hi he ha hea)

theorem avoids_lift (ha : a < g.size) (hpath : g.Avoids a x y) : g'.Avoids a x y := by
  refine hpath.induct .refl fun u v hu ih hedge hv => ?_
  by_cases hkept : g.InLoop h u ∧ v ∈ exits
  · exact ih.trans (d.avoids_detour hkept.1 hkept.2 hedge ha hu.target_ne hv)
  · exact ih.tail (d.edge_of_kept ⟨hedge, hkept⟩) hv

theorem size_lt : g.size < g'.size := by
  have := d.two
  rw [d.size]
  omega

theorem header_lt : h < g.size := (InLoop.self g h).lt_size d.isHeader

theorem exit_ne_header (he : e ∈ exits) : e ≠ h := fun heq => d.exit_out e he (.inl heq)

theorem reachable_old (hb : g.Reachable b) : g'.Reachable b := by
  induction hb with
  | refl => exact .refl
  | @tail u v _ hedge ih =>
    by_cases hkept : g.InLoop h u ∧ v ∈ exits
    · obtain ⟨i, hi, hget⟩ := List.getElem_of_mem hkept.2
      have hland := d.edge_landing (List.getElem?_eq_some_iff.2 ⟨hi, hget⟩) hkept.1 hedge
      have hexit := d.avoids_exit hi hkept.2 d.header_lt (d.exit_ne_header hkept.2)
      exact (ih.tail hland).trans hexit.reaches
    · exact ih.tail (d.edge_of_kept ⟨hedge, hkept⟩)

theorem avoids_landing (hi : i < exits.length) (ha : g.size ≤ a) (hne : g.size + (exits.length - 1) + i ≠ a) :
    g'.Avoids a 0 (g.size + (exits.length - 1) + i) := by
  obtain ⟨b, hb, hedge⟩ := d.exit_left _ (List.getElem_mem hi)
  exact (d.avoids_of_new ha hb).tail (d.edge_landing (List.getElem?_eq_some_iff.2 ⟨hi, rfl⟩) hb hedge) hne

theorem reachable (hb : b < g'.size) : g'.Reachable b := by
  have htwo := d.two
  have hland : ∀ i < exits.length, g'.Reachable (g.size + (exits.length - 1) + i) := fun i hi =>
    (d.avoids_landing (a := g.size) hi (Nat.le_refl _) (by omega)).reaches
  by_cases hold : b < g.size
  · exact d.reachable_old (d.reach b hold)
  · rcases d.new_cases (le_of_not_lt hold) hb with ⟨j, hj, rfl⟩ | ⟨i, hi, rfl⟩
    · have hstart : g'.Edge (g.size + (exits.length - 1) + 0) g.size := (d.landing 0 _ (by omega)).2 rfl
      exact (hstart.reachable (hland 0 (by omega))).trans (d.avoids_test hj (a := 0) (.inl d.pos)).reaches
    · exact hland i hi

section Dominance

theorem avoids_header (hv : ¬g.InLoop h v) (hx : g.InLoop h x) (hpath : g.Avoids v 0 x) :
    g.Avoids v 0 h ∧ ∀ y, g.InLoop h y → g.Avoids v h y := by
  have hhead : g.Avoids v 0 h := ⟨hpath.1, hx.dominates.reached (fun _ _ hstep => hstep.1) hpath.2⟩
  refine ⟨hhead, fun y hy => ⟨hhead.target_ne, ?_⟩⟩
  refine ReflTransGen.mono (fun _ _ hstep => ⟨hstep.1, ?_⟩) _ _ (hy.inside (d.reach y (hy.lt_size d.isHeader)))
  rintro rfl
  exact hv hstep.2.2

theorem avoids_outside (hv : ¬g.InLoop h v) (hpath : g'.Avoids v 0 x) :
    (x < g.size → g.Avoids v 0 x) ∧ (g.size ≤ x → g.Avoids v 0 h) := by
  refine hpath.induct (P := fun x => (x < g.size → g.Avoids v 0 x) ∧ (g.size ≤ x → g.Avoids v 0 h))
    (fun h0 => ⟨fun _ => .refl h0, fun hle => absurd hle (Nat.not_le.2 d.pos)⟩) fun u w _ ih hedge hw => ?_
  by_cases hu : u < g.size
  · refine ⟨fun hlt => (ih.1 hu).tail (d.kept_of_edge hu hlt hedge).1 hw, fun hle => ?_⟩
    exact (d.avoids_header hv (d.inLoop_of_edge hu hle hedge) (ih.1 hu)).1
  · have hu := le_of_not_lt hu
    refine ⟨fun hlt => ?_, fun _ => ih.2 hu⟩
    obtain ⟨b, hb, hleft⟩ := d.exit_left w (d.exit_of_edge hu hlt hedge)
    obtain ⟨hhead, hins⟩ := d.avoids_header hv (.self g h) (ih.2 hu)
    exact (hhead.trans (hins b hb)).tail hleft hw

theorem avoids_without_header (hpath : g'.Avoids h 0 x) : x < g.size ∧ ¬g.InLoop h x ∧ g.Avoids h 0 x := by
  refine hpath.induct (P := fun x => x < g.size ∧ ¬g.InLoop h x ∧ g.Avoids h 0 x)
    (fun h0 => ⟨d.pos, fun hin => h0 hin.entry.symm, .refl h0⟩) fun _ w _ ih hedge hw => ?_
  obtain ⟨hu, hout, hu'⟩ := ih
  by_cases hlt : w < g.size
  · have hkept := d.kept_of_edge hu hlt hedge
    exact ⟨hlt, fun hin => hout (hin.pred hw hkept.1), hu'.tail hkept.1 hw⟩
  · exact absurd (d.inLoop_of_edge hu (le_of_not_lt hlt) hedge) hout

theorem avoids_inside (hv : g.InLoop h v) (hvh : v ≠ h) (hpath : g'.Avoids v 0 x)
    (hx : g.InLoop h x) : g.Avoids v 0 x := by
  have hhdr : g.Avoids v 0 h := by
    by_contra hdom
    exact hvh (Dominates.antisymm d.pos (d.reach h d.header_lt) hdom hv.dominates)
  revert hx
  refine hpath.induct (P := fun x => g.InLoop h x → g.Avoids v 0 x) (fun h0 _ => .refl h0)
    fun u w _ ih hedge hw hin => ?_
  by_cases hwh : w = h
  · exact hwh ▸ hhdr
  · have hlt := hin.lt_size d.isHeader
    by_cases hu : u < g.size
    · have hkept := d.kept_of_edge hu hlt hedge
      exact (ih (hin.pred hwh hkept.1)).tail hkept.1 hw
    · exact absurd hin (d.exit_out w (d.exit_of_edge (le_of_not_lt hu) hlt hedge))

theorem dominates_lift (hu : u < g.size) (hin : g.InLoop h v → v = h ∨ g.InLoop h u)
    (hdom : g.Dominates v u) : g'.Dominates v u := by
  intro hpath
  by_cases hv : g.InLoop h v
  · rcases eq_or_ne v h with rfl | hvh
    · exact hdom (d.avoids_without_header hpath).2.2
    · exact hdom (d.avoids_inside hv hvh hpath ((hin hv).resolve_left hvh))
  · exact hdom ((d.avoids_outside hv hpath).1 hu)

theorem dominates_of_dominates (hv : v < g.size) (hdom : g'.Dominates v u) : g.Dominates v u :=
  fun hpath => hdom (d.avoids_lift hv hpath)

theorem dominates_new (hu : g.size ≤ u) (hv : ¬g.InLoop h v) (hdom : g.Dominates v h) : g'.Dominates v u :=
  fun hpath => hdom ((d.avoids_outside hv hpath).2 hu)

theorem dominates_exit (he : e ∈ exits) (hb : g.InLoop h b) (hdom : g.Dominates e b) : g.Dominates e h :=
  fun hpath => hdom (hpath.trans ((d.avoids_header (d.exit_out e he) (.self g h) hpath).2 b hb))

end Dominance

section Reducible

theorem forward_old (hu : u < g.size) (hv : v < g.size) (hedge : g'.Forward u v) : g.Forward u v := by
  have hkept := d.kept_of_edge hu hv hedge.1
  refine ⟨hkept.1, fun hdom => hedge.2 (d.dominates_lift hu (fun hin => ?_) hdom)⟩
  by_cases hvh : v = h
  · exact .inl hvh
  · exact .inr (hin.pred hvh hkept.1)

theorem forward_exit (hu : g.size ≤ u) (hv : v < g.size) (hedge : g'.Forward u v) :
    v ∈ exits ∧ TransGen g.Forward h v := by
  have he := d.exit_of_edge hu hv hedge.1
  obtain ⟨b, hb, hleft⟩ := d.exit_left v he
  have hfwd : g.Forward b v :=
    ⟨hleft, fun hdom => hedge.2 (d.dominates_new hu (d.exit_out v he) (d.dominates_exit he hb hdom))⟩
  have hb' := d.reach b (hb.lt_size d.isHeader)
  obtain ⟨t, htrail, hnd, -⟩ := trail_reversePostorder d.pos hb'
  have hlt := hb'.lt d.pos
  exact ⟨he, TransGen.tail' (htrail.forward hlt hnd (htrail.mem_of_dominates hlt hb.dominates)) hfwd⟩

variable (hred : g.Reducible)
include hred

theorem forward_from_new (hu : g.size ≤ u) (hpath : TransGen g'.Forward u v) (hv : v < g.size) :
    ¬g.InLoop h v ∧ TransGen g.Forward h v := by
  have hexit : ∀ {u v}, g.size ≤ u → g'.Forward u v → v < g.size →
      ¬g.InLoop h v ∧ TransGen g.Forward h v := fun hu hedge hv =>
    (d.forward_exit hu hv hedge).imp_left (d.exit_out _)
  induction hpath with
  | single hedge => exact hexit hu hedge hv
  | @tail w v _ hedge ih =>
    by_cases hw : w < g.size
    · obtain ⟨hout, hpath⟩ := ih hw
      have hfwd := d.forward_old hw hv hedge
      have hpath' := hpath.tail hfwd
      refine ⟨fun hin => ?_, hpath'⟩
      by_cases hvh : v = h
      · exact hred h (hvh ▸ hpath')
      · exact hout (hin.pred hvh hfwd.1)
    · exact hexit (le_of_not_lt hw) hedge hv

theorem rank_lt_of_forward (hu : g.size ≤ u) (hv : g.size ≤ v) (hpath : TransGen g'.Forward u v) :
    rank g exits u < rank g exits v := by
  induction hpath with
  | single hedge => exact d.rank_lt hu hv hedge.1
  | @tail w v hpath hedge ih =>
    by_cases hw : w < g.size
    · exact absurd (d.inLoop_of_edge hw hv hedge.1) (d.forward_from_new hred hu hpath hw).1
    · exact Nat.lt_trans (ih (le_of_not_lt hw)) (d.rank_lt (le_of_not_lt hw) hv hedge.1)

theorem reducible : g'.Reducible := by
  intro x hcyc
  by_cases hx : x < g.size
  · have hcases : ∀ y, TransGen g'.Forward x y →
        (∃ z, g.size ≤ z ∧ TransGen g'.Forward x z ∧ ReflTransGen g'.Forward z y) ∨
          (y < g.size ∧ TransGen g.Forward x y) := by
      intro y hpath
      induction hpath with
      | @single y hedge =>
        by_cases hy : y < g.size
        · exact .inr ⟨hy, .single (d.forward_old hx hy hedge)⟩
        · exact .inl ⟨y, le_of_not_lt hy, .single hedge, .refl⟩
      | @tail w y hpath hedge ih =>
        rcases ih with ⟨z, hz, hxz, hzw⟩ | ⟨hw, hxw⟩
        · exact .inl ⟨z, hz, hxz, hzw.tail hedge⟩
        · by_cases hy : y < g.size
          · exact .inr ⟨hy, hxw.tail (d.forward_old hw hy hedge)⟩
          · exact .inl ⟨y, le_of_not_lt hy, hpath.tail hedge, .refl⟩
    rcases hcases x hcyc with ⟨z, hz, hxz, hzx⟩ | ⟨-, hxx⟩
    · exact absurd (d.rank_lt_of_forward hred hz hz (TransGen.trans_right hzx hxz)) (Nat.lt_irrefl _)
    · exact hred x hxx
  · have hx := le_of_not_lt hx
    exact absurd (d.rank_lt_of_forward hred hx hx hcyc) (Nat.lt_irrefl _)

end Reducible

section Loops

theorem not_dominates_new (hk : g.size ≤ k) (hedge : g'.Edge u k) : ¬g'.Dominates k u := by
  have htwo := d.two
  refine not_not.2 ?_
  by_cases hu : u < g.size
  · exact d.avoids_of_new hk (d.inLoop_of_edge hu hk hedge)
  rcases d.new_cases (le_of_not_lt hu) hedge.lt_size with ⟨j, hj, rfl⟩ | ⟨i, hi, rfl⟩
  · obtain rfl : k = g.size + j + 1 := by
      rcases (d.test j k hj).1 hedge with hget | heq
      · have := d.exit_lt k (List.mem_of_getElem? hget)
        omega
      · split at heq
        · exact heq
        · have := d.exit_lt _ (heq ▸ d.last_mem)
          omega
    have hnext : j + 1 < exits.length - 1 := by
      by_contra hlast
      have hedge := (d.test j _ hj).1 hedge
      rw [if_neg hlast] at hedge
      have hlt := d.exit_lt _ (hedge.elim List.mem_of_getElem? fun heq => heq ▸ d.last_mem)
      omega
    have hstart : g'.Edge (g.size + (exits.length - 1) + 0) g.size := (d.landing 0 _ (by omega)).2 rfl
    exact ((d.avoids_landing (by omega) (by omega) (by omega)).tail hstart (by omega)).trans
      (d.avoids_test hj (.inr (by omega)))
  · obtain rfl := (d.landing i k hi).1 hedge
    exact d.avoids_landing hi (Nat.le_refl _) (by omega)

theorem latch_cases (hlatch : g'.Latch k u) : k < g.size ∧ ((u < g.size ∧ g.Latch k u) ∨
      (k ∈ exits ∧ ∀ b, g.InLoop h b → g.Edge b k → g.Latch k b)) := by
  obtain ⟨-, hedge, hdom⟩ := hlatch
  have hk : k < g.size := by
    by_contra hk
    exact d.not_dominates_new (le_of_not_lt hk) hedge hdom
  refine ⟨hk, ?_⟩
  by_cases hu : u < g.size
  · exact .inl ⟨hu, d.reach u hu, (d.kept_of_edge hu hk hedge).1, d.dominates_of_dominates hk hdom⟩
  · have hu := le_of_not_lt hu
    have hexit := d.exit_of_edge hu hk hedge
    refine .inr ⟨hexit, fun b hb hleft => ⟨d.reach b hleft.lt_size, hleft, fun hpath => ?_⟩⟩
    -- A path to `b` that avoids `k` goes on over the landing to the test at `u`.
    obtain ⟨i, hi, hget⟩ := List.getElem_of_mem hexit
    have hland := d.edge_landing (List.getElem?_eq_some_iff.2 ⟨hi, hget⟩) hb hleft
    have hstart : g'.Edge (g.size + (exits.length - 1) + i) g.size := (d.landing i _ hi).2 rfl
    obtain ⟨j, hj, rfl⟩ : ∃ j < exits.length - 1, u = g.size + j := by
      rcases d.new_cases hu hedge.lt_size with htest | ⟨i, hi, rfl⟩
      · exact htest
      · have := (d.landing i k hi).1 hedge
        omega
    exact hdom ((((d.avoids_lift hk hpath).tail hland (by omega)).tail hstart (by omega)).trans
      (d.avoids_test hj (.inl hk)))

theorem isHeader_of_isHeader (hk : g'.IsHeader k) : g.IsHeader k := by
  obtain ⟨u, hu⟩ := hk
  rcases (d.latch_cases hu).2 with ⟨-, hlatch⟩ | ⟨hexit, hall⟩
  · exact ⟨u, hlatch⟩
  · obtain ⟨b, hb, hleft⟩ := d.exit_left k hexit
    exact ⟨b, hall b hb hleft⟩

theorem latch_lift (hback : k ∈ exits → ∀ b, g.InLoop h b → ¬g.InLoop k b) (hlatch : g.Latch k u) : g'.Latch k u := by
  have hedge : g'.Edge u k :=
    d.edge_of_kept ⟨hlatch.2.1, fun hout => hback hout.2 u hout.1 (.of_latch hlatch)⟩
  refine ⟨d.reachable hedge.lt_size, hedge, d.dominates_lift hlatch.2.1.lt_size (fun hin => ?_) hlatch.2.2⟩
  by_cases hkh : k = h
  · exact .inl hkh
  · exact .inr (hin.pred hkh hlatch.2.1)

theorem inLoop_iff (hinner : ∀ e ∈ exits, g.InLoop k e → e = k)
    (hback : k ∈ exits → ∀ b, g.InLoop h b → ¬g.InLoop k b) : g'.InLoop k x ↔ g.InLoop k x := by
  constructor
  · rintro (rfl | ⟨u, hlatch, hpath⟩)
    · exact .self g x
    · have hlatch : g.Latch k u := by
        rcases (d.latch_cases hlatch).2 with ⟨-, hold⟩ | ⟨hexit, hall⟩
        · exact hold
        · obtain ⟨b, hb, hleft⟩ := d.exit_left k hexit
          exact absurd (InLoop.of_latch (hall b hb hleft)) (hback hexit b hb)
      obtain ⟨-, hsteps⟩ := hpath
      induction hsteps using ReflTransGen.head_induction_on with
      | refl => exact .of_latch hlatch
      | @head y z hyz _ ih =>
        have hz := ih.lt_size ⟨u, hlatch⟩
        by_cases hy : y < g.size
        · exact ih.pred hyz.2 (d.kept_of_edge hy hz hyz.1).1
        · exact absurd (hinner z (d.exit_of_edge (le_of_not_lt hy) hz hyz.1) ih) hyz.2
  · rintro (rfl | ⟨u, hlatch, hpath⟩)
    · exact .self g' x
    · refine .inr ⟨u, d.latch_lift hback hlatch, hpath.1, ?_⟩
      obtain ⟨-, hsteps⟩ := hpath
      induction hsteps using ReflTransGen.head_induction_on with
      | refl => exact .refl
      | @head y z hyz hzu ih =>
        have hz : g.InLoop k z := .inr ⟨u, hlatch, hyz.2, hzu⟩
        have hkept : Kept g h exits y z := ⟨hyz.1, fun hout => hyz.2 (hinner z hout.2 hz)⟩
        exact ih.head ⟨d.edge_of_kept hkept, hyz.2⟩

theorem reaches_exit (hx : g.InLoop h x) (he : e ∈ exits) : TransGen g.Edge x e := by
  obtain ⟨b, hb, hleft⟩ := d.exit_left e he
  exact ((hx.returns d.isHeader).trans_left (hb.runs (d.reach b hleft.lt_size))).tail hleft

theorem transGen_old (hx : x < g.size) (hpath : TransGen g'.Edge x y) :
    (y < g.size → TransGen g.Edge x y) ∧ (g.size ≤ y → TransGen g.Edge x h) := by
  induction hpath with
  | @single v hedge =>
    refine ⟨fun hv => .single (d.kept_of_edge hx hv hedge).1, fun hv => ?_⟩
    exact (d.inLoop_of_edge hx hv hedge).returns d.isHeader
  | @tail u v _ hedge ih =>
    by_cases hu : u < g.size
    · refine ⟨fun hv => (ih.1 hu).tail (d.kept_of_edge hu hv hedge).1, fun hv => ?_⟩
      exact (ih.1 hu).trans ((d.inLoop_of_edge hu hv hedge).returns d.isHeader)
    · have hu := le_of_not_lt hu
      exact ⟨fun hv => (ih.2 hu).trans (d.reaches_exit (.self g h) (d.exit_of_edge hu hv hedge)), fun _ => ih.2 hu⟩

theorem ends_of_ends (hexit : exit < g.size) (ht : t < g.size) (hends : g'.Ends exit t) : g.Ends exit t := by
  refine ⟨ht, ?_⟩
  obtain rfl | hpath := reflTransGen_iff_eq_or_transGen.1 hends.2
  · exact .refl
  · exact ((d.transGen_old ht hpath).1 hexit).to_reflTransGen

end Loops
end Detour
end ShaderRecompiler.Digraph
