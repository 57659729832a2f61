import ShaderRecompiler.Proofs.Detour
import ShaderRecompiler.Proofs.Structuring

/-! Routing comes to its end. Inner loops are routed first, and a loop that was
routed keeps one exit: every way out of it goes over its first test, and that
test lies in each loop around it. So each header is routed at most once, and a
round for each block and one more are enough. -/
namespace ShaderRecompiler

open Relation List Loop Nat

variable {landings : List Landing} {loops : List Loop} {l : Loop} {n : Nat}

namespace Digraph

variable {g g' : Digraph} {exit h k t x y : Nat} {exits : List Nat}

theorem crossing {P : Nat → Prop} (hpath : ReflTransGen R x y) (hx : P x)
    (hy : ¬P y) : ∃ b t, R b t ∧ P b ∧ ¬P t ∧ ReflTransGen R t y := by
  induction hpath using ReflTransGen.head_induction_on with
  | refl => exact absurd hx hy
  | @head b t hstep hrest ih =>
    by_cases ht : P t
    · exact ih ht
    · exact ⟨b, t, hstep, hx, ht, hrest⟩

/-- The loop of `h` has been routed. -/
def Owned (landings : List Landing) (h : Nat) : Prop := ∃ x, ⟨x, h⟩ ∈ landings

/-- The loop of `h` goes on at one block at most. -/
def Single (g : Digraph) (exit : Nat) (landings : List Landing) (h : Nat) : Prop :=
  ∀ t t', g.Exit exit landings h t → g.Exit exit landings h t' → t = t'

/-- What every round of routing keeps, from a graph of `n` blocks on. -/
structure Routable (n exit : Nat) (g : Digraph) (landings : List Landing) : Prop where
  le_size : n ≤ g.size
  exit_lt : exit < n
  reach : ∀ b < g.size, g.Reachable b
  reducible : g.Reducible
  header_lt : ∀ k, g.IsHeader k → k < n
  landing_ge : ∀ x k, ⟨x, k⟩ ∈ landings → n ≤ x
  landing_lt : ∀ x k, ⟨x, k⟩ ∈ landings → x < g.size
  owner : ∀ x k, ⟨x, k⟩ ∈ landings → g.IsHeader k
  /-- Landings are entered from the loop. -/
  preds : ∀ x k, ⟨x, k⟩ ∈ landings → ∀ y, g.Edge y x → g.InLoop k y
  /-- No loop in a routed one has two exits. -/
  single : ∀ k h, Owned landings k → g.IsHeader h → g.InLoop k h → g.Single exit landings h

namespace Routable

variable (R : Routable n exit g landings)
include R

theorem pos : 0 < g.size := lt_of_lt_of_le (zero_lt_of_lt R.exit_lt) R.le_size

theorem body_lt (hk : g.IsHeader k) (hx : g.InBody landings k x) : x < g.size :=
  hx.elim (·.lt_size hk) (R.landing_lt x k)

theorem exit_lt_size : exit < g.size := lt_of_lt_of_le R.exit_lt R.le_size

section Inner

variable (hkh : g.InLoop h k) (hne : k ≠ h) (hh : g.IsHeader h)
include hkh hne hh

theorem not_inBody_outer : ¬g.InBody landings k h := by
  have hlt := hkh.lt_size hh
  rintro (hin | hland)
  · exact InLoop.not_outer R.pos (R.reach k hlt) hkh hne hin
  · exact absurd (R.header_lt h hh) (not_lt.2 (R.landing_ge h k hland))

theorem exit_inside (hends : g.Ends exit h) : ∃ t, g.Exit exit landings k t ∧ g.InLoop h t := by
  obtain ⟨u, hlatch, hpath⟩ := hkh.resolve_left hne
  have haround : ReflTransGen (fun a b => g.Edge a b ∧ g.InLoop h b) k h := by
    obtain ⟨-, hsteps⟩ := hpath
    have hins : ReflTransGen (fun a b => g.Edge a b ∧ g.InLoop h b) k u := by
      clear hkh hne
      induction hsteps using ReflTransGen.head_induction_on with
      | refl => exact .refl
      | @head y z hyz hzu ih => exact ih.head ⟨hyz.1, .inr ⟨u, hlatch, hyz.2, hzu⟩⟩
    exact hins.tail ⟨hlatch.2.1, .self g h⟩
  obtain ⟨b, t, ⟨hedge, hin⟩, hb, ht, hrest⟩ :=
    crossing (P := g.InBody landings k) haround (.inl (.self g k))
      (R.not_inBody_outer hkh hne hh)
  have hback : ReflTransGen g.Edge t h := ReflTransGen.mono (fun _ _ hstep => hstep.1) _ _ hrest
  exact ⟨t, ⟨ht, ⟨hedge.2, hback.trans hends.2⟩, b, hedge.lt_size, hb, hedge⟩, hin⟩

variable (hsingle : g.Single exit landings k) (hends : g.Ends exit h)
include hsingle hends

theorem inLoop_of_exit (ht : g.Exit exit landings k t) : g.InLoop h t := by
  obtain ⟨t', ht', hin⟩ := R.exit_inside hkh hne hh hends
  exact hsingle t t' ht ht' ▸ hin

theorem inLoop_of_landing (hland : ⟨x, k⟩ ∈ landings) (hx : g.Ends exit x) : g.InLoop h x := by
  by_contra hout
  have hkr := R.reach k (hkh.lt_size hh)
  have hnest : ∀ y, g.InLoop k y → g.InLoop h y := fun y hy => InLoop.nested R.pos hkr hkh hy
  have hexit : ¬(g.InBody landings k exit ∧ ¬g.InLoop h exit) := by
    rintro ⟨hin | hland, hout⟩
    · exact hout (hnest exit hin)
    · exact absurd R.exit_lt (not_lt.2 (R.landing_ge exit k hland))
  obtain ⟨y, z, hedge, ⟨hy, hyout⟩, hz, hrest⟩ :=
    crossing (P := fun y => g.InBody landings k y ∧ ¬g.InLoop h y) hx.2 ⟨.inr hland, hout⟩ hexit
  have hyland : ⟨y, k⟩ ∈ landings := hy.resolve_left fun hin => hyout (hnest y hin)
  have hzin : g.InLoop h z := by
    by_cases hzbody : g.InBody landings k z
    · exact not_not.1 fun hzout => hz ⟨hzbody, hzout⟩
    · exact R.inLoop_of_exit hkh hne hh hsingle hends
        ⟨hzbody, ⟨hedge.2, hrest⟩, y, hedge.lt_size, .inr hyland, hedge⟩
  by_cases hzh : z = h
  · -- The landing itself is a latch: it is entered from the loop only.
    subst hzh
    refine hyout (.of_latch ⟨R.reach y hedge.lt_size, hedge, fun hpath => ?_⟩)
    rcases ReflTransGen.cases_tail hpath.2 with heq | ⟨p, hp, hpy⟩
    · have := R.landing_ge y k hyland
      have := R.exit_lt
      omega
    · exact (hnest p (R.preds y k hyland p hpy.1)).dominates ⟨hpath.1, hp⟩
  · exact hyout (hzin.pred hzh hedge)

end Inner

end Routable

def landed (g : Digraph) (h : Nat) (exits : List Nat) : List Landing :=
  (range exits.length).map fun i => ⟨g.size + (exits.length - 1) + i, h⟩

theorem mem_landed : ⟨x, k⟩ ∈ landed g h exits ↔
    k = h ∧ ∃ i < exits.length, x = g.size + (exits.length - 1) + i := by
  simp only [landed, mem_map, mem_range, Landing.mk.injEq]
  constructor
  · rintro ⟨i, hi, rfl, rfl⟩
    exact ⟨rfl, i, hi, rfl⟩
  · rintro ⟨rfl, i, hi, rfl⟩
    exact ⟨i, hi, rfl, rfl⟩

theorem Detour.inLoop_inner (d : Detour g g' h exits) (hk : g.InLoop h k) : (∀ x, g'.InLoop k x ↔ g.InLoop k x) ∧
    ∀ u, g.Latch k u → g'.Latch k u := by
  have hkr := d.reach k (hk.lt_size d.isHeader)
  have hback : k ∈ exits → ∀ b, g.InLoop h b → ¬g.InLoop k b := fun he => absurd hk (d.exit_out k he)
  refine ⟨fun x => d.inLoop_iff (fun e he hin => ?_) hback, fun u => d.latch_lift hback⟩
  exact absurd (InLoop.nested d.pos hkr hk hin) (d.exit_out e he)

theorem Detour.inLoop_apart (d : Detour g g' h exits) (hk : ∀ x, g.InLoop h x → ¬g.InLoop k x) :
    (∀ x, g'.InLoop k x ↔ g.InLoop k x) ∧ ∀ u, g.Latch k u → g'.Latch k u := by
  refine ⟨fun x => d.inLoop_iff (fun e he hin => ?_) fun _ => hk, fun u => d.latch_lift fun _ => hk⟩
  by_contra hek
  obtain ⟨b, hb, hedge⟩ := d.exit_left e he
  exact hk b hb (hin.pred hek hedge)

theorem Detour.header_ends (d : Detour g g' h exits)
    (hexits : ∀ t, t ∈ exits ↔ g.Exit exit landings h t) : g.Ends exit h := by
  obtain ⟨e, he⟩ : ∃ e, e ∈ exits := exists_mem_of_length_pos (by have := d.two; omega)
  exact ⟨d.header_lt, (d.reaches_exit (.self g h) he).to_reflTransGen.trans ((hexits e).1 he).2.1.2⟩

namespace Routable

variable (R : Routable n exit g landings) (d : Detour g g' h exits)
include R d

theorem owned_cases (hexits : ∀ t, t ∈ exits ↔ g.Exit exit landings h t)
    (hunowned : ¬Owned landings h) (hnd : exits.Nodup) (hk : Owned landings k) :
    k ≠ h ∧ ¬g.InLoop k h ∧ (g.InLoop h k ∨ ∀ x, g.InLoop h x → ¬g.InLoop k x) := by
  have hkh : k ≠ h := by
    rintro rfl
    exact hunowned hk
  have hnot : ¬g.InLoop k h := by
    intro hin
    have htwo := d.two
    have hfst := (hexits _).1 (getElem_mem (show 0 < exits.length by omega))
    have hsnd := (hexits _).1 (getElem_mem (show 1 < exits.length by omega))
    have heq := R.single k h hk d.isHeader hin _ _ hfst hsnd
    exact absurd ((Nodup.getElem_inj_iff hnd).1 heq) (by decide)
  refine ⟨hkh, hnot, ?_⟩
  by_cases hin : g.InLoop h k
  · exact .inl hin
  · refine .inr fun x hx hx' => ?_
    rcases InLoop.comparable R.pos (d.reach x (hx.lt_size d.isHeader)) hx hx' with h₁ | h₁
    · exact hin h₁
    · exact hnot h₁

theorem exit_routed (hexits : ∀ t, t ∈ exits ↔ g.Exit exit landings h t)
    (hunowned : ¬Owned landings h) (ht : g'.Exit exit (landings ++ landed g h exits) h t) : t = g.size := by
  obtain ⟨hout, hends, b, -, hb, hedge⟩ := ht
  have hloop := (d.inLoop_inner (.self g h)).1
  have hbody : ∀ y, g'.InBody (landings ++ landed g h exits) h y ↔
      g.InLoop h y ∨ ∃ i < exits.length, y = g.size + (exits.length - 1) + i := by
    intro y
    rw [InBody, hloop, mem_append, mem_landed]
    have : (⟨y, h⟩ : Landing) ∉ landings := fun hl => hunowned ⟨y, hl⟩
    simp [this]
  rw [hbody] at hout hb
  rcases hb with hb | ⟨i, hi, rfl⟩
  · exfalso
    have hlt := hb.lt_size d.isHeader
    by_cases htlt : t < g.size
    · obtain ⟨hleft, hkept⟩ := d.kept_of_edge hlt htlt hedge
      refine hkept ⟨hb, (hexits t).2 ⟨?_, d.ends_of_ends R.exit_lt_size htlt hends, b, hlt, .inl hb, hleft⟩⟩
      rintro (hin | hl)
      · exact hout (.inl hin)
      · exact hunowned ⟨t, hl⟩
    · obtain ⟨-, i, e, hget, -, rfl⟩ := (d.landed b t hlt (Nat.le_of_not_lt htlt)).1 hedge
      obtain ⟨hi, -⟩ := List.getElem?_eq_some_iff.1 hget
      exact hout (.inr ⟨i, hi, rfl⟩)
  · exact (d.landing i t hi).1 hedge

theorem single_kept (hk : g.IsHeader k) (hkh : k ≠ h) (hloop : ∀ x, g'.InLoop k x ↔ g.InLoop k x)
    (hsingle : g.Single exit landings k)
    (hstay : ∀ b e, g.InBody landings k b → g.InLoop h b → e ∈ exits → ¬g.Edge b e) :
    g'.Single exit (landings ++ landed g h exits) k := by
  have hbody : ∀ y, g'.InBody (landings ++ landed g h exits) k y ↔ g.InBody landings k y := by
    intro y
    rw [InBody, InBody, hloop, mem_append, mem_landed]
    simp [hkh]
  have hback : ∀ t, g'.Exit exit (landings ++ landed g h exits) k t → g.Exit exit landings k t := by
    rintro t ⟨hout, hends, b, -, hb, hedge⟩
    rw [hbody] at hout hb
    have hlt := R.body_lt hk hb
    by_cases ht : t < g.size
    · exact ⟨hout, d.ends_of_ends R.exit_lt_size ht hends, b, hlt, hb, (d.kept_of_edge hlt ht hedge).1⟩
    · obtain ⟨hin, i, e, hget, hleft, -⟩ := (d.landed b t hlt (Nat.le_of_not_lt ht)).1 hedge
      exact absurd hleft (hstay b e hb hin (mem_of_getElem? hget))
  exact fun t t' ht ht' => hsingle t t' (hback t ht) (hback t' ht')

theorem single_inner (hexits : ∀ t, t ∈ exits ↔ g.Exit exit landings h t) (hk : g.IsHeader k) (hin : g.InLoop h k)
    (hkh : k ≠ h) (hsingle : g.Single exit landings k) : g'.Single exit (landings ++ landed g h exits) k := by
  refine R.single_kept d hk hkh (d.inLoop_inner hin).1 hsingle
    fun b e hb _ he hedge => ?_
  have hends := d.header_ends hexits
  have hout := d.exit_out e he
  have heends := ((hexits e).1 he).2.1
  have hkr := d.reach k (hin.lt_size d.isHeader)
  by_cases hbody : g.InBody landings k e
  · rcases hbody with hbody | hland
    · exact hout (InLoop.nested R.pos hkr hin hbody)
    · exact hout (R.inLoop_of_landing hin hkh d.isHeader hsingle hends hland heends)
  · exact hout (R.inLoop_of_exit hin hkh d.isHeader hsingle hends
      ⟨hbody, heends, b, hedge.lt_size, hb, hedge⟩)

theorem single_apart (hk : g.IsHeader k) (hapart : ∀ x, g.InLoop h x → ¬g.InLoop k x)
    (hsingle : g.Single exit landings k) : g'.Single exit (landings ++ landed g h exits) k := by
  have hkh : k ≠ h := by
    rintro rfl
    exact hapart k (.self g k) (.self g k)
  refine R.single_kept d hk hkh (d.inLoop_apart hapart).1 hsingle
    fun b _ hb hin _ hedge => ?_
  -- A landing of the other loop is entered from there, so it is not in this one.
  have hland := hb.resolve_left (hapart b hin)
  have hbn := R.landing_ge b k hland
  have hbh : b ≠ h := fun heq => by
    have := R.header_lt h d.isHeader
    omega
  rcases ReflTransGen.cases_tail (R.reach b hedge.lt_size) with heq | ⟨y, -, hyb⟩
  · have := R.exit_lt
    omega
  · exact hapart y (hin.pred hbh hyb) (R.preds b k hland y hyb)

/-- A round keeps what rounds need. The loop that is routed has not been routed
before, and the loops in it have one exit each. -/
theorem step (hexits : ∀ t, t ∈ exits ↔ g.Exit exit landings h t) (hunowned : ¬Owned landings h)
    (hnd : exits.Nodup)
    (hinner : ∀ k, g.IsHeader k → g.InLoop h k → k ≠ h → g.Single exit landings k) :
    Routable n exit g' (landings ++ landed g h exits) := by
  have hgrow := d.size_lt
  have howned := fun k => R.owned_cases d (k := k) hexits hunowned hnd
  have hkept : ∀ k, Owned landings k → (∀ x, g'.InLoop k x ↔ g.InLoop k x) ∧
      ∀ u, g.Latch k u → g'.Latch k u := by
    intro k hk
    rcases (howned k hk).2.2 with hin | hapart
    · exact d.inLoop_inner hin
    · exact d.inLoop_apart hapart
  refine
    { le_size := le_trans R.le_size (le_of_lt hgrow)
      exit_lt := R.exit_lt
      reach := fun b hb => d.reachable hb
      reducible := d.reducible R.reducible
      header_lt := fun k hk => R.header_lt k (d.isHeader_of_isHeader hk)
      landing_ge := fun x k hx => ?_
      landing_lt := fun x k hx => ?_
      owner := fun x k hx => ?_
      preds := fun x k hx y hedge => ?_
      single := fun k h' hk hh' hin => ?_ }
  · rcases mem_append.1 hx with hx | hx
    · exact R.landing_ge x k hx
    · obtain ⟨-, i, -, rfl⟩ := mem_landed.1 hx
      have := R.le_size
      omega
  · rcases mem_append.1 hx with hx | hx
    · exact lt_trans (R.landing_lt x k hx) hgrow
    · obtain ⟨-, i, hi, rfl⟩ := mem_landed.1 hx
      rw [d.size]
      omega
  · rcases mem_append.1 hx with hx | hx
    · obtain ⟨u, hu⟩ := R.owner x k hx
      exact ⟨u, (hkept k ⟨x, hx⟩).2 u hu⟩
    · obtain ⟨rfl, -⟩ := mem_landed.1 hx
      obtain ⟨u, hu⟩ := d.isHeader
      exact ⟨u, (d.inLoop_inner (.self g k)).2 u hu⟩
  · rcases mem_append.1 hx with hx | hx
    · rw [(hkept k ⟨x, hx⟩).1]
      have hlt := R.landing_lt x k hx
      by_cases hy : y < g.size
      · exact R.preds x k hx y (d.kept_of_edge hy hlt hedge).1
      · -- An exit that is a landing of an inner loop would lie in the routed loop.
        exfalso
        have hexit := d.exit_of_edge (Nat.le_of_not_lt hy) hlt hedge
        obtain ⟨b, hb, hleft⟩ := d.exit_left x hexit
        obtain ⟨hkh, -, hin | hapart⟩ := howned k ⟨x, hx⟩
        · exact d.exit_out x hexit (R.inLoop_of_landing hin hkh d.isHeader
            (R.single k k ⟨x, hx⟩ (R.owner x k hx) (.self g k)) (d.header_ends hexits) hx
            ((hexits x).1 hexit).2.1)
        · exact hapart b hb (R.preds x k hx b hleft)
    · obtain ⟨rfl, i, hi, rfl⟩ := mem_landed.1 hx
      rw [(d.inLoop_inner (.self g k)).1]
      by_cases hy : y < g.size
      · exact d.inLoop_of_edge hy (by omega) hedge
      · have hrank := d.rank_lt (Nat.le_of_not_lt hy) (by omega) hedge
        unfold Detour.rank at hrank
        rw [if_neg (show ¬g.size + (exits.length - 1) + i < g.size + (exits.length - 1) by omega)] at hrank
        exact absurd hrank (not_lt_zero _)
  · have hh : g.IsHeader h' := d.isHeader_of_isHeader hh'
    have hroutedInner : g.InLoop h h' → g'.Single exit (landings ++ landed g h exits) h' := by
      intro hin
      by_cases heq : h' = h
      · subst heq
        intro t t' ht ht'
        rw [R.exit_routed d hexits hunowned ht, R.exit_routed d hexits hunowned ht']
      · exact R.single_inner d hexits hh hin heq (hinner h' hh hin heq)
    obtain ⟨x, hx⟩ := hk
    rcases mem_append.1 hx with hx | hx
    · have hk : Owned landings k := ⟨x, hx⟩
      rw [(hkept k hk).1] at hin
      obtain ⟨-, -, hkin | hapart⟩ := howned k hk
      · exact hroutedInner (InLoop.nested R.pos (R.reach k (hkin.lt_size d.isHeader)) hkin hin)
      · refine R.single_apart d hh (fun x hx hx' => ?_) (R.single k h' hk hh hin)
        have hlt := hin.lt_size (R.owner _ k hk.choose_spec)
        exact hapart x hx (InLoop.nested R.pos (R.reach h' hlt) hin hx')
    · obtain ⟨rfl, -⟩ := mem_landed.1 hx
      rw [(d.inLoop_inner (.self g k)).1] at hin
      exact hroutedInner hin

end Routable
end Digraph

namespace Loop

/-- A loop inside another one is smaller. -/
theorem size_lt {m : Loop} (hsize : l.body.size = m.body.size)
    (hsub : ∀ b, l.contains b → m.contains b) (hc : m.contains c)
    (hc' : l.contains c = false) : l.size < m.size := by
  have hcnt : ∀ k : Loop, k.size = ((range k.body.size).filter k.contains).length := by
    intro k
    have hlist : k.body.toList = (range k.body.size).map k.contains := by
      apply ext_getElem
      · simp
      · intro i hi _
        have hi : i < k.body.size := by simpa using hi
        simp [contains, hi]
    rw [size, hlist, List.count, countP_map, ← countP_eq_length_filter]
    congr
    funext b
    simp
  have hlt : c < m.body.size := by
    by_contra hlt
    simp [contains, hlt] at hc
  rw [hcnt, hcnt, hsize]
  -- The filtered range of the smaller loop lacks `c`.
  have hspl : (range m.body.size).filter l.contains =
      ((range m.body.size).filter m.contains).filter l.contains := by
    rw [filter_filter]
    apply filter_congr
    intro b _
    cases hb : l.contains b
    · rfl
    · simp [hsub b hb]
  rw [hspl]
  refine length_filter_lt_length_iff_exists.2 ⟨c, ?_, by simp [hc']⟩
  exact mem_filter.2 ⟨mem_range.2 hlt, hc⟩

end Loop

namespace Routine

open ShaderRecompiler.Digraph

variable {r : Routine}

/-- Routing the exits of a loop is a detour. -/
theorem detour_routeExits (hlink : r.WellLinked) (hins : r.Inside) (hpos : 0 < r.blocks.size)
    (hrch : ∀ b < r.blocks.size, r.graph.Reachable b) (hfound : r.graph.Found exit landings l)
    (hbody : l.body.size = r.blocks.size) (hunowned : ¬Owned landings l.header)
    (htwo : 1 < l.exits.length) :
    r.graph.Detour (r.routeExits l).1.graph l.header l.exits := by
  have hcont : ∀ b < r.blocks.size, l.contains b ↔ r.graph.InLoop l.header b := by
    intro b hb
    have hland : (⟨b, l.header⟩ : Landing) ∉ landings := fun hl => hunowned ⟨b, hl⟩
    rw [hfound.contains_iff, InBody, size_graph]
    simp [hb, hland]
  have hexits : ∀ x ∈ l.exits, x < r.blocks.size := fun x hx => by
    simpa using ((hfound.mem_exits x).1 hx).2.1.1
  have hloop : r.HasLoop l := ⟨hlink, le_of_eq hbody, hexits⟩
  have hsize := blocks_size_routeExits hloop
  have hnd : l.exits.Nodup := hfound.sorted.imp ne_of_lt
  have hgrow : r.blocks.size ≤ r.landingBase l := le_add_right _ _
  refine
    { pos := by simpa using hpos
      reach := by simpa using hrch
      isHeader := hfound.isHeader
      two := htwo
      exit_lt := by simpa using hexits
      exit_out := fun e he hin => ((hfound.mem_exits e).1 he).1 (.inl hin)
      exit_left := fun e he => ?_
      size := by simpa [landingBase] using hsize
      old := fun u v hu hv => ?_
      landed := fun u v hu hv => ?_
      test := fun _ v hj => ?_
      landing := fun i v hi => ?_ }
  · obtain ⟨-, -, b, hb, hin, hleft⟩ := (hfound.mem_exits e).1 he
    exact ⟨b, hin.resolve_right fun hl => hunowned ⟨b, hl⟩, hleft⟩
  · rw [size_graph] at hu hv
    rw [edge_routeExits_old hloop hins hu, ← hcont u hu]
    constructor
    · rintro ⟨t, ht, rfl⟩
      by_cases hin : l.contains u
      · simp only [if_pos hin, landOn] at hv ⊢
        by_cases hmem : t ∈ l.exits
        · rw [if_pos hmem] at hv
          omega
        · rw [if_neg hmem]
          exact ⟨ht, fun hout => hmem hout.2⟩
      · rw [if_neg hin]
        exact ⟨ht, fun hout => hin hout.1⟩
    · rintro ⟨ht, hkept⟩
      refine ⟨v, ht, ?_⟩
      by_cases hin : l.contains u
      · rw [if_pos hin, landOn, if_neg fun hmem => hkept ⟨hin, hmem⟩]
      · rw [if_neg hin]
  · rw [size_graph] at hu hv
    rw [edge_routeExits_old hloop hins hu, size_graph, ← hcont u hu]
    constructor
    · rintro ⟨t, ht, rfl⟩
      have htlt : t < r.blocks.size := by simpa using ht.2
      by_cases hin : l.contains u
      · simp only [if_pos hin, landOn] at hv ⊢
        by_cases hmem : t ∈ l.exits
        · rw [if_pos hmem]
          exact ⟨hin, l.exits.idxOf t, t, getElem?_idxOf hmem, ht, rfl⟩
        · rw [if_neg hmem] at hv
          omega
      · rw [if_neg hin] at hv
        omega
    · rintro ⟨hin, i, e, hget, ht, rfl⟩
      obtain ⟨hi, rfl⟩ := List.getElem?_eq_some_iff.1 hget
      refine ⟨_, ht, ?_⟩
      rw [if_pos hin, landOn, if_pos (getElem_mem hi), Nodup.idxOf_getElem hnd]
      rfl
  · rw [size_graph]
    exact edge_routeExits_test hloop hj
  · rw [size_graph]
    exact edge_routeExits_landing hloop hi

/-- Headers that have not been routed. -/
def unrouted (n : Nat) (landings : List Landing) : Nat :=
  ((range n).filter fun k => !landings.any (·.header == k)).length

theorem unrouted_lt (hh : h < n) (hunowned : ¬Owned landings h)
    (hadd : Owned added h) : unrouted n (landings ++ added) < unrouted n landings := by
  have hspl : ((range n).filter fun k => !(landings ++ added).any (·.header == k)) =
      ((range n).filter fun k => !landings.any (·.header == k)).filter
        fun k => !added.any (·.header == k) := by
    rw [filter_filter]
    apply filter_congr
    intro k _
    rw [any_append, Bool.not_or, Bool.and_comm]
  unfold unrouted
  rw [hspl]
  refine length_filter_lt_length_iff_exists.2 ⟨h, ?_, ?_⟩
  · refine mem_filter.2 ⟨mem_range.2 hh, ?_⟩
    simp only [Bool.not_eq_true', any_eq_false, beq_iff_eq]
    rintro ⟨x, k⟩ hl rfl
    exact hunowned ⟨x, hl⟩
  · obtain ⟨x, hx⟩ := hadd
    simp only [Bool.not_eq_true', Bool.not_eq_false, any_eq_true, beq_iff_eq]
    exact ⟨_, hx, rfl⟩

/-- The smallest loop with two exits has not been routed, and the loops in it
have one exit each. -/
theorem smallest_spec (R : Routable n exit r.graph landings)
    (hloops : r.graph.loops exit landings = .ok loops)
    (hfound : ∀ l ∈ loops, r.graph.Found exit landings l)
    (hhdrs : ∀ h, r.graph.IsHeader h → ∃ l ∈ loops, l.header = h)
    (hsmall : smallest? (loops.filter fun l => decide (1 < l.exits.length)) = some l) :
    ¬Owned landings l.header ∧ ∀ k, r.graph.IsHeader k → r.graph.InLoop l.header k → k ≠ l.header →
      r.graph.Single exit landings k := by
  obtain ⟨hl, htwo⟩ := mem_filter.1 (smallest?_spec hsmall).1
  have htwo : 1 < l.exits.length := by simpa using htwo
  have hnot : ∀ m ∈ loops, r.graph.Single exit landings m.header → ¬1 < m.exits.length := by
    intro m hm hsingle hlen
    have hfst := ((hfound m hm).mem_exits _).1 (getElem_mem (show 0 < m.exits.length by omega))
    have hsnd := ((hfound m hm).mem_exits _).1 (getElem_mem hlen)
    have hlt := pairwise_iff_getElem.1 (hfound m hm).sorted 0 1 (by omega) hlen (by omega)
    exact absurd (hsingle _ _ hfst hsnd) (Nat.ne_of_lt hlt)
  have hhdr := (hfound l hl).isHeader
  refine ⟨fun howned => ?_, fun k hk hin hne => ?_⟩
  · exact hnot l hl (R.single _ _ howned hhdr (.self _ _)) htwo
  · by_cases howned : Owned landings k
    · exact R.single k k howned hk (.self _ _)
    obtain ⟨m, hm, rfl⟩ := hhdrs k hk
    by_contra hsingle
    -- Otherwise the inner loop would have been the smaller choice.
    have hmtwo : 1 < m.exits.length := by
      unfold Single at hsingle
      push Not at hsingle
      obtain ⟨t, t', ht, ht', htt⟩ := hsingle
      rw [← (hfound m hm).mem_exits] at ht ht'
      by_contra hlen
      cases hexits : m.exits with
      | nil => simp [hexits] at ht
      | cons a rest =>
        obtain rfl : rest = [] := by
          cases rest with
          | nil => rfl
          | cons c rest => simp [hexits] at hlen
        rw [hexits, mem_singleton] at ht ht'
        exact htt (ht.trans ht'.symm)
    have hle := (smallest?_spec hsmall).2 m (mem_filter.2 ⟨hm, by simpa using hmtwo⟩)
    have hkr := R.reach m.header (hin.lt_size hhdr)
    refine absurd hle (not_le.2 (size_lt (c := l.header) ?_ (fun b hb => ?_) ?_ ?_))
    · rw [(mem_loops hloops hm).1, (mem_loops hloops hl).1]
    · obtain ⟨hlt, hbody⟩ := ((hfound m hm).contains_iff b).1 hb
      have hbody := hbody.resolve_right fun hland => howned ⟨b, hland⟩
      exact ((hfound l hl).contains_iff b).2 ⟨hlt, .inl (InLoop.nested R.pos hkr hin hbody)⟩
    · exact ((hfound l hl).contains_iff _).2 ⟨(InLoop.self _ _).lt_size hhdr, .inl (.self _ _)⟩
    · rw [← Bool.not_eq_true, (hfound m hm).contains_iff]
      exact fun hb => R.not_inBody_outer hin hne hhdr hb.2

theorem routable_routeExits (R : Routable n exit r.graph landings)
    (hlink : r.WellLinked) (hins : r.Inside) (hloops : r.graph.loops exit landings = .ok loops)
    (hsmall : smallest? (loops.filter fun l => decide (1 < l.exits.length)) = some l) :
    r.graph.Detour (r.routeExits l).1.graph l.header l.exits ∧
      Routable n exit (r.routeExits l).1.graph (landings ++ (r.routeExits l).2) ∧
      unrouted n (landings ++ (r.routeExits l).2) < unrouted n landings := by
  obtain ⟨found, hok, hfound, hhdrs⟩ := loops_of_reducible R.pos R.reducible R.exit_lt_size landings
  obtain rfl := Except.ok.inj (hloops.symm.trans hok)
  obtain ⟨hunowned, hinner⟩ := smallest_spec R hloops hfound hhdrs hsmall
  obtain ⟨hl, htwo⟩ := mem_filter.1 (smallest?_spec hsmall).1
  have htwo : 1 < l.exits.length := by simpa using htwo
  have hf := hfound l hl
  obtain ⟨hbody, -⟩ := mem_loops hloops hl
  rw [size_graph] at hbody
  have hpos := R.pos
  have hrch := R.reach
  rw [size_graph] at hpos hrch
  have d := detour_routeExits hlink hins hpos hrch hf hbody hunowned htwo
  have hadd : (r.routeExits l).2 = landed r.graph l.header l.exits := by
    unfold routeExits landed
    rw [size_graph]
  have R' := R.step d hf.mem_exits hunowned (hf.sorted.imp ne_of_lt) hinner
  rw [← hadd] at R'
  refine ⟨d, R', unrouted_lt (R.header_lt _ hf.isHeader) hunowned ?_⟩
  rw [hadd]
  exact ⟨_, mem_landed.2 ⟨rfl, 0, by omega, rfl⟩⟩

/-- Routing a reducible graph succeeds, given a round for each header that has
not been routed and one more. -/
theorem exists_singleExitLoops (R : Routable n exit r.graph landings)
    (hlink : r.WellLinked) (hins : r.Inside) (hrnds : unrouted n landings < rounds) :
    ∃ r' loops, singleExitLoops exit rounds r landings = .ok (r', loops) := by
  induction rounds generalizing r landings with
  | zero => exact absurd hrnds (not_lt_zero _)
  | succ rounds ih =>
    obtain ⟨loops, hloops, -⟩ := loops_of_reducible R.pos R.reducible R.exit_lt_size landings
    rw [singleExitLoops, hloops]
    dsimp only
    cases hsmall : smallest? (loops.filter fun l => decide (1 < l.exits.length)) with
    | none => exact ⟨r, loops, rfl⟩
    | some l =>
      have hloop := hlink.hasLoop hloops (mem_filter.1 (smallest?_spec hsmall).1).1
      obtain ⟨-, R', hlt⟩ := routable_routeExits R hlink hins hloops hsmall
      exact ih R' (views_routeExits hloop).1 (hins.routeExits hloop) (by omega)

end Routine
end ShaderRecompiler
