import ShaderRecompiler.Flow.Loop
import ShaderRecompiler.Proofs.Search

/-! Dominance along paths, and reducible graphs: in a reducible graph the
retreating edges of the depth-first order are the edges back to a dominator,
whatever the order was. -/
namespace ShaderRecompiler.Digraph

open Relation List

variable {g : Digraph}

def Reachable (g : Digraph) (b : Nat) : Prop := ReflTransGen g.Edge 0 b

/-- A path from `x` to `y` that does not meet `a`. -/
def Avoids (g : Digraph) (a x y : Nat) : Prop :=
  x ≠ a ∧ ReflTransGen (fun u v => g.Edge u v ∧ v ≠ a) x y

/-- Every path from `entry` to `b` meets `a`. -/
def Cuts (g : Digraph) (entry a b : Nat) : Prop := ¬g.Avoids a entry b

def Dominates (g : Digraph) (a b : Nat) : Prop := ¬g.Avoids a 0 b

/-- An edge that does not lead back to a dominator. -/
def Forward (g : Digraph) (u v : Nat) : Prop := g.Edge u v ∧ ¬g.Dominates v u

/-- Without the edges back to dominators there is no cycle. -/
def Reducible (g : Digraph) : Prop := ∀ v, ¬TransGen g.Forward v v

namespace Avoids

theorem refl (h : x ≠ a) : g.Avoids a x x := ⟨h, .refl⟩

theorem tail (h : g.Avoids a x u) (hedge : g.Edge u v) (hv : v ≠ a) : g.Avoids a x v :=
  ⟨h.1, h.2.tail ⟨hedge, hv⟩⟩

theorem trans (h : g.Avoids a x u) (h' : g.Avoids a u y) : g.Avoids a x y := ⟨h.1, h.2.trans h'.2⟩

theorem head (hx : x ≠ a) (hedge : g.Edge x u) (h : g.Avoids a u y) : g.Avoids a x y :=
  ⟨hx, h.2.head ⟨hedge, h.1⟩⟩

theorem target_ne (h : g.Avoids a x y) : y ≠ a := by
  obtain ⟨hx, hpath⟩ := h
  cases hpath with
  | refl => exact hx
  | tail _ hstep => exact hstep.2

theorem reaches (h : g.Avoids a x y) : ReflTransGen g.Edge x y :=
  ReflTransGen.mono (fun _ _ hstep => hstep.1) _ _ h.2

theorem induct {P : Nat → Prop} (h : g.Avoids a x y) (hx : x ≠ a → P x)
    (hstep : ∀ u v, g.Avoids a x u → P u → g.Edge u v → v ≠ a → P v) : P y := by
  obtain ⟨hne, hpath⟩ := h
  induction hpath with
  | refl => exact hx hne
  | tail hpath hedge ih => exact hstep _ _ ⟨hne, hpath⟩ ih hedge.1 hedge.2

end Avoids

theorem cuts_self (g : Digraph) (entry b : Nat) : g.Cuts entry b b := fun h => h.target_ne rfl

theorem dominates_self (g : Digraph) (b : Nat) : g.Dominates b b := fun h => h.target_ne rfl

theorem Dominates.of_avoids (h : g.Dominates a y) (hpath : g.Avoids a x y) : g.Dominates a x :=
  fun hx => h (hx.trans hpath)

theorem lt_size_of_reaches (hx : x < g.size) (h : ReflTransGen g.Edge x y) : y < g.size := by
  cases h with
  | refl => exact hx
  | tail _ hedge => exact hedge.2

theorem Reachable.lt (h0 : 0 < g.size) (h : g.Reachable b) : b < g.size := lt_size_of_reaches h0 h

theorem Edge.reachable (h : g.Edge u v) (hu : g.Reachable u) : g.Reachable v := ReflTransGen.tail hu h

theorem Dominates.reached (hR : ∀ u v, R u v → g.Edge u v)
    (h : g.Dominates a b) (hpath : ReflTransGen R 0 b) : ReflTransGen R 0 a := by
  have hcases : g.Avoids a 0 b ∨ ReflTransGen R 0 a := by
    clear h
    induction hpath with
    | refl =>
      by_cases ha : 0 = a
      · exact .inr (ha ▸ .refl)
      · exact .inl (.refl ha)
    | @tail u v hpath hstep ih =>
      rcases ih with hu | ha
      · by_cases hv : v = a
        · exact .inr (hv ▸ hpath.tail hstep)
        · exact .inl (hu.tail (hR _ _ hstep) hv)
      · exact .inr ha
  exact hcases.resolve_left h

theorem getD_marked (g : Digraph) (a v : Nat) :
    (g.unseen.setIfInBounds a true).getD v false = decide (v = a ∧ a < g.size) := by
  simp only [Array.getD_eq_getD_getElem?, Array.getElem?_setIfInBounds]
  by_cases hva : a = v
  · subst hva
    by_cases ha : a < g.size
    · simp [ha]
    · simp [ha]
  · have := g.getD_unseen v
    rw [Array.getD_eq_getD_getElem?] at this
    simp [hva, Ne.symm hva, this]

namespace Trail

theorem since (h : g.Trail entry (s ++ x :: t)) : g.Trail x (s ++ [x]) := by
  induction s with
  | nil => exact .start
  | cons y s ih =>
    cases s with
    | nil =>
      cases h with
      | step _ hy => exact .step .start hy
    | cons z s =>
      cases h with
      | step htrail hy => exact (ih htrail).step hy

theorem of_append (h : g.Trail entry (s ++ x :: t)) : g.Trail entry (x :: t) := by
  induction s with
  | nil => exact h
  | cons y s ih =>
    cases s with
    | nil =>
      cases h with
      | step htrail _ => exact htrail
    | cons z s =>
      cases h with
      | step htrail _ => exact ih htrail

theorem avoids (h : g.Trail entry (u :: t)) (hu : u < g.size) (ha : a ∉ u :: t) : g.Avoids a entry u := by
  generalize hl : u :: t = l at h ha
  induction h generalizing u t with
  | start =>
    obtain ⟨rfl, rfl⟩ := cons.inj hl
    exact .refl (by simpa [eq_comm] using ha)
  | @step v w path htrail hw ih =>
    obtain ⟨rfl, rfl⟩ := cons.inj hl
    obtain ⟨hau, hat⟩ := not_or.1 (mt mem_cons.2 ha)
    exact (ih (Edge.lt_size ⟨hw, hu⟩) rfl hat).tail ⟨hw, hu⟩ (Ne.symm hau)

theorem reaches (h : g.Trail entry (u :: t)) (hu : u < g.size) (hx : x ∈ u :: t) : ReflTransGen g.Edge entry x := by
  generalize hl : u :: t = l at h hx
  induction h generalizing u t x with
  | start =>
    obtain rfl := mem_singleton.1 hx
    exact .refl
  | @step v w path htrail hw ih =>
    obtain ⟨rfl, rfl⟩ := cons.inj hl
    have hedge : g.Edge v u := ⟨hw, hu⟩
    rcases mem_cons.1 hx with rfl | hx
    · exact (ih hedge.lt_size rfl mem_cons_self).tail hedge
    · exact ih hedge.lt_size rfl hx

theorem mem_of_cuts (h : g.Trail entry (u :: t)) (hu : u < g.size) (ha : g.Cuts entry a u) : a ∈ u :: t := by
  by_contra hmem
  exact ha (h.avoids hu hmem)

theorem mem_of_dominates (h : g.Trail 0 (u :: t)) (hu : u < g.size) (ha : g.Dominates a u) : a ∈ u :: t :=
  h.mem_of_cuts hu ha

theorem forward (h : g.Trail 0 (u :: t)) (hu : u < g.size) (hnd : (u :: t).Nodup)
    (hx : x ∈ u :: t) : ReflTransGen g.Forward x u := by
  generalize hl : u :: t = l at h hnd hx
  induction h generalizing u t with
  | start =>
    obtain ⟨rfl, rfl⟩ := cons.inj hl
    obtain rfl := mem_singleton.1 hx
    exact .refl
  | @step v w path htrail hw ih =>
    obtain ⟨rfl, rfl⟩ := cons.inj hl
    obtain ⟨hnot, hnd⟩ := nodup_cons.1 hnd
    have hedge : g.Edge v u := ⟨hw, hu⟩
    have hfwd : g.Forward v u := ⟨hedge, not_not.2 (htrail.avoids hedge.lt_size hnot)⟩
    rcases mem_cons.1 hx with rfl | hx
    · exact .refl
    · exact (ih hedge.lt_size rfl hnd hx).tail hfwd

end Trail

section Order

variable (he : entry < g.size)
include he

theorem mem_reversePostorder : u ∈ g.reversePostorder entry ↔ ReflTransGen g.Edge entry u := by
  have hex := g.explores_search (Nat.le_of_eq size_unseen) [entry]
  obtain ⟨new, eq, -, mem⟩ := hex.finished_eq
  have hrch := g.reached_iff [entry] u
  simp only [mem_singleton, exists_eq_left, he, true_and] at hrch
  rw [append_nil] at eq
  rw [reversePostorder, eq, mem]
  constructor
  · rintro ⟨hun, hseen⟩
    have hlt : u < g.size := by simpa using Search.lt_size_of_unseen hun
    rw [isSeen_search_unseen _ hlt] at hseen
    exact hrch.1 hseen
  · intro hu
    have hlt := lt_size_of_reaches he hu
    refine ⟨?_, ?_⟩
    · rw [isSeen_eq (by simpa using hlt)]
      exact g.getD_unseen u
    · rw [isSeen_search_unseen _ hlt]
      exact hrch.2 hu

omit he in
theorem nodup_reversePostorder (g : Digraph) (entry : Nat) : (g.reversePostorder entry).Nodup := by
  obtain ⟨new, eq, nodup, -⟩ := (g.explores_search (Nat.le_of_eq size_unseen) [entry]).finished_eq
  rw [append_nil] at eq
  rw [reversePostorder, eq]
  exact nodup

theorem trail_reversePostorder (hu : ReflTransGen g.Edge entry u) : ∃ t, g.Trail entry (u :: t) ∧ (u :: t).Nodup ∧
      ∃ later earlier, g.reversePostorder entry = later ++ u :: earlier ∧ (∀ w ∈ t, w ∉ earlier) ∧
        ∀ w ∈ g.next u, w < g.size → w ∈ u :: t ∨ w ∈ earlier := by
  have hlt := lt_size_of_reaches he hu
  have hex := g.explores_search (Nat.le_of_eq size_unseen) [entry]
  have hunseen : ∀ w < g.size, ({ seen := g.unseen } : Search).isSeen w = false := fun w hw => by
    rw [isSeen_eq (by simpa using hw)]
    exact g.getD_unseen w
  have hseen : (g.search g.unseen [entry]).isSeen u := by
    rw [isSeen_search_unseen _ hlt]
    exact (g.reached_iff [entry] u).2 ⟨entry, by simp, he, hu⟩
  have hstart : ∀ v ∈ [entry], g.Trail entry [v] := by
    intro v hv
    obtain rfl := mem_singleton.1 hv
    exact .start
  have htrail := hex.trail (by simp)
    (fun w hw hw' => by rw [hunseen w (by simpa using hw)] at hw'; cases hw') (by simp) nodup_nil
    hstart (hunseen u hlt) hseen
  rw [size_unseen] at htrail
  exact htrail

/-- An edge that does not lead on in the order leads back along the trail its source was found on. -/
theorem trail_of_idxOf_le (hu : ReflTransGen g.Edge entry u) (hv : v ∈ g.next u)
    (hle : (g.reversePostorder entry).idxOf v ≤ (g.reversePostorder entry).idxOf u) :
    ∃ t, g.Trail entry (u :: t) ∧ (u :: t).Nodup ∧ v ∈ u :: t := by
  have hnd := nodup_reversePostorder g entry
  obtain ⟨t, htrail, htn, later, earlier, heq, -, hnext⟩ := trail_reversePostorder he hu
  rw [heq] at hnd hle
  have hul : u ∉ later := fun hmem => disjoint_of_nodup_append hnd hmem mem_cons_self
  rw [idxOf_append_of_notMem hul, idxOf_cons_self, Nat.add_zero] at hle
  have hvo : v ∈ g.reversePostorder entry := by
    rw [heq]
    exact idxOf_lt_length_iff.1 (Nat.lt_of_le_of_lt hle (by simp))
  refine ⟨t, htrail, htn, (hnext v hv (lt_size_of_reaches he ((mem_reversePostorder he).1 hvo))).resolve_right ?_⟩
  -- A node that finished earlier comes later in the order.
  intro hearl
  have hvl : v ∉ later := fun hmem => disjoint_of_nodup_append hnd hmem (mem_cons_of_mem _ hearl)
  have huv : u ≠ v := fun h => (nodup_cons.1 (nodup_append.1 hnd).2.1).1 (h ▸ hearl)
  rw [idxOf_append_of_notMem hvl, idxOf_cons_ne _ huv] at hle
  omega

theorem Cuts.reaches (h : g.Cuts entry a b) (hb : ReflTransGen g.Edge entry b) : ReflTransGen g.Edge entry a := by
  obtain ⟨t, htrail, -⟩ := trail_reversePostorder he hb
  have hlt := lt_size_of_reaches he hb
  exact htrail.reaches hlt (htrail.mem_of_cuts hlt h)

theorem Cuts.antisymm (hb : ReflTransGen g.Edge entry b) (h₁ : g.Cuts entry a b) (h₂ : g.Cuts entry b a) : a = b := by
  obtain ⟨t, htrail, hnd, -⟩ := trail_reversePostorder he hb
  rcases mem_cons.1 (htrail.mem_of_cuts (lt_size_of_reaches he hb) h₁) with heq | hmem
  · exact heq
  · obtain ⟨s, t', rfl⟩ := append_of_mem hmem
    have htrail' : g.Trail entry (a :: t') := Trail.of_append (s := b :: s) htrail
    have hmem' := htrail'.mem_of_cuts (lt_size_of_reaches he (h₁.reaches he hb)) h₂
    exact absurd (mem_append_right s hmem') (nodup_cons.1 hnd).1

theorem avoiding_iff (ha : a < g.size) (hb : b < g.size) (hab : a ≠ b) :
    (g.search (g.unseen.setIfInBounds a true) [entry]).seen.getD b false ↔ g.Avoids a entry b := by
  rw [search_seen (by simp)]
  simp only [getD_marked, ha, and_true, hb, true_and, Ne.symm hab, decide_false, Bool.false_eq_true,
    false_or, mem_singleton, exists_eq_left, he, decide_eq_false_iff_not]
  rfl

omit he in
theorem avoids_outside (ha : g.size ≤ a) (hx : x < g.size) : g.Avoids a x y ↔ ReflTransGen g.Edge x y := by
  refine ⟨Avoids.reaches, fun h => ⟨by omega, ReflTransGen.mono (fun _ _ hedge => ⟨hedge, ?_⟩) _ _ h⟩⟩
  have := hedge.2
  omega

theorem dominates_iff_cuts (hb : ReflTransGen g.Edge entry b) (a : Nat) :
    (g.dominance entry).dominates a b ↔ g.Cuts entry a b := by
  unfold Dominance.dominates dominance
  by_cases hab : a = b
  · subst hab
    simpa using g.cuts_self entry a
  · have hrch : (g.reached [entry]).getD b false :=
      (g.reached_iff [entry] b).2 ⟨entry, by simp, he, hb⟩
    simp only [hrch, Bool.true_and, Bool.or_eq_true, beq_iff_eq, hab, false_or,
      Bool.not_eq_true', Array.getD_eq_getD_getElem?, Array.getElem?_ofFn]
    by_cases ha : a < g.size
    · have := avoiding_iff he ha (lt_size_of_reaches he hb) hab
      simp only [ha, dif_pos, Option.getD_some]
      rw [← Bool.not_eq_true, ← Array.getD_eq_getD_getElem?, this]
      rfl
    · simp only [ha, dif_neg, not_false_eq_true, Option.getD_none]
      rw [← Array.getD_eq_getD_getElem?, hrch]
      simpa [Cuts] using (avoids_outside (Nat.le_of_not_lt ha) he).2 hb

end Order

theorem dominates_dominance (h0 : 0 < g.size) (hb : g.Reachable b) (a : Nat) :
    (g.dominance 0).dominates a b ↔ g.Dominates a b := dominates_iff_cuts h0 hb a

theorem Dominates.antisymm (h0 : 0 < g.size) (hb : g.Reachable b) (h₁ : g.Dominates a b) (h₂ : g.Dominates b a) :
    a = b := Cuts.antisymm h0 hb h₁ h₂

section Retreating

variable (h0 : 0 < g.size)
include h0

theorem mem_retreatingEdges_iff : (u, v) ∈ g.retreatingEdges (g.reversePostorder 0) ↔ g.Reachable u ∧ v ∈ g.next u ∧
      (g.reversePostorder 0).idxOf v ≤ (g.reversePostorder 0).idxOf u := by
  simp only [retreatingEdges, mem_flatMap, mem_map, mem_filter, Prod.mk.injEq,
    decide_eq_true_eq, mem_reversePostorder h0]
  constructor
  · rintro ⟨u', hu', v', ⟨hv', hle⟩, rfl, rfl⟩
    exact ⟨hu', hv', hle⟩
  · rintro ⟨hu, hv, hle⟩
    exact ⟨u, hu, v, ⟨hv, hle⟩, rfl, rfl⟩

/-- In a reducible graph the edges that retreat are those back to a dominator. -/
theorem mem_retreatingEdges (hred : g.Reducible) : (u, v) ∈ g.retreatingEdges (g.reversePostorder 0) ↔
      g.Reachable u ∧ g.Edge u v ∧ g.Dominates v u := by
  rw [mem_retreatingEdges_iff h0]
  constructor
  · rintro ⟨hu, hv, hle⟩
    obtain ⟨t, htrail, htn, hmem⟩ := trail_of_idxOf_le h0 hu hv hle
    have hedge : g.Edge u v := ⟨hv, lt_size_of_reaches h0 (htrail.reaches (hu.lt h0) hmem)⟩
    refine ⟨hu, hedge, ?_⟩
    by_contra hdom
    exact hred v (TransGen.tail' (htrail.forward (hu.lt h0) htn hmem) ⟨hedge, hdom⟩)
  · rintro ⟨hu, hedge, hdom⟩
    refine ⟨hu, hedge.1, ?_⟩
    obtain ⟨t, htrail, htn, later, earlier, heq, hearl, -⟩ := trail_reversePostorder h0 hu
    have hnd := nodup_reversePostorder g 0
    have hvo : v ∈ g.reversePostorder 0 := (mem_reversePostorder h0).2 (hedge.reachable hu)
    rcases mem_cons.1 (htrail.mem_of_dominates (hu.lt h0) hdom) with rfl | hvt
    · exact Nat.le_refl _
    · have hvl : v ∈ later := by
        rw [heq, mem_append, mem_cons] at hvo
        rcases hvo with h | rfl | h
        · exact h
        · exact absurd hvt (nodup_cons.1 htn).1
        · exact absurd h (hearl v hvt)
      have hul : u ∉ later := fun hmem => by
        rw [heq] at hnd
        exact (disjoint_of_nodup_append hnd) hmem mem_cons_self
      rw [heq, idxOf_append_of_mem hvl, idxOf_append_of_notMem hul]
      have := idxOf_lt_length_iff.2 hvl
      omega

end Retreating
end ShaderRecompiler.Digraph
