import Mathlib.Data.List.Nodup
import Mathlib.Logic.Relation
import ShaderRecompiler.Flow.Digraph

/-! Depth-first search without its depth bound. A search that is as deep as
there are unseen nodes explores the graph: whatever it is asked to visit is
either seen already or marked, followed through all its successors and then
finished. What is seen, in which order nodes finish and along which trail each
was found are read off that description. -/
namespace ShaderRecompiler

open List

namespace Search

variable (s : Search) (v w : Nat)

theorem isSeen_mark : (s.mark v).isSeen w = (decide (w = v) || s.isSeen w) := by
  unfold isSeen mark
  simp only [Array.getD_eq_getD_getElem?, Array.getElem?_setIfInBounds]
  by_cases h : v = w
  · subst h
    by_cases hv : v < s.seen.size
    · simp [hv]
    · simp [hv]
  · simp [h, Ne.symm h]

@[simp] theorem isSeen_finish : (s.finish v).isSeen w = s.isSeen w := rfl

@[simp] theorem finished_mark : (s.mark v).finished = s.finished := rfl

@[simp] theorem finished_finish : (s.finish v).finished = v :: s.finished := rfl

@[simp] theorem size_seen_mark : (s.mark v).seen.size = s.seen.size := by
  simp [mark]

def left (s : Search) : Nat := s.seen.count false

@[simp] theorem left_finish (s : Search) (v : Nat) : (s.finish v).left = s.left := rfl

theorem lt_size_of_unseen {s : Search} {v : Nat} (h : s.isSeen v = false) : v < s.seen.size := by
  by_contra hv
  simp [isSeen, hv] at h

theorem left_mark {s : Search} {v : Nat} (h : s.isSeen v = false) : (s.mark v).left + 1 = s.left := by
  have hv := lt_size_of_unseen h
  have hget : s.seen[v] = false := by simpa [isSeen, hv] using h
  unfold left mark
  rw [Array.setIfInBounds, dif_pos hv, Array.count_set]
  have hpos : 0 < s.seen.count false := by
    rw [Array.count_pos_iff]
    exact hget ▸ Array.getElem_mem hv
  simp [hget]
  omega

theorem isSeen_of_left_eq_zero {s : Search} (h : s.left = 0) (v : Nat) : s.isSeen v := by
  by_contra hv
  have hv : s.isSeen v = false := by simpa using hv
  have := left_mark hv
  omega

end Search

namespace Digraph

/-- What a search does to a list of nodes, one after the other. -/
inductive Explores (g : Digraph) : Search → List Nat → Search → Prop
  | done (s : Search) : Explores g s [] s
  | seen {s s' : Search} {v : Nat} {vs : List Nat} : s.isSeen v → Explores g s vs s' → Explores g s (v :: vs) s'
  | fresh {s s₁ s₂ : Search} {v : Nat} {vs : List Nat} : s.isSeen v = false → Explores g (s.mark v) (g.next v) s₁ →
      Explores g (s₁.finish v) vs s₂ → Explores g s (v :: vs) s₂

variable {g : Digraph}

namespace Explores

theorem isSeen_mono (h : g.Explores s vs s') : s.isSeen w → s'.isSeen w := by
  induction h with
  | done s => exact id
  | seen _ _ ih => exact ih
  | fresh _ _ _ ih₁ ih₂ =>
    intro hw
    exact ih₂ (ih₁ (by simp [Search.isSeen_mark, hw]))

theorem size_seen (h : g.Explores s vs s') : s'.seen.size = s.seen.size := by
  induction h with
  | done s => rfl
  | seen _ _ ih => exact ih
  | fresh _ _ _ ih₁ ih₂ => exact ih₂.trans (ih₁.trans (by simp))

theorem left_le (h : g.Explores s vs s') : s'.left ≤ s.left := by
  induction h with
  | done s => exact Nat.le_refl _
  | seen _ _ ih => exact ih
  | fresh hv _ _ ih₁ ih₂ =>
    have hmark := Search.left_mark hv
    rw [Search.left_finish] at ih₂
    omega

end Explores

theorem explores_foldl (g : Digraph) (depth : Nat) :
    ∀ (vs : List Nat) (s : Search), s.left ≤ depth → g.Explores s vs (vs.foldl (g.visit depth) s) := by
  induction depth with
  | zero =>
    intro vs s hs
    have hseen := Search.isSeen_of_left_eq_zero (Nat.le_zero.1 hs)
    induction vs with
    | nil => exact .done s
    | cons v vs ih => exact .seen (hseen v) ih
  | succ depth ihd =>
    intro vs
    induction vs with
    | nil => exact fun s _ => .done s
    | cons v vs ih =>
      intro s hs
      rw [foldl_cons, visit]
      by_cases hv : s.isSeen v
      · rw [if_pos hv]
        exact .seen hv (ih s hs)
      · rw [if_neg hv]
        have hv : s.isSeen v = false := by simpa using hv
        have hmark := Search.left_mark hv
        have hinner := ihd (g.next v) (s.mark v) (by omega)
        refine .fresh hv hinner (ih _ ?_)
        have hle := hinner.left_le
        rw [Search.left_finish]
        omega

theorem explores_search (g : Digraph) (hsize : seen.size ≤ g.size)
    (roots : List Nat) : g.Explores { seen } roots (g.search seen roots) := by
  apply explores_foldl
  exact Nat.le_trans (Array.count_le_size) hsize

namespace Explores

theorem isSeen_of_mem (h : g.Explores s vs s') : v ∈ vs → s'.isSeen v := by
  induction h with
  | done s => simp
  | seen hv h ih =>
    intro hmem
    rcases mem_cons.1 hmem with rfl | hmem
    · exact h.isSeen_mono hv
    · exact ih hmem
  | fresh hv h₁ h₂ ih₁ ih₂ =>
    intro hmem
    rcases mem_cons.1 hmem with rfl | hmem
    · exact h₂.isSeen_mono (h₁.isSeen_mono (by simp [Search.isSeen_mark]))
    · exact ih₂ hmem

/-- What a search sees anew it also finishes, once. -/
theorem finished_eq (h : g.Explores s vs s') : ∃ new, s'.finished = new ++ s.finished ∧ new.Nodup ∧
      ∀ w, w ∈ new ↔ s.isSeen w = false ∧ s'.isSeen w := by
  induction h with
  | done s => exact ⟨[], rfl, nodup_nil, by simp⟩
  | seen _ _ ih => exact ih
  | @fresh s s₁ s₂ v vs hv h₁ h₂ ih₁ ih₂ =>
    obtain ⟨new₁, eq₁, nodup₁, mem₁⟩ := ih₁
    obtain ⟨new₂, eq₂, nodup₂, mem₂⟩ := ih₂
    have hseen₁ : s₁.isSeen v := h₁.isSeen_mono (by simp [Search.isSeen_mark])
    refine ⟨new₂ ++ v :: new₁, by simp [eq₂, eq₁], ?_, fun w => ?_⟩
    · rw [nodup_append, nodup_cons]
      refine ⟨nodup₂, ⟨by simp [mem₁, Search.isSeen_mark], nodup₁⟩, ?_⟩
      intro a ha b hb hab
      subst hab
      have hunseen : s₁.isSeen a = false := ((mem₂ a).1 ha).1
      rcases mem_cons.1 hb with rfl | hb
      · simp [hseen₁] at hunseen
      · simp [((mem₁ a).1 hb).2] at hunseen
    · rw [mem_append, mem_cons, mem₁, mem₂, Search.isSeen_finish, Search.isSeen_mark]
      have hmono : s₁.isSeen w → s₂.isSeen w := h₂.isSeen_mono
      have hmark : s.isSeen w → s₁.isSeen w := fun hw =>
        h₁.isSeen_mono (by simp [Search.isSeen_mark, hw])
      by_cases hwv : w = v
      · subst hwv
        simp [hv, hseen₁, hmono hseen₁]
      · cases hw : s₁.isSeen w
        · have : s.isSeen w = false := by
            cases hs : s.isSeen w
            · rfl
            · rw [hmark hs] at hw
              exact hw
          simp [hwv, this]
        · simp [hwv, hmono hw]

theorem closed (h : g.Explores s vs s') : s.isSeen w = false → s'.isSeen w → ∀ x ∈ g.next w, s'.isSeen x := by
  induction h with
  | done s =>
    intro h₀ h₁
    simp [h₀] at h₁
  | seen _ _ ih => exact ih
  | @fresh s s₁ s₂ v vs hv h₁ h₂ ih₁ ih₂ =>
    intro hw hw' x hx
    cases hw₁ : s₁.isSeen w
    · exact ih₂ (by simpa using hw₁) hw' x hx
    · refine h₂.isSeen_mono ?_
      rw [Search.isSeen_finish]
      by_cases hwv : w = v
      · exact h₁.isSeen_of_mem (hwv ▸ hx)
      · exact ih₁ (by simp [Search.isSeen_mark, hwv, hw]) hw₁ x hx

end Explores

/-- `w` is a successor of `v` that `s` has not seen. -/
def Fresh (g : Digraph) (s : Search) (v w : Nat) : Prop := w ∈ g.next v ∧ s.isSeen w = false

theorem Explores.sound (h : g.Explores s vs s') : s.isSeen w = false → s'.isSeen w →
      ∃ v ∈ vs, s.isSeen v = false ∧ Relation.ReflTransGen (g.Fresh s) v w := by
  induction h with
  | done s =>
    intro h₀ h₁
    simp [h₀] at h₁
  | seen _ _ ih =>
    intro h₀ h₁
    obtain ⟨v, hv, h⟩ := ih h₀ h₁
    exact ⟨v, mem_cons_of_mem _ hv, h⟩
  | @fresh s s₁ s₂ v vs hv h₁ h₂ ih₁ ih₂ =>
    intro hw hw'
    cases hw₁ : s₁.isSeen w
    · obtain ⟨u, hu, hfresh, hpath⟩ := ih₂ (by simpa using hw₁) hw'
      have hback : ∀ x, s₁.isSeen x = false → s.isSeen x = false := by
        intro x hx
        by_contra hs
        have := h₁.isSeen_mono (w := x) (by simp [Search.isSeen_mark, hs])
        simp [hx] at this
      exact ⟨u, mem_cons_of_mem _ hu, hback u hfresh,
        Relation.ReflTransGen.mono (fun _ b hab => ⟨hab.1, hback b hab.2⟩) _ _ hpath⟩
    · refine ⟨v, mem_cons_self, hv, ?_⟩
      by_cases hwv : w = v
      · exact hwv ▸ .refl
      · obtain ⟨u, hu, hfresh, hpath⟩ := ih₁ (by simp [Search.isSeen_mark, hwv, hw]) hw₁
        have hback : ∀ x, (s.mark v).isSeen x = false → s.isSeen x = false := by
          intro x hx
          simp [Search.isSeen_mark] at hx
          exact hx.2
        exact .head ⟨hu, hback u hfresh⟩ (Relation.ReflTransGen.mono (fun _ b hab => ⟨hab.1, hback b hab.2⟩) _ _ hpath)

theorem Explores.isSeen_iff (h : g.Explores s vs s') (w : Nat) : s'.isSeen w ↔ s.isSeen w ∨
      ∃ v ∈ vs, s.isSeen v = false ∧ Relation.ReflTransGen (g.Fresh s) v w := by
  constructor
  · intro hw
    cases hs : s.isSeen w
    · exact .inr (h.sound hs hw)
    · exact .inl rfl
  · rintro (hw | ⟨v, hv, hfresh, hpath⟩)
    · exact h.isSeen_mono hw
    · have hnew : s.isSeen w = false ∧ s'.isSeen w := by
        induction hpath with
        | refl => exact ⟨hfresh, h.isSeen_of_mem hv⟩
        | tail _ hstep ih => exact ⟨hstep.2, h.closed ih.1 ih.2 _ hstep.1⟩
      exact hnew.2

/-- A walk from `entry`, written backwards. -/
inductive Trail (g : Digraph) (entry : Nat) : List Nat → Prop
  | start : Trail g entry [entry]
  | step {v w : Nat} {path : List Nat} : Trail g entry (v :: path) → w ∈ g.next v → Trail g entry (w :: v :: path)

/-- Each node is found along a trail without repetitions, of which no other node
has finished yet; whatever it leads to lies on that trail or finished before it. -/
theorem Explores.trail (h : g.Explores s vs s') (hfinished : ∀ w ∈ s.finished, s.isSeen w)
    (hopen : ∀ w < s.seen.size, s.isSeen w → w ∈ s.finished ∨ w ∈ path)
    (hpath : ∀ w ∈ path, s.isSeen w ∧ w ∉ s.finished) (hnd : path.Nodup)
    (htrail : ∀ v ∈ vs, g.Trail entry (v :: path)) :
    s.isSeen u = false → s'.isSeen u → ∃ t, g.Trail entry (u :: t) ∧ (u :: t).Nodup ∧
        ∃ later earlier, s'.finished = later ++ u :: earlier ∧ (∀ w ∈ t, w ∉ earlier) ∧
          ∀ w ∈ g.next u, w < s.seen.size → w ∈ u :: t ∨ w ∈ earlier := by
  induction h generalizing path with
  | done s =>
    intro h₀ h₁
    simp [h₀] at h₁
  | seen _ _ ih =>
    exact ih hfinished hopen hpath hnd fun v hv => htrail v (mem_cons_of_mem _ hv)
  | @fresh s s₁ s₂ v vs hv h₁ h₂ ih₁ ih₂ =>
    intro hu hu'
    have hvtrail := htrail v mem_cons_self
    have hvpath : v ∉ path := fun hmem => by simp [(hpath v hmem).1] at hv
    have hvnodup : (v :: path).Nodup := nodup_cons.2 ⟨hvpath, hnd⟩
    have hsize₁ : s₁.seen.size = s.seen.size := h₁.size_seen.trans (by simp)
    obtain ⟨new₁, eq₁, -, mem₁⟩ := h₁.finished_eq
    obtain ⟨new₂, eq₂, -, -⟩ := h₂.finished_eq
    -- While `v` is explored, it is the one node that is open besides the path.
    have hopen₁ : ∀ w < s.seen.size, s₁.isSeen w → w ∈ s₁.finished ∨ w ∈ v :: path := by
      intro w hw hw₁
      rw [eq₁, mem_append, mem₁, Search.isSeen_mark]
      by_cases hwv : w = v
      · simp [hwv]
      · cases hs : s.isSeen w
        · simp [hwv, hw₁]
        · rcases hopen w hw hs with h | h
          · simp [h]
          · simp [h]
    have hfinished₁ : ∀ w ∈ s₁.finished, s₁.isSeen w := by
      intro w hw
      rw [eq₁, mem_append, mem₁] at hw
      rcases hw with hw | hw
      · exact hw.2
      · exact h₁.isSeen_mono (by simp [Search.isSeen_mark, hfinished w hw])
    have hpath₁ : ∀ w ∈ path, s₁.isSeen w ∧ w ∉ s₁.finished := by
      intro w hw
      obtain ⟨hseen, hopen⟩ := hpath w hw
      refine ⟨h₁.isSeen_mono (by simp [Search.isSeen_mark, hseen]), ?_⟩
      rw [eq₁, mem_append, mem₁]
      simpa [Search.isSeen_mark, hseen] using hopen
    cases hu₁ : s₁.isSeen u
    · rw [← hsize₁]
      refine ih₂ ?_ ?_ ?_ hnd (fun v hv => htrail v (mem_cons_of_mem _ hv)) hu₁ hu'
      · intro w hw
        rcases mem_cons.1 hw with rfl | hw
        · exact h₁.isSeen_mono (by simp [Search.isSeen_mark])
        · exact hfinished₁ w hw
      · intro w hw hw₁
        rcases hopen₁ w (hsize₁ ▸ hw) hw₁ with h | h
        · exact .inl (mem_cons_of_mem _ h)
        · rcases mem_cons.1 h with rfl | h
          · exact .inl mem_cons_self
          · exact .inr h
      · intro w hw
        refine ⟨(hpath₁ w hw).1, ?_⟩
        rw [Search.finished_finish, mem_cons]
        rintro (rfl | hmem)
        · exact hvpath hw
        · exact (hpath₁ w hw).2 hmem
    · by_cases huv : u = v
      · subst huv
        refine ⟨path, hvtrail, hvnodup, new₂, s₁.finished, eq₂, fun w hw => (hpath₁ w hw).2, ?_⟩
        exact fun w hw hlt => (hopen₁ w hlt (h₁.isSeen_of_mem hw)).symm
      · obtain ⟨t, ht, htn, later, earlier, eq, hlater, hnext⟩ :=
          @ih₁ (v :: path) (fun w hw => by simp [Search.isSeen_mark, hfinished w hw]) (by
              intro w hw hw₁
              rw [Search.isSeen_mark] at hw₁
              by_cases hwv : w = v
              · simp [hwv]
              · rcases hopen w (by simpa using hw) (by simpa [hwv] using hw₁) with h | h
                · exact .inl h
                · simp [h])
            (by
              intro w hw
              rcases mem_cons.1 hw with rfl | hw
              · refine ⟨by simp [Search.isSeen_mark], fun hmem => ?_⟩
                simp [hfinished w hmem] at hv
              · simp [Search.isSeen_mark, hpath w hw])
            hvnodup (fun _ hx => .step hvtrail hx)
            (by simp [Search.isSeen_mark, huv, hu]) hu₁
        refine ⟨t, ht, htn, new₂ ++ v :: later, earlier, by simp [eq₂, eq], hlater, ?_⟩
        simpa using hnext

section Reaches

/-- An edge between two nodes of the graph. -/
def Edge (g : Digraph) (v w : Nat) : Prop := w ∈ g.next v ∧ w < g.size

instance (g : Digraph) (v w : Nat) : Decidable (g.Edge v w) := inferInstanceAs (Decidable (_ ∧ _))

theorem next_of_size_le (h : g.size ≤ v) : g.next v = [] := by
  unfold next size at *
  simp [h]

theorem Edge.lt_size (h : g.Edge v w) : v < g.size := by
  by_contra hv
  have := h.1
  simp [next_of_size_le (Nat.le_of_not_lt hv)] at this

theorem isSeen_eq (hw : w < seen.size) : ({ seen } : Search).isSeen w = seen.getD w false := by
  simp [Search.isSeen, hw]

theorem search_seen (hsize : seen.size = g.size) (roots : List Nat) (w : Nat) :
    (g.search seen roots).seen.getD w false ↔ w < g.size ∧
      (seen.getD w false ∨ ∃ v ∈ roots, v < g.size ∧ seen.getD v false = false ∧
        Relation.ReflTransGen (fun a b => g.Edge a b ∧ seen.getD b false = false) v w) := by
  have hex := g.explores_search (Nat.le_of_eq hsize) roots
  have hsize' : (g.search seen roots).seen.size = g.size := hex.size_seen.trans hsize
  have hunseen : ∀ v, ({ seen } : Search).isSeen v = false ↔ v < g.size ∧ seen.getD v false = false := by
    intro v
    by_cases hv : v < seen.size
    · simp [isSeen_eq hv, hsize ▸ hv]
    · simp [Search.isSeen, hv, ← hsize]
  have hfresh : g.Fresh { seen } = fun a b => g.Edge a b ∧ seen.getD b false = false := by
    funext a b
    simp only [Fresh, Edge, hunseen, and_assoc]
  by_cases hw : w < g.size
  · have hget : (g.search seen roots).seen.getD w false = (g.search seen roots).isSeen w :=
      (isSeen_eq (hsize'.symm ▸ hw)).symm
    rw [hget, hex.isSeen_iff, isSeen_eq (hsize.symm ▸ hw), hfresh]
    simp only [hw, true_and, hunseen, and_assoc]
  · simp [hw, hsize']

@[simp] theorem size_unseen : g.unseen.size = g.size := by simp [unseen]

@[simp] theorem getD_unseen (v : Nat) : g.unseen.getD v false = false := by
  by_cases hv : v < g.size
  · simp [unseen, hv]
  · simp [unseen, hv]

theorem reached_iff (g : Digraph) (roots : List Nat) (w : Nat) : (g.reached roots).getD w false ↔
      ∃ v ∈ roots, v < g.size ∧ Relation.ReflTransGen g.Edge v w := by
  have hlt : ∀ {v}, v < g.size → Relation.ReflTransGen g.Edge v w → w < g.size := by
    intro v hv h
    cases h with
    | refl => exact hv
    | tail _ hstep => exact hstep.2
  rw [reached, search_seen size_unseen]
  simp only [getD_unseen, and_true, true_and, Bool.false_eq_true, false_or]
  constructor
  · exact And.right
  · rintro ⟨v, hv, hlt', h⟩
    exact ⟨hlt hlt' h, v, hv, hlt', h⟩

theorem size_reached (g : Digraph) (roots : List Nat) : (g.reached roots).size = g.size :=
  (g.explores_search (Nat.le_of_eq size_unseen) roots).size_seen.trans size_unseen

theorem isSeen_search_unseen (roots : List Nat) (hw : w < g.size) :
    (g.search g.unseen roots).isSeen w = (g.reached roots).getD w false :=
  isSeen_eq (Nat.lt_of_lt_of_eq hw (g.size_reached roots).symm)

end Reaches

section Reverse

@[simp] theorem size_reverse (g : Digraph) : g.reverse.size = g.size := by simp [reverse, size]

theorem mem_next_reverse : u ∈ g.reverse.next v ↔ v < g.size ∧ v ∈ g.next u := by
  by_cases hv : v < g.size
  · have hu : v ∈ g.next u → u < g.size := fun h => Edge.lt_size ⟨h, hv⟩
    have hnext : g.reverse.next v = g.predecessors v := by simp [reverse, next, hv]
    simp only [hnext, predecessors, mem_filter, mem_range, contains_iff_mem, hv, true_and]
    exact ⟨And.right, fun h => ⟨hu h, h⟩⟩
  · rw [next_of_size_le (by simpa using hv)]
    simp [hv]

theorem edge_reverse : g.reverse.Edge v w ↔ g.Edge w v := by
  unfold Edge
  rw [mem_next_reverse, size_reverse]
  constructor
  · rintro ⟨⟨hv, hmem⟩, -⟩
    exact ⟨hmem, hv⟩
  · rintro ⟨hmem, hv⟩
    exact ⟨⟨hv, hmem⟩, Edge.lt_size ⟨hmem, hv⟩⟩

end Reverse

end Digraph
end ShaderRecompiler
