import Mathlib.Data.List.Flatten
import ShaderRecompiler.Proofs.Dataflow
import ShaderRecompiler.Proofs.Places
import ShaderRecompiler.Proofs.Rewriting

/-! Temporaries in a routine: each is assigned once, and what reads it stands behind the
assignment, in its block or in one that it dominates. How a block is tied to the block of
the assignment is said so that it outlasts a change of the graph that leads the exits of
loops elsewhere. -/
namespace ShaderRecompiler

open Relation List Operation Segment

variable {ids : Ids} {ops : List Operation} {a d pc : Nat} {op : Operation} {r : Routine}

namespace Digraph

variable {g : Digraph} {c : Nat}

/-- Control that is at `c` has come from `a`. -/
inductive Ties (g : Digraph) (a c : Nat) : Prop
  /-- Control is at `a` once at most. -/
  | passing (hne : a ≠ c) (hdom : g.Dominates a c) (honce : ¬TransGen g.Edge a a)
  /-- The end of a loop, which only its header leads to. -/
  | closing (hne : a ≠ c) (hentry : c ≠ 0) (honly : ∀ u, g.Edge u c → u = a) (hback : g.Edge c a)

theorem Ties.ne (h : g.Ties a c) : a ≠ c := by
  cases h with
  | passing hne => exact hne
  | closing hne => exact hne

theorem Ties.dominates (h : g.Ties a c) : g.Dominates a c := by
  cases h with
  | passing _ hdom => exact hdom
  | closing _ hent honly =>
    rintro ⟨hne, hpath⟩
    obtain rfl | ⟨u, hpath, hedge, -⟩ := hpath.cases_tail
    · exact hent rfl
    · obtain rfl := honly u hedge
      exact Avoids.target_ne ⟨hne, hpath⟩ rfl

theorem ties_of_upward (hac : a < c) (hup : ∀ u b, b ≤ c → g.Edge u b → u < b)
    (hfrom : ∀ u b, a < b → b ≤ c → g.Edge u b → a ≤ u) : g.Ties a c := by
  have hrises : ∀ x y, TransGen g.Edge x y → y ≤ c → x < y := by
    intro x y hpath
    induction hpath with
    | single hedge => exact fun hle => hup _ _ hle hedge
    | tail _ hedge ih =>
      intro hle
      have hlt := hup _ _ hle hedge
      exact Nat.lt_trans (ih (by omega)) hlt
  refine .passing (Nat.ne_of_lt hac) ?_ fun hcyc => ?_
  · rintro ⟨hne, hpath⟩
    have hbehind : ∀ y, ReflTransGen (fun u v => g.Edge u v ∧ v ≠ a) 0 y → y ≤ c → a < y → False := by
      intro y hpath
      induction hpath with
      | refl => exact fun _ hlt => Nat.not_lt_zero _ hlt
      | @tail u v hpath hedge ih =>
        intro hle hlt
        have hu : u ≠ a := Avoids.target_ne ⟨hne, hpath⟩
        have := hfrom u v hlt hle hedge.1
        have := hup u v hle hedge.1
        exact ih (by omega) (by omega)
    exact hbehind c hpath (Nat.le_refl _) hac
  · exact Nat.lt_irrefl _ (hrises a a hcyc (Nat.le_of_lt hac))

end Digraph

namespace Routine

/-- Temporaries are assigned once, and where one is read its assignment has been performed. -/
structure Orderly (r : Routine) : Prop where
  once : (r.live.flatMap assigned).Nodup
  below : ∀ t ∈ r.live.flatMap assigned, t < r.ids.temps
  computes : ∀ op ∈ r.live, op.Computes
  reads : ∀ b < r.blocks.size, ∀ before op after, r.code b = before ++ op :: after → ∀ t ∈ op.reads,
    t ∈ before.flatMap assigned ∨ ∃ a < r.blocks.size, t ∈ (r.code a).flatMap assigned ∧ r.graph.Ties a b

end Routine

namespace Flat

/-- Whatever leads to a mark up to `pc` stands before it, and if the mark stands behind `d`
it does too. -/
def Upstream (ops : List Operation) (d pc : Nat) : Prop :=
  ∀ m ≤ pc, ∀ q n, (∃ mark ∈ ops[m]?, n ∈ mark.marks) → (∃ branch ∈ ops[q]?, n ∈ branch.targets) →
    q < m ∧ (d < m → d < q)

theorem Supplied.upstream (h : Supplied front body) (hnd : ((front ++ body).flatMap marks).Nodup)
    (hpc : pc < front.length) (hx : front[d]? = some x) (hstr : x.inst.isStraight) :
    Upstream (front ++ body) d pc := by
  rintro m hm q n ⟨mark, hmark, hn⟩ ⟨branch, hbr, htgt⟩
  have hplc : mark? (front ++ body) n = some m := mark?_eq hnd hmark hn
  obtain hq | hq := Nat.lt_or_ge q front.length
  · rw [Option.mem_def, getElem?_append_left hq] at hbr
    obtain ⟨⟨ret, hret, hbent⟩, landing, hlanding, hmarks⟩ := h.gated.target hbr htgt
    have hlt := (List.getElem?_eq_some_iff.1 hlanding).1
    have hland : mark? (front ++ body) n = some (q + 2) :=
      mark?_eq hnd (by rwa [getElem?_append_left hlt]) hmarks
    obtain rfl := Option.some.inj (hplc.symm.trans hland)
    refine ⟨by omega, fun _ => ?_⟩
    have hne : d ≠ q := by
      rintro rfl
      obtain rfl := Option.some.inj (hx.symm.trans hbr)
      rw [isStraight_of_targets htgt] at hstr
      cases hstr
    have hne' : d ≠ q + 1 := by
      rintro rfl
      obtain rfl := Option.some.inj (hx.symm.trans hret)
      rw [hbent] at hstr
      cases hstr
    omega
  · rw [Option.mem_def, getElem?_append_right hq] at hbr
    have hmem := h.inner n (mem_flatMap.2 ⟨branch, mem_of_getElem? hbr, htgt⟩)
    obtain ⟨op, hop, hmarks⟩ := mem_flatMap.1 hmem
    obtain ⟨i, hi⟩ := mem_iff_getElem?.1 hop
    have hplaced : (front ++ body)[front.length + i]? = some op := by
      rwa [getElem?_append_right (Nat.le_add_right _ _), Nat.add_sub_cancel_left]
    have hland : mark? (front ++ body) n = some (front.length + i) := mark?_eq hnd hplaced hmarks
    obtain rfl := Option.some.inj (hplc.symm.trans hland)
    omega

theorem Supplied.exists_assigned (h : Supplied front body) (hcomp : ∀ op ∈ front ++ body, op.Computes)
    (hnd : ((front ++ body).flatMap marks).Nodup)
    (hop : (front ++ body)[pc]? = some op) (ht : t ∈ op.reads) :
    ∃ d x, (front ++ body)[d]? = some x ∧ t ∈ x.assigned ∧
      (Feeds (front ++ body) d pc ∨ d < pc ∧ Upstream (front ++ body) d pc) := by
  obtain hlt | hge := Nat.lt_or_ge pc front.length
  · rw [getElem?_append_left hlt] at hop
    obtain ⟨d, hd, x, hx, hassigned⟩ := h.ordered pc op hop t ht
    have hplaced : (front ++ body)[d]? = some x := by rwa [getElem?_append_left (Nat.lt_trans hd hlt)]
    have hstr := isStraight_of_assigned (hcomp x (mem_of_getElem? hplaced)) hassigned
    exact ⟨d, x, hplaced, hassigned, .inr ⟨hd, h.upstream hnd hlt hx hstr⟩⟩
  · obtain ⟨k, rfl⟩ := Nat.exists_eq_add_of_le hge
    rw [getElem?_append_right hge, Nat.add_sub_cancel_left] at hop
    obtain ⟨d, hfeeds, x, hx, hassigned⟩ := h.settled k op hop t ht
    refine ⟨front.length + d, x, ?_, hassigned, .inl (hfeeds.shift (alike_right front body))⟩
    rwa [getElem?_append_right (Nat.le_add_right _ _), Nat.add_sub_cancel_left]

end Flat

theorem Assembled.exists_assigned (h : Assembled ops ids) (hnd : (ops.flatMap marks).Nodup) (hop : ops[pc]? = some op)
    (ht : t ∈ op.reads) :
    ∃ d x, ops[d]? = some x ∧ t ∈ x.assigned ∧ (Flat.Feeds ops d pc ∨ d < pc ∧ Flat.Upstream ops d pc) := by
  have hcomp := h.computes
  obtain ⟨front, body, rfl, hsupplied⟩ := h.exists_supplied
  exact hsupplied.exists_assigned hcomp hnd hop ht

namespace Routine.CutFrom

open Segment (Covers Spells entry)
open Flat (Upstream Straight Unbroken)

variable {segments : List Segment} {kept : Nat → Prop} {number : Nat → Nat} {i k u : Nat} {s sa : Segment}

section Upstream

variable (hcut : r.CutFrom ops segments kept number) (hcovers : Covers segments i s pc)
  (hpc : entry segments i + s.labels.length ≤ pc) (ha : Covers segments a sa d) (hupstream : Upstream ops d pc)
include hcut hcovers hpc ha hupstream

theorem source_of_edge (hk : kept k) (hki : k ≤ i) (hedge : r.graph.Edge u (number k)) :
    ∃ j, kept j ∧ number j = u ∧ j < k ∧ (a < k → a ≤ j) := by
  obtain ⟨j, hj, rfl, rfl | ⟨q, m, hjump⟩⟩ := hcut.edge_cases hk hedge
  · exact ⟨j, hj, rfl, Nat.lt_succ_self j, Nat.le_of_lt_succ⟩
  obtain ⟨s', hs', hge, hlt⟩ := hjump.target
  obtain ⟨sj, hsrc⟩ := hjump.source
  obtain ⟨n, ⟨branch, hbr, htgt⟩, hmark⟩ := hjump.label
  have hm : m ≤ pc := by
    obtain hki | rfl := Nat.lt_or_eq_of_le hki
    · have hent : entry segments (k + 1) ≤ entry segments i := entry_mono hki
      rw [entry_succ hs', size] at hent
      have := hcovers.ge
      omega
    · obtain rfl := Option.some.inj (hs'.symm.trans hcovers.segment)
      omega
  obtain ⟨hqm, hdq⟩ := hupstream m hm q n hmark ⟨branch, hbr, htgt⟩
  have hqk : q < entry segments k := by
    by_contra hle
    obtain ⟨op, hop, hop'⟩ := hcut.spells.isMark_of_lt hs' (Nat.le_of_not_lt hle) (Nat.lt_trans hqm hlt)
    obtain rfl := Option.some.inj (hbr.symm.trans hop)
    rw [targets, hop'] at htgt
    cases htgt
  refine ⟨j, hj, rfl, ?_, fun hak => ?_⟩
  · by_contra hle
    have hent : entry segments k ≤ entry segments j := entry_mono (Nat.le_of_not_lt hle)
    have := hsrc.ge
    omega
  · have hent : entry segments (a + 1) ≤ entry segments k := entry_mono hak
    have := ha.lt
    exact ha.index_le hsrc (Nat.le_of_lt (hdq (by omega)))

theorem kept_of_upstream (hrch : ∀ b < r.blocks.size, r.graph.Reachable b) (hk : kept k) (hak : a < k)
    (hki : k ≤ i) : kept a := by
  induction k using Nat.strong_induction_on with
  | _ k ih =>
    have hpath := hrch _ (hcut.number_lt k hk)
    obtain hzero | ⟨u, -, hedge⟩ := hpath.cases_tail
    · have := hcut.lt 0 k hcut.entry_kept (by omega)
      rw [hcut.entry_number] at this
      omega
    · obtain ⟨j, hj, -, hjk, haj⟩ := hcut.source_of_edge hcovers hpc ha hupstream hk hki hedge
      obtain hlt | rfl := Nat.lt_or_eq_of_le (haj hak)
      · exact ih j hjk hj hlt (by omega)
      · exact hj

theorem ties_of_upstream (hkept : kept a) (hi : kept i) (hai : a < i) : r.graph.Ties (number a) (number i) := by
  have hblk : ∀ {u b}, b ≤ number i → r.graph.Edge u b → ∃ j k, kept j ∧ kept k ∧ number j = u ∧ number k = b ∧
      j < k ∧ (a < k → a ≤ j) := by
    intro u b hb hedge
    obtain ⟨k, hk, rfl⟩ := hcut.exists_kept b (by simpa using hedge.2)
    have hki : k ≤ i := by
      by_contra hlt
      have := hcut.lt i k hi (Nat.lt_of_not_le hlt)
      omega
    obtain ⟨j, hj, hu, hjk, haj⟩ := hcut.source_of_edge hcovers hpc ha hupstream hk hki hedge
    exact ⟨j, k, hj, hk, hu, rfl, hjk, haj⟩
  refine Digraph.ties_of_upward (hcut.lt a i hkept hai) (fun u b hb hedge => ?_) fun u b hab hb hedge => ?_
  · obtain ⟨j, k, hj, -, rfl, rfl, hjk, -⟩ := hblk hb hedge
    exact hcut.lt j k hj hjk
  · obtain ⟨j, k, -, -, rfl, rfl, -, haj⟩ := hblk hb hedge
    exact hcut.mono a j (haj (hcut.lt_of_number_lt hab))

end Upstream

section Around

variable {label : Nat} (hcut : r.CutFrom ops segments kept number) (hparted : Parted segments)
  (hi : kept i) (hcovers : Covers segments i s pc)
include hcut hparted hi hcovers

/-- The body of a loop is a segment behind that of its head, and leads back to it. -/
theorem ties_of_around (hrnd : Flat.Round ops label mark test back) (hmd : mark < d) (hdt : d < test) (htp : test < pc)
    (hpb : pc ≤ back) :
    ∃ a sa, Covers segments a sa d ∧ kept a ∧ r.graph.Ties (number a) (number i) := by
  obtain ⟨markOp, hmarkOp, hlab⟩ := hrnd.marked
  obtain ⟨backOp, hbackOp, hbr, htgt⟩ := hrnd.closed
  have hterm : backOp.inst.isTerminator := by
    rw [hbr]
    rfl
  obtain ⟨a, sa, s', ha, hat, hc, hcb, hlabs, hlast⟩ := hcut.spells.covers_around hparted hcut.plain
    hrnd (by omega) (by omega)
  rw [hbackOp] at hlast
  have hpc : Covers segments (a + 1) s' pc := ⟨hc.segment, Nat.le_trans hc.ge htp, Nat.lt_of_le_of_lt hpb hcb.lt⟩
  obtain rfl := hpc.index_eq hcovers
  obtain ⟨s'', e, hs, he, hview, hkept⟩ := hcut.block (a + 1) hi
  obtain rfl := Option.some.inj (hs.symm.trans hc.segment)
  have hto : e.2 = some a := by
    obtain ⟨op, hop, hret, -⟩ | ⟨op, n, target, hop, -, -, hn, hfind, rfl⟩ | ⟨hstr, -⟩ := edges_cases he
    · obtain rfl := Option.some.inj (hlast.symm.trans hop)
      rw [hbr] at hret
      cases hret
    · obtain rfl := Option.some.inj (hlast.symm.trans hop)
      rw [targets_eq hterm hn] at htgt
      obtain rfl := mem_singleton.1 htgt
      obtain ⟨st, place, hst, hplc, hge, hlt⟩ := hcut.spells.mark?_eq hfind
      rw [Flat.mark?_eq hcut.nodup hmarkOp (hlab ▸ mem_singleton_self _)] at hplc
      obtain rfl := Option.some.inj hplc
      have hcarries : Covers segments target st mark := by
        refine ⟨hst, hge, ?_⟩
        rw [entry_succ hst, size]
        omega
      rw [hcarries.index_eq ha]
    · rw [hstr backOp hlast] at hterm
      cases hterm
  have hkeptA : kept a := hkept a (.inr hto)
  have hlt := hcut.lt a (a + 1) hkeptA (Nat.lt_succ_self a)
  refine ⟨a, sa, ⟨ha.segment, Nat.le_trans ha.ge (Nat.le_of_lt hmd), Nat.lt_trans hdt hat.lt⟩, hkeptA,
    .closing (Nat.ne_of_lt hlt) (Nat.ne_zero_of_lt hlt) (fun _ hedge => ?_) ?_⟩
  · obtain ⟨j, -, rfl, hj | ⟨q, m, hjump⟩⟩ := hcut.edge_cases hi hedge
    · rw [Nat.succ.inj hj]
    · obtain ⟨st, hst, hge, hlt⟩ := hjump.target
      obtain rfl := Option.some.inj (hs.symm.trans hst)
      rw [hlabs, length_nil] at hlt
      omega
  · rw [edge_graph, hview, hto]
    exact ⟨hcut.number_lt a hkeptA, .inr rfl⟩

/-- What is assigned where it feeds `pc` is assigned in the same block, or in one that is tied to it. -/
theorem same_or_ties (hrch : ∀ b < r.blocks.size, r.graph.Reachable b) (hop : ops[pc]? = some op)
    (hmark : op.inst ≠ .markLabel) (hfeeds : Flat.Feeds ops d pc ∨ d < pc ∧ Upstream ops d pc)
    (ha : Covers segments a sa d) : a = i ∧ d < pc ∨ kept a ∧ r.graph.Ties (number a) (number i) := by
  obtain hfeeds | ⟨hlt, hupstream⟩ := hfeeds
  · cases hfeeds with
    | along hlt hstr =>
      have hunbroken : Unbroken ops d pc :=
        hstr.unbroken fun _ hx => Option.some.inj (hop.symm.trans hx) ▸ hmark
      exact .inl ⟨hcut.spells.index_eq_of_unbroken hparted ha hcovers (Nat.le_of_lt hlt) hunbroken, hlt⟩
    | around hrnd hmd hdt htp hpb =>
      obtain ⟨a', sa', ha', hkept, hties⟩ := hcut.ties_of_around hparted hi hcovers hrnd hmd hdt htp hpb
      obtain rfl := ha.index_eq ha'
      exact .inr ⟨hkept, hties⟩
  · obtain ⟨k, -, hk⟩ := hcut.spells.exists_index hcovers hop hmark
    have hpc : entry segments i + s.labels.length ≤ pc := hk ▸ Nat.le_add_right _ _
    obtain hlt' | rfl := Nat.lt_or_eq_of_le (ha.index_le hcovers (Nat.le_of_lt hlt))
    · have hkept := hcut.kept_of_upstream hcovers hpc ha hupstream hrch hi hlt' (Nat.le_refl _)
      exact .inr ⟨hkept, hcut.ties_of_upstream hcovers hpc ha hupstream hkept hi hlt'⟩
    · exact .inl ⟨rfl, hlt⟩

end Around
theorem live_sublist (hcut : r.CutFrom ops segments kept number) : r.live.Sublist ops := by
  obtain ⟨start, hst, hordered⟩ := hcut.exists_start
  have hpart : ∀ n ≤ r.blocks.size, ∃ pc, ((range n).flatMap r.code).Sublist (ops.take pc) ∧
      ∀ b, n ≤ b → b < r.blocks.size → pc ≤ start b := by
    intro n
    induction n with
    | zero => exact fun _ => ⟨0, nil_sublist _, fun _ _ _ => Nat.zero_le _⟩
    | succ n ih =>
      intro hn
      obtain ⟨pc, hsub, hpc⟩ := ih (Nat.le_of_succ_le hn)
      refine ⟨start n + (r.code n).length, ?_, fun b hb hlt => hordered n b hb hlt⟩
      have hcode : (ops.drop (start n)).take (r.code n).length = r.code n :=
        (prefix_iff_eq_take.1 (hst n hn)).symm
      rw [range_succ, flatMap_append, flatMap_singleton, take_add, hcode]
      have hle := hpc n (Nat.le_refl _) hn
      exact (hsub.trans (take_sublist_take_left hle)).append_right _
  obtain ⟨pc, hsub, -⟩ := hpart r.blocks.size (Nat.le_refl _)
  exact hsub.trans (take_sublist _ _)

theorem mem_before (hspells : Spells ops segments) (hcovers : Covers segments i s d)
    {after : List Operation} (hx : ops[d]? = some x) (hmark : x.inst ≠ .markLabel)
    (hs : s.ops = before ++ op :: after) (hlt : d < entry segments i + s.labels.length + before.length) :
    x ∈ before := by
  obtain ⟨k, hk, rfl⟩ := hspells.exists_index hcovers hx hmark
  rw [hs, getElem?_append_left (by omega)] at hk
  exact mem_of_getElem? hk

end Routine.CutFrom

namespace Routine

/-- Cutting a list into blocks keeps its temporaries in order. -/
theorem Orderly.ofOperations (hops : Assembled ops ids) (h : Routine.ofOperations ops ids = .ok r) : r.Orderly := by
  obtain ⟨kept, number, hcut⟩ := exists_cutFrom h
  have hspells := hcut.spells
  obtain ⟨hassigned, hbelow⟩ := hops.assigned
  have hlive := hcut.live_sublist
  refine ⟨(hlive.flatMap _).nodup hassigned, fun t ht => ?_, fun op hop => hops.computes op (hlive.subset hop), ?_⟩
  · rw [ids_ofOperations h]
    exact hbelow t ((hlive.flatMap _).subset ht)
  intro b hb before op after hcode t ht
  obtain ⟨i, hi, rfl⟩ := hcut.exists_kept b hb
  obtain ⟨s, e, hs, -, hview, -⟩ := hcut.block i hi
  have hspl : s.ops = before ++ op :: after := (congrArg View.ops hview).symm.trans hcode
  have hst := hspells.stands_ops hs
  rw [hspl] at hst
  have hop := hst.right.head
  have hmark : op.inst ≠ .markLabel :=
    (hspells.of_mem (mem_of_getElem? hs)).1 op (hspl ▸ mem_append_right _ mem_cons_self)
  obtain ⟨d, x, hx, hmem, hfeeds⟩ := hops.exists_assigned hcut.nodup hop ht
  have hmark' : x.inst ≠ .markLabel := by
    intro hmark
    have hstr := isStraight_of_assigned (hops.computes x (mem_of_getElem? hx)) hmem
    rw [hmark] at hstr
    cases hstr
  have hcovers : Segment.Covers (Segment.ofOperations ops) i s
      (Segment.entry (Segment.ofOperations ops) i + s.labels.length + before.length) := by
    refine ⟨hs, by omega, ?_⟩
    rw [entry_succ hs, size, hspl, length_append, length_cons]
    omega
  obtain ⟨a, sa, ha⟩ := hspells.exists_covers (List.getElem?_eq_some_iff.1 hx).1
  obtain ⟨rfl, hlt⟩ | ⟨hkept, hties⟩ := hcut.same_or_ties (parted_ofOperations ops) hi
    hcovers (fun b => reachable_ofOperations h) hop hmark hfeeds ha
  · obtain rfl := Option.some.inj (ha.segment.symm.trans hs)
    exact .inl (mem_flatMap.2 ⟨x, CutFrom.mem_before hspells ha hx hmark' hspl hlt, hmem⟩)
  · obtain ⟨sa', _, hsa, -, hviewA, -⟩ := hcut.block a hkept
    obtain rfl := Option.some.inj (ha.segment.symm.trans hsa)
    obtain ⟨k, hk, -⟩ := hspells.exists_index ha hx hmark'
    refine .inr ⟨number a, hcut.number_lt a hkept, ?_, hties⟩
    rw [show r.code (number a) = sa.ops from congrArg View.ops hviewA]
    exact mem_flatMap.2 ⟨x, mem_of_getElem? hk, hmem⟩

end Routine
end ShaderRecompiler
