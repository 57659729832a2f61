import ShaderRecompiler.Proofs.Budget
import ShaderRecompiler.Proofs.Resolving

/-! Temporaries in a routine whose loops get one way out. The blocks between a loop and its
exits open ways from every exit edge to every exit, and blocks that were tied stay tied:
one that control passes once is in no loop, and the end of a loop is no exit of another. -/
namespace ShaderRecompiler

open Relation List Operation

variable {v : View}

namespace Digraph

variable {g g' : Digraph} {h : Nat} {exits : List Nat}

namespace Detour

variable (d : Detour g g' h exits)
include d

theorem ties (ha : a < g.size) (hc : c < g.size) (hties : g.Ties a c) : g'.Ties a c := by
  have hdom := hties.dominates
  cases hties with
  | passing hne _ honce =>
    refine .passing hne (d.dominates_lift hc (fun hin => ?_) hdom) fun hcyc => ?_
    · exact absurd ((hin.returns d.isHeader).trans_left (hin.runs (d.reach a ha))) honce
    · exact honce ((d.transGen_old ha hcyc).1 ha)
  | closing hne hent honly hback =>
    obtain rfl | ⟨u, -, hedge⟩ := (d.reach c hc).cases_tail
    · exact absurd rfl hent
    obtain rfl := honly u hedge
    -- If one of the two blocks is in the loop, the other is, too.
    have hin : g.InLoop h u ↔ g.InLoop h c := by
      constructor
      · intro hu
        by_cases huh : u = h
        · subst huh
          exact .of_latch ⟨d.reach c hc, hback, hdom⟩
        · exact hu.pred huh hback
      · intro hin
        by_cases hch : c = h
        · subst hch
          obtain ⟨v, hv⟩ := d.isHeader
          exact honly v hv.2.1 ▸ .of_latch hv
        · exact hin.pred hch hedge
    refine .closing hne hent (fun v hv => ?_) (d.edge_of_kept ⟨hback, fun hout => ?_⟩)
    · by_cases hold : v < g.size
      · exact honly v (d.kept_of_edge hold hc hv).1
      · have hexit := d.exit_of_edge (Nat.le_of_not_lt hold) hc hv
        obtain ⟨b, hb, hleft⟩ := d.exit_left c hexit
        exact absurd (hin.1 (honly b hleft ▸ hb)) (d.exit_out c hexit)
    · exact d.exit_out u hout.2 (hin.2 hout.1)

end Detour
end Digraph

variable {op : Operation}

theorem Operation.Dispatches.computes (h : op.Dispatches) : op.Computes := by
  cases h <;> simp [Computes, assigned, Operand.asTemp?, Instruction.hasDestination]

theorem View.IsTest.reads {target next : Nat} {after : List Operation}
    (h : v.IsTest (.var selector) index target next) (hspl : v.ops = before ++ op :: after) (ht : t ∈ op.reads) :
    t ∈ before.flatMap Operation.assigned := by
  obtain ⟨taken, label, rfl⟩ := h
  rcases before with - | ⟨first, - | ⟨second, before⟩⟩
  · obtain ⟨rfl, -⟩ := cons.inj hspl
    simp [mem_reads, Operand.word] at ht
  · simp only [cons_append, nil_append, cons.injEq] at hspl
    obtain ⟨rfl, rfl, -⟩ := hspl
    simpa [mem_reads, Operation.assigned, Operand.asTemp?] using ht
  · simp at hspl

theorem View.IsLanding.reads (h : v.IsLanding (.var selector) index dispatch) (hop : op ∈ v.ops) : op.reads = [] := by
  obtain ⟨label, rfl⟩ := h
  simp only [mem_cons, not_mem_nil, or_false] at hop
  obtain rfl | rfl := hop <;> rfl

namespace Routine

open ShaderRecompiler.Digraph

variable {r : Routine} {l : Loop}

theorem live_eq_views (r : Routine) : r.live = r.views.flatMap View.ops := by
  rw [live, views, flatMap_map]
  rfl

theorem assigned_live (r : Routine) : r.live.flatMap assigned = r.views.flatMap View.assigned := by
  rw [live_eq_views, flatMap_assoc]
  rfl

theorem assigned_routeExits (h : r.HasLoop l) : (r.routeExits l).1.live.flatMap assigned =
        r.live.flatMap assigned ++ range' r.ids.temps (l.exits.length - 1) ∧
      (r.routeExits l).1.ids.temps = r.ids.temps + (l.exits.length - 1) := by
  obtain ⟨-, htmps, tests, landings, hassigned, -, hlands, hviews⟩ := views_routeExits h
  have hold : (r.views.mapIdx (l.reroute (Loop.landOn l.exits (r.landingBase l)))).flatMap View.assigned =
      r.views.flatMap View.assigned := by
    have hsame : ∀ b v, (l.reroute (Loop.landOn l.exits (r.landingBase l)) b v).assigned = v.assigned := by
      intro b v
      unfold Loop.reroute
      split <;> rfl
    exact congrArg flatten (ext_getElem (by simp) (by simp [hsame]))
  have hnone : landings.flatMap View.assigned = [] := by
    rw [flatMap_eq_nil_iff]
    intro v hv
    obtain ⟨i, hi, rfl⟩ := getElem_of_mem hv
    obtain ⟨label, hland⟩ := hlands.get (by simpa [hlands.length_eq] using hi) hi
    exact congrArg View.assigned hland
  refine ⟨?_, htmps⟩
  rw [assigned_live, assigned_live, hviews, flatMap_append, flatMap_append, hold, hassigned, hnone, append_nil]

theorem holds_iff_live : r.Holds P ↔ ∀ op ∈ r.live, P op := by
  simp only [Holds, live_eq_views, mem_flatMap, forall_exists_index, and_imp]
  exact ⟨fun h op v hv hop => h v hv op hop, fun h v hv op hop => h op v hv hop⟩

/-- What is read was assigned earlier in the block, or in a block that `T` relates to it. -/
def ReadsFrom (r : Routine) (T : Nat → Nat → Prop) : Prop :=
  ∀ b < r.blocks.size, ∀ before op after, r.code b = before ++ op :: after → ∀ t ∈ op.reads,
    t ∈ before.flatMap assigned ∨ ∃ a < r.blocks.size, t ∈ (r.code a).flatMap assigned ∧ T a b

theorem once_routeExits (honce : (r.live.flatMap assigned).Nodup)
    (hbelow : ∀ t ∈ r.live.flatMap assigned, t < r.ids.temps) (hloop : r.HasLoop l) :
    ((r.routeExits l).1.live.flatMap assigned).Nodup ∧
      ∀ t ∈ (r.routeExits l).1.live.flatMap assigned, t < (r.routeExits l).1.ids.temps := by
  obtain ⟨hassigned, htmps⟩ := assigned_routeExits hloop
  rw [hassigned, htmps]
  refine ⟨honce.append (nodup_range' ..) fun t ht hnew => ?_, fun t ht => ?_⟩
  · have := hbelow t ht
    have := (mem_range'_1.1 hnew).1
    omega
  · obtain ht | ht := mem_append.1 ht
    · exact Nat.lt_add_right _ (hbelow t ht)
    · exact (mem_range'_1.1 ht).2

theorem code_routeExits (hloop : r.HasLoop l) (hb : b < r.blocks.size) : (r.routeExits l).1.code b = r.code b := by
  refine (congrArg View.ops ((view_routeExits hloop).1 b hb)).trans ?_
  unfold Loop.reroute
  split <;> rfl

theorem ReadsFrom.routeExits (hr : r.ReadsFrom T) (hloop : r.HasLoop l)
    (hT : ∀ a < r.blocks.size, ∀ b < r.blocks.size, T a b → T' a b) : (r.routeExits l).1.ReadsFrom T' := by
  obtain ⟨-, htest, hland⟩ := view_routeExits hloop
  have hsize := blocks_size_routeExits hloop
  have hbase : r.landingBase l = r.blocks.size + (l.exits.length - 1) := rfl
  intro b hb before op after hspl t ht
  by_cases hold : b < r.blocks.size
  · rw [code_routeExits hloop hold] at hspl
    refine (hr b hold before op after hspl t ht).imp_right ?_
    rintro ⟨a, ha, hta, hties⟩
    exact ⟨a, by omega, by rwa [code_routeExits hloop ha], hT a ha b hold hties⟩
  · obtain ⟨k, rfl⟩ := Nat.exists_eq_add_of_le (Nat.le_of_not_lt hold)
    by_cases hk : k < l.exits.length - 1
    · obtain ⟨target, -, hview⟩ := htest k hk
      exact .inl (hview.reads hspl ht)
    · obtain ⟨i, rfl⟩ := Nat.exists_eq_add_of_le (Nat.le_of_not_lt hk)
      have hview := hland i (by omega)
      rw [hbase, Nat.add_assoc] at hview
      have hop : op ∈ ((r.routeExits l).1.view (r.blocks.size + (l.exits.length - 1 + i))).ops := by
        change op ∈ (r.routeExits l).1.code _
        simp [hspl]
      rw [hview.reads hop] at ht
      cases ht

theorem Orderly.routeExits (hr : r.Orderly) (hloop : r.HasLoop l)
    (d : r.graph.Detour (r.routeExits l).1.graph l.header l.exits) : (r.routeExits l).1.Orderly := by
  obtain ⟨honce, hbelow⟩ := once_routeExits hr.once hr.below hloop
  have hcomp := holds_iff_live.2 hr.computes
  have hreads : r.ReadsFrom r.graph.Ties := hr.reads
  refine ⟨honce, hbelow, ?_, ?_⟩
  · exact holds_iff_live.1 (hcomp.routeExits (fun _ h => h.computes) hloop)
  · refine hreads.routeExits hloop fun _ _ _ _ hties => d.ties ?_ ?_ hties <;> rwa [size_graph]

theorem SameFlow.inside (h : r.SameFlow r') (hr : r.Inside) : r'.Inside := by
  intro v hv t ht
  obtain ⟨b, hb, rfl⟩ := mem_views.1 hv
  rw [h.blocks_size] at hb ⊢
  change t ∈ (r'.block b).next ∨ t ∈ (r'.block b).branch at ht
  rw [h.next_eq, h.branch_eq] at ht
  exact hr (r.view b) (mem_views.2 ⟨b, hb, rfl⟩) t ht

/-- Routing keeps temporaries in order round by round, and in the end every block can be reached. -/
theorem Orderly.singleExitLoops {loops : List Loop}
    (hr : r.Orderly) (R : Routable n exit r.graph landings) (hlink : r.WellLinked) (hins : r.Inside)
    (h : singleExitLoops exit rounds r landings = .ok (r', loops)) :
    r'.Orderly ∧ ∀ b < r'.blocks.size, r'.graph.Reachable b := by
  obtain ⟨landings', ⟨hr', R', -, -⟩, -⟩ := singleExitLoops_rounds
    (P := fun r landings => r.Orderly ∧ Routable n exit r.graph landings ∧ r.WellLinked ∧ r.Inside)
    (fun r landings _ _ hrnd hloops hsmall => by
      obtain ⟨hr, R, hlink, hins⟩ := hrnd
      have hloop := hlink.hasLoop hloops (mem_filter.1 (Loop.smallest?_spec hsmall).1).1
      obtain ⟨d, R', -⟩ := routable_routeExits R hlink hins hloops hsmall
      exact ⟨hr.routeExits hloop d, R', (views_routeExits hloop).1, hins.routeExits hloop⟩)
    ⟨hr, R, hlink, hins⟩ h
  refine ⟨hr', fun b _ => R'.reach b ?_⟩
  rwa [size_graph]

theorem Orderly.structured (hr : r.Orderly) (hlink : r.WellLinked) (hins : r.Inside)
    (hpos : 0 < r.blocks.size) (hrch : ∀ b < r.blocks.size, r.graph.Reachable b)
    (h : r.structured = .ok (p, r')) : r'.Orderly ∧ ∀ b < r'.blocks.size, r'.graph.Reachable b := by
  obtain ⟨loops, -, -, hroute, -⟩ := structured_eq hpos h
  have hred : r.graph.Reducible := by
    rw [Routine.singleExitLoops] at hroute
    cases hloops : r.graph.loops r.exitBlock [] with
    | error e => simp [hloops] at hroute
    | ok found => exact reducible_of_loops (by rwa [size_graph]) hloops
  exact hr.singleExitLoops (routable (exitBlock_lt hpos) hrch hred) hlink hins hroute

end Routine
end ShaderRecompiler
