import ShaderRecompiler.Proofs.Pieces
import ShaderRecompiler.Proofs.Printing
import ShaderRecompiler.Proofs.Rerouting

/-! Structuring leaves no operation out. The edges of a block are just those that its
terminator follows, so where a block is written, the blocks behind it are written too,
and in the end all that can be reached. -/
namespace ShaderRecompiler

open List Stmt

/-- Edges are there only for control to follow. -/
structure View.Tight (v : View) : Prop where
  next : v.next.isSome → ∀ op ∈ v.ops.getLast?, op.inst.isJump = false
  branch : v.branch.isSome → ∃ op ∈ v.ops.getLast?, op.inst.isTerminator ∧ op.inst ≠ .ret

theorem Segment.edges_tight {segment : Segment} (h : edges segments index segment = .ok e) :
    View.Tight ⟨segment.ops, e.1, e.2⟩ := by
  obtain ⟨op, hop, -, rfl⟩ | ⟨op, label, target, hop, hret, hterm, -, -, rfl⟩ | ⟨hlast, rfl⟩ := edges_cases h
  · exact ⟨by simp, by simp⟩
  · refine ⟨fun hnext _ hop' => ?_, fun _ => ⟨op, hop, hterm, hret⟩⟩
    obtain rfl := Option.some.inj (hop.symm.trans hop')
    have hcond : op.inst.isConditionalBranch := by
      by_contra hcond
      simp [hcond] at hnext
    revert hcond
    cases op.inst <;> simp [Instruction.isConditionalBranch, Instruction.isJump]
  · refine ⟨fun _ op hop => ?_, by simp⟩
    have hpln := hlast op hop
    revert hpln
    cases op.inst <;> simp [Instruction.isTerminator, Instruction.isJump]

namespace Routine

variable {r r' : Routine} {l : Loop}

def Tight (r : Routine) : Prop := ∀ v ∈ r.views, v.Tight

theorem Tight.ofOperations {ops : List Operation} {ids : Ids} (h : Routine.ofOperations ops ids = .ok r) : r.Tight := by
  intro v hv
  obtain ⟨i, s, e, -, he, f, rfl, -⟩ := mem_views_ofOperations h hv
  obtain ⟨hnext, hbr⟩ := Segment.edges_tight he
  exact ⟨fun h => hnext (by simpa using h), fun h => hbr (by simpa using h)⟩

theorem Tight.routeExits (ht : r.Tight) (h : r.HasLoop l) : (r.routeExits l).1.Tight := by
  refine forall_views_routeExits h ht (fun _ _ hv => ?_) ?_ ?_
  · exact ⟨fun h => hv.1 (by simpa [View.moveEdges] using h), fun h => hv.2 (by simpa [View.moveEdges] using h)⟩
  · rintro _ _ _ _ _ ⟨_, _, rfl⟩
    exact ⟨by simp [Instruction.isJump], by simp [Instruction.isTerminator]⟩
  · rintro _ _ _ _ ⟨_, rfl⟩
    exact ⟨by simp, by simp [Instruction.isTerminator]⟩

/-- Routing adds blocks and moves edges. -/
structure Routed (r r' : Routine) : Prop where
  closed : r'.Closed
  tight : r'.Tight
  code_eq : ∀ b < r.blocks.size, b < r'.blocks.size ∧ r'.code b = r.code b

theorem routed_singleExitLoops (hlink : r.WellLinked) (hclosed : r.Closed)
    (htight : r.Tight) (h : singleExitLoops exit rounds r [] = .ok (r', loops)) : r.Routed r' := by
  refine (singleExitLoops_linked (P := r.Routed) (fun r' _ hloop hr => ?_) hlink
    ⟨hclosed, htight, fun b hb => ⟨hb, rfl⟩⟩ h).2
  have hsize := blocks_size_routeExits hloop
  refine ⟨hr.closed.routeExits hloop, hr.tight.routeExits hloop, fun b hb => ?_⟩
  obtain ⟨hlt, hcode⟩ := hr.code_eq b hb
  refine ⟨?_, (code_routeExits hloop hlt).trans hcode⟩
  rw [hsize, landingBase]
  omega

end Routine

namespace Stmt

theorem opsOf_append (xs ys : List Stmt) : opsOf (xs ++ ys) = opsOf xs ++ opsOf ys := by
  induction xs with
  | nil => rfl
  | cons stmt xs ih => rw [cons_append, opsOf, opsOf, ih, append_assoc]

theorem opsOf_map_op (ids : List OpId) : opsOf (ids.map op) = ids := by
  induction ids with
  | nil => rfl
  | cons id ids ih => rw [map_cons, opsOf, ops, ih, singleton_append]

theorem opsOf_dropFinal (h : ∀ stmt, isFinal stmt → stmt.ops = []) (xs : List Stmt) :
    opsOf (dropFinal isFinal xs) = opsOf xs := by
  obtain heq | ⟨front, last, hfinal, rfl, heq⟩ := dropFinal_cases isFinal xs
  · rw [heq]
  · rw [heq, opsOf_append, opsOf, h last hfinal]
    simp [opsOf]

theorem opsOf_branching (test : Operand) (invert meets : Bool) (yes no : List Stmt) :
    opsOf (branching test invert meets yes no) = opsOf yes ++ opsOf no := by
  unfold branching
  split
  · rfl
  · simp [opsOf, ops]
  · split <;> simp [opsOf, ops]

end Stmt

namespace Layout

variable {s : Layout} {b c : Nat} {leave : Leave} {body : List Stmt}

/-- How control gets from a block to the next. -/
theorem leave_of_edge (hclosed : s.routine.Closed) (htight : s.routine.Tight) (hlv : s.leave b = .ok leave)
    (hedge : s.routine.graph.Edge b c) :
    leave = .goto (some c) ∨ ∃ cond invert, leave = .test cond invert ∧
      ((s.routine.block b).branch = some c ∨ (s.routine.block b).next = some c) := by
  have hb : b < s.routine.blocks.size := by
    by_contra hb
    have hnone := Digraph.next_of_size_le (g := s.routine.graph) (v := b) (by rw [Routine.size_graph]; omega)
    simp [Digraph.Edge, hnone] at hedge
  have hview : s.routine.view b ∈ s.routine.views := Routine.mem_views.2 ⟨b, hb, rfl⟩
  have ht := htight _ hview
  obtain ⟨-, hnext | hbr⟩ := Routine.edge_graph.1 hedge
  · have hnext : (s.routine.block b).next = some c := hnext
    have hjump := ht.next (by simp [Routine.view, hnext])
    unfold Layout.leave at hlv
    obtain ⟨-, hterm, -⟩ | ⟨id, -, hterm, hlast, hid⟩ := block_cases (hclosed _ hview).plain
    · simp only [hterm, Except.ok.injEq] at hlv
      exact .inl (hlv.symm.trans (congrArg _ hnext))
    · have hjump := hjump _ hlast
      simp only [hterm] at hlv
      split at hlv
      · next hret => simp [hret, Instruction.isJump] at hjump
      · next hbr => simp [hbr, Instruction.isJump] at hjump
      · split at hlv
        · exact .inr ⟨_, _, (Except.ok.inj hlv).symm, .inr hnext⟩
        · cases hlv
  · have hbr : (s.routine.block b).branch = some c := hbr
    obtain ⟨op, hop, hterminator, hne⟩ := ht.branch (by simp [Routine.view, hbr])
    unfold Layout.leave at hlv
    obtain ⟨-, hterm, hlast⟩ | ⟨id, -, hterm, hlast, hid⟩ := block_cases (hclosed _ hview).plain
    · rw [hlast op hop] at hterminator
      cases hterminator
    · obtain rfl := Option.some.inj (hlast.symm.trans hop)
      simp only [hterm] at hlv
      split at hlv
      · next hret => exact absurd hret hne
      · exact .inl ((Except.ok.inj hlv).symm.trans (congrArg _ hbr))
      · split at hlv
        · exact .inr ⟨_, _, (Except.ok.inj hlv).symm, .inl hbr⟩
        · cases hlv

/-- Blocks that `body` holds. Control gets from them, and from `start`, to others of them, to where
`body` ends, or to where a jump leads. -/
structure Covers (s : Layout) (W : Nat → Prop) (start stop : Option Nat) (loops : List Loop) (entering : Bool)
    (body : List Stmt) : Prop where
  ops : ∀ b, W b → ∀ id ∈ s.plainIds b, id ∈ opsOf body
  start : ∀ b, start = some b → W b ∨ stop = some b ∨ (jump? loops entering b).isSome
  edges : ∀ b, W b → ∀ c, s.routine.graph.Edge b c → W c ∨ stop = some c ∨ (jump? loops false c).isSome

theorem opsOf_plainOps (s : Layout) (b : Nat) : opsOf (s.plainOps b) = s.plainIds b :=
  opsOf_map_op _

/-- Where a block is written, the blocks behind it are written too. -/
theorem Writes.exists_covers (hclosed : s.routine.Closed) (htight : s.routine.Tight) {start : Option Nat}
    {loops : List Loop} (h : s.Writes start stop loops entering body n) :
    ∃ W, s.Covers W start stop loops entering body := by
  induction h with
  | nowhere => exact ⟨fun _ => False, by simp, by simp, by simp⟩
  | arrived => exact ⟨fun _ => False, by simp, fun b hb => .inr (.inl hb), by simp⟩
  | jump _ hjump =>
    refine ⟨fun _ => False, by simp, fun b hb => .inr (.inr ?_), by simp⟩
    obtain rfl := Option.some.inj hb
    rw [hjump]
    rfl
  | @loop b stop loops entering l body rest _ _ hstop hjump henters _ _ ihbody ihrest =>
    obtain ⟨rfl, rfl⟩ := enters?_header henters
    obtain ⟨W, hW⟩ := ihbody
    obtain ⟨W', hW'⟩ := ihrest
    -- The header is written in the body, unless the loop is left there.
    have hhdr : W l.header ∨ W' l.header := by
      obtain hin | hnone | hleft := hW.start l.header rfl
      · exact .inl hin
      · cases hnone
      · obtain ⟨j, hj⟩ := Option.isSome_iff_exists.1 hleft
        obtain ⟨l', outer, heq, ⟨-, -, hent⟩ | ⟨-, hexit⟩⟩ := jump?_eq_some hj
        · cases hent
        · obtain ⟨rfl, rfl⟩ := List.cons.inj heq
          obtain hafter | hafter | hafter := hW'.start _ hexit
          · exact .inr hafter
          · exact absurd hafter hstop
          · simp [hjump] at hafter
    refine ⟨fun b => W b ∨ W' b, ?_, fun b hb => .inl (Option.some.inj hb ▸ hhdr), ?_⟩
    · intro b hb id hid
      rw [opsOf, ops, opsOf_dropFinal (by intro stmt; cases stmt <;> simp [isContinue, ops])]
      exact mem_append.2 (hb.imp (hW.ops b · id hid) (hW'.ops b · id hid))
    · rintro b (hb | hb) c hc
      · obtain hin | hnone | hleft := hW.edges b hb c hc
        · exact .inl (.inl hin)
        · cases hnone
        · obtain ⟨j, hj⟩ := Option.isSome_iff_exists.1 hleft
          obtain ⟨l', outer, heq, ⟨-, rfl, -⟩ | ⟨-, hexit⟩⟩ := jump?_eq_some hj
          · obtain ⟨rfl, rfl⟩ := List.cons.inj heq
            exact .inl hhdr
          · obtain ⟨rfl, rfl⟩ := List.cons.inj heq
            exact (hW'.start c hexit).imp_left .inr
      · exact (hW'.edges b hb c hc).imp_left .inr
  | @ret b _ _ _ _ _ _ hlv =>
    refine ⟨fun x => x = b, ?_, fun x hx => .inl (Option.some.inj hx).symm, ?_⟩
    · rintro x rfl id hid
      rw [opsOf_append, opsOf_plainOps]
      exact mem_append_left _ hid
    · rintro x rfl c hc
      obtain hgoto | ⟨_, _, htest, -⟩ := leave_of_edge hclosed htight hlv hc
      · cases hgoto
      · cases htest
  | @goto b _ _ _ _ rest _ _ _ _ hlv _ ihrest =>
    obtain ⟨W, hW⟩ := ihrest
    refine ⟨fun x => x = b ∨ W x, ?_, fun x hx => .inl (.inl (Option.some.inj hx).symm), ?_⟩
    · intro x hx id hid
      rw [opsOf_append, opsOf_plainOps]
      exact mem_append.2 (hx.imp (fun hxb : x = b => hxb ▸ hid) (hW.ops x · id hid))
    · rintro x (rfl | hx) c hc
      · obtain hgoto | ⟨_, _, htest, -⟩ := leave_of_edge hclosed htight hlv hc
        · exact (hW.start c (Leave.goto.inj hgoto)).imp_left .inr
        · cases htest
      · exact (hW.edges x hx c hc).imp_left .inr
  | @test b stop loops _ cond invert yes no rest _ _ _ _ _ _ hlv _ _ _ ihyes ihno ihrest =>
    obtain ⟨Y, hY⟩ := ihyes
    obtain ⟨N, hN⟩ := ihno
    obtain ⟨W, hW⟩ := ihrest
    have hops : ∀ id, id ∈ opsOf (s.plainOps b ++ branching cond invert (s.join? loops b).isSome yes no ++ rest) ↔
        id ∈ s.plainIds b ∨ id ∈ opsOf yes ∨ id ∈ opsOf no ∨ id ∈ opsOf rest := by
      intro id
      simp only [opsOf_append, opsOf_plainOps, opsOf_branching, mem_append, or_assoc]
    -- Where the arms meet, the rest starts.
    have hmeet : ∀ {A : Nat → Prop} {c}, A c ∨ s.join? loops b = some c ∨ (jump? loops false c).isSome →
        (A c ∨ W c) ∨ stop = some c ∨ (jump? loops false c).isSome := by
      rintro A c (hin | hjoin | hjump)
      · exact .inl (.inl hin)
      · exact (hW.start c hjoin).imp_left .inr
      · exact .inr (.inr hjump)
    refine ⟨fun x => x = b ∨ Y x ∨ N x ∨ W x, ?_, fun x hx => .inl (.inl (Option.some.inj hx).symm), ?_⟩
    · intro x hx id hid
      exact (hops id).2 (hx.imp (fun hxb : x = b => hxb ▸ hid) (.imp (hY.ops x · id hid) (.imp (hN.ops x · id hid)
        (hW.ops x · id hid))))
    · rintro x (rfl | hx | hx | hx) c hc
      · obtain hgoto | ⟨_, _, -, hbr | hnext⟩ := leave_of_edge hclosed htight hlv hc
        · cases hgoto
        · exact (hmeet (hY.start c hbr)).imp_left (by tauto)
        · exact (hmeet (hN.start c hnext)).imp_left (by tauto)
      · exact (hmeet (hY.edges x hx c hc)).imp_left (by tauto)
      · exact (hmeet (hN.edges x hx c hc)).imp_left (by tauto)
      · exact (hW.edges x hx c hc).imp_left (by tauto)

theorem Writes.mem_opsOf (h : s.Writes (some 0) none [] false body n) (hclosed : s.routine.Closed)
    (htight : s.routine.Tight) (hrch : s.routine.graph.Reachable b) {id : OpId} (hid : id ∈ s.plainIds b) :
    id ∈ opsOf body := by
  obtain ⟨W, hW⟩ := h.exists_covers hclosed htight
  refine hW.ops b ?_ id hid
  clear hid
  induction hrch with
  | refl => simpa [jump?] using hW.start 0 rfl
  | tail _ hedge ih => simpa [jump?] using hW.edges _ ih _ hedge

end Layout

/-! Passes that emulate a stage leave terminators where they are. -/

namespace Operation

variable {op : Operation}

/-- Terminators stand last, and the two lists end in the same one if any. -/
structure SameEnd (old new : List Operation) : Prop where
  plain : ∀ op ∈ new.dropLast, op.inst.isTerminator = false
  of_new : ∀ op ∈ new.getLast?, op.inst.isTerminator → ∃ op' ∈ old.getLast?, op'.inst = op.inst
  of_old : ∀ op ∈ old.getLast?, op.inst.isTerminator → ∃ op' ∈ new.getLast?, op'.inst = op.inst

theorem sameEnd_of_plain (hold : ∀ op ∈ old, op.inst.isTerminator = false)
    (hnew : ∀ op ∈ new, op.inst.isTerminator = false) : SameEnd old new := by
  refine ⟨fun op hop => hnew op (dropLast_subset _ hop), fun op hop hterm => ?_, fun op hop hterm => ?_⟩
  · simp [hnew op (mem_of_getLast? hop)] at hterm
  · simp [hold op (mem_of_getLast? hop)] at hterm

theorem sameEnd_of_becomes {parts : List (Operation × List Operation)} (hparts : ∀ p ∈ parts, p.1.Becomes r first p.2)
    (hpln : ∀ op ∈ (parts.map Prod.fst).dropLast, op.inst.isTerminator = false) :
    SameEnd (parts.map Prod.fst) (parts.flatMap Prod.snd) := by
  obtain rfl | ⟨front, last, rfl⟩ := eq_nil_or_concat parts
  · exact sameEnd_of_plain (by simp) (by simp)
  · rw [concat_eq_append] at *
    obtain ⟨hfront, hlast⟩ := forall_mem_append.1 hparts
    have hlast := hlast last (mem_singleton_self _)
    rw [map_append, map_singleton, dropLast_concat] at hpln
    have hbef : ∀ op ∈ front.flatMap Prod.snd, op.inst.isTerminator = false := by
      intro op hop
      obtain ⟨p, hp, hop⟩ := mem_flatMap.1 hop
      exact (hfront p hp).plain (hpln _ (mem_map_of_mem hp)) op hop
    simp only [map_append, map_singleton, flatMap_append, flatMap_singleton]
    cases hterm : last.1.inst.isTerminator with
    | false =>
      exact sameEnd_of_plain (forall_mem_append.2 ⟨hpln, by simpa using hterm⟩)
        (forall_mem_append.2 ⟨hbef, hlast.plain hterm⟩)
    | true =>
      obtain ⟨before, sources, hcode, haside, -⟩ := hlast.terminator hterm
      rw [hcode, ← append_assoc]
      refine ⟨?_, ?_, ?_⟩
      · rw [dropLast_concat]
        exact forall_mem_append.2 ⟨hbef, fun o ho => (haside o ho).plain⟩
      · simp
      · simp

end Operation

namespace Routine

variable {r : Routine}

theorem SameFlow.closed_tight (hflow : r.SameFlow r') (hend : ∀ b, Operation.SameEnd (r.code b) (r'.code b))
    (hclosed : r.Closed) (htight : r.Tight) : r'.Closed ∧ r'.Tight := by
  have hview : ∀ v ∈ r'.views, ∃ b, r.view b ∈ r.views ∧ v = ⟨r'.code b, (r.block b).next, (r.block b).branch⟩ := by
    intro v hv
    obtain ⟨b, hb, rfl⟩ := mem_views.1 hv
    rw [hflow.blocks_size] at hb
    exact ⟨b, mem_views.2 ⟨b, hb, rfl⟩, by rw [view, hflow.next_eq, hflow.branch_eq]⟩
  constructor
  · intro v hv
    obtain ⟨b, hb, rfl⟩ := hview v hv
    obtain ⟨-, hnext, hbr, hsome⟩ := hclosed _ hb
    rw [hflow.blocks_size]
    refine ⟨(hend b).plain, hnext, hbr, fun op hop hterm hret => ?_⟩
    obtain ⟨op', hop', hinst⟩ := (hend b).of_new op hop hterm
    exact hsome op' hop' (hinst ▸ hterm) (hinst ▸ hret)
  · intro v hv
    obtain ⟨b, hb, rfl⟩ := hview v hv
    refine ⟨fun hnext op hop => ?_, fun hbr => ?_⟩
    · by_contra hjump
      have hterm : op.inst.isTerminator := by
        revert hjump
        cases op.inst <;> simp [Instruction.isTerminator, Instruction.isJump]
      obtain ⟨op', hop', hinst⟩ := (hend b).of_new op hop hterm
      exact hjump (hinst ▸ (htight _ hb).next hnext op' hop')
    · obtain ⟨op, hop, hterm, hret⟩ := (htight _ hb).branch hbr
      obtain ⟨op', hop', hinst⟩ := (hend b).of_old op hop hterm
      exact ⟨op', hop', hinst.symm ▸ hterm, hinst.symm ▸ hret⟩

theorem Orderly.structured_covers {p : Structured} (hr : r.Orderly) (hlink : r.WellLinked) (hclosed : r.Closed)
    (htight : r.Tight) (hpos : 0 < r.blocks.size) (hrch : ∀ b < r.blocks.size, r.graph.Reachable b)
    (h : r.structured = .ok (p, r')) {op : Operation} (hop : op ∈ r.code b)
    (hpln : op.inst.isTerminator = false) : ∃ id ∈ opsOf p.body, r'.op id = op := by
  obtain ⟨-, hrch'⟩ := hr.structured hlink hclosed.inside hpos hrch h
  obtain ⟨loops, body, n, hroute, hwrites, hbody, -⟩ := structured_eq hpos h
  have hrouted := routed_singleExitLoops hlink hclosed htight hroute
  have hb : b < r.blocks.size := by
    by_contra hb
    rw [code, blockOps_of_size_le hlink (Nat.le_of_not_lt hb)] at hop
    cases hop
  obtain ⟨hb', hcode⟩ := hrouted.code_eq b hb
  rw [← hcode] at hop
  obtain ⟨id, hid, rfl⟩ := mem_map.1 hop
  refine ⟨id, ?_, rfl⟩
  rw [hbody, opsOf_dropFinal (by intro stmt; cases stmt <;> simp [isRet, ops])]
  exact hwrites.mem_opsOf hrouted.closed hrouted.tight (hrch' b hb') (mem_filter.2 ⟨hid, congrArg not hpln⟩)

end Routine

/-! What has a text. -/

theorem eq_ok_of_mapError {ε ε' α : Type} {m : Except ε α} {f : ε → ε'} {a : α} (h : m.mapError f = .ok a) :
    m = .ok a := by
  cases m with
  | error e => cases h
  | ok a => exact congrArg _ (Except.ok.inj h)

namespace Glsl.Scope

variable {s : Scope}

mutual

theorem exists_of_statement (stmt : Stmt) (h : s.statement r stmt = .ok lines) :
    ∀ id ∈ stmt.ops, ∃ text, s.operation (r.op id) = .ok text := by
  cases stmt with
  | op id =>
    intro id' hid
    obtain rfl := mem_singleton.1 hid
    exact ⟨lines, h⟩
  | cond test invert yes no =>
    obtain ⟨_, -, h⟩ := exists_of_bind_eq_ok h
    obtain ⟨_, hyes, h⟩ := exists_of_bind_eq_ok h
    obtain ⟨_, hno, -⟩ := exists_of_bind_eq_ok h
    exact forall_mem_append.2 ⟨exists_of_statements yes hyes, exists_of_statements no hno⟩
  | loop body =>
    obtain ⟨_, hbody, -⟩ := exists_of_bind_eq_ok h
    exact exists_of_statements body hbody
  | breakLoop | continueLoop | ret => exact fun id hid => by cases hid

theorem exists_of_statements (body : List Stmt) (h : s.statements r body = .ok lines) :
    ∀ id ∈ opsOf body, ∃ text, s.operation (r.op id) = .ok text := by
  cases body with
  | nil => exact fun id hid => by cases hid
  | cons stmt rest =>
    obtain ⟨_, hstmt, h⟩ := exists_of_bind_eq_ok h
    obtain ⟨_, hrest, -⟩ := exists_of_bind_eq_ok h
    exact forall_mem_append.2 ⟨exists_of_statement stmt hstmt, exists_of_statements rest hrest⟩

end

theorem isSome_texture? {op : Operation}
    (h : s.operation op = .ok text) (ht : op.inst = .textureSample t) (hdest : op.dest = some dest) :
    (s.resources.texture? t.binding).isSome := by
  unfold operation at h
  rw [ht, hdest] at h
  obtain ⟨v, hv, -⟩ := exists_of_bind_eq_ok h
  cases htex : s.resources.texture? t.binding with
  | some texture => rfl
  | none =>
    have hsample : s.textureSample op t = .error (.undeclared .texture t.binding) := by
      unfold textureSample
      rw [htex]
      rfl
    simp [value, computed, ht, hsample, Except.map] at hv

end Glsl.Scope

namespace Compilation

theorem textures_declareConstants (r : Resources) (routine : Routine) :
    (declareConstants r routine).textures = r.textures := by
  unfold declareConstants
  generalize (routine.allOps.flatMap fun x => (routine.op x.2).operands) = os
  induction os generalizing r with
  | nil => rfl
  | cons o os ih =>
    refine (ih (useConstants r o)).trans ?_
    cases o <;> rfl

variable {c : Compilation} {ops : List Operation} {ids : Ids}

theorem exists_of_compile (hr : Routine.ofOperations ops ids = .ok r)
    (h : (c.compile ops ids features).result = .ok shader) :
    let passed := (r.runPasses ⟨c.config, c.resources, c.host⟩ features).routine
    ∃ p r' context text, passed.structured = .ok (p, r') ∧ Glsl.source context r' p = .ok text ∧
      context.resources = declareConstants c.resources passed := by
  intro passed
  unfold compile at h
  split at h
  · cases h
  next r₀ hroutine =>
  obtain ⟨r₁, hr₁, hroutine⟩ := exists_of_bind_eq_ok hroutine
  obtain ⟨-, -, hroutine⟩ := exists_of_bind_eq_ok hroutine
  obtain rfl := Except.ok.inj (hr.symm.trans (eq_ok_of_mapError hr₁))
  obtain rfl := Except.ok.inj hroutine
  obtain ⟨-, -, h⟩ := exists_of_bind_eq_ok h
  obtain ⟨-, -, h⟩ := exists_of_bind_eq_ok h
  obtain ⟨result, hstruct, h⟩ := exists_of_bind_eq_ok h
  obtain ⟨p, r'⟩ := result
  obtain ⟨text, hsrc, -⟩ := exists_of_bind_eq_ok h
  exact ⟨p, r', _, text, eq_ok_of_mapError hstruct, eq_ok_of_mapError hsrc, rfl⟩

/-- A compiled program has a text for every operation that the passes left, but for terminators. -/
theorem exists_operation_of_compile (hops : Assembled ops ids) (hr : Routine.ofOperations ops ids = .ok r)
    (hend : ∀ b, Operation.SameEnd (r.code b) ((r.runPasses ⟨c.config, c.resources, c.host⟩ features).routine.code b))
    (h : (c.compile ops ids features).result = .ok shader) : ∃ s : Glsl.Scope,
      s.resources.textures = c.resources.textures ∧
      ∀ b, ∀ op ∈ (r.runPasses ⟨c.config, c.resources, c.host⟩ features).routine.code b,
        op.inst.isTerminator = false → ∃ text, s.operation op = .ok text := by
  obtain ⟨p, r', context, text, hstruct, hsrc, hrsc⟩ := exists_of_compile hr h
  obtain ⟨hpassed, hlink, hflow⟩ := (Routine.Orderly.ofOperations hops hr).runPasses
    (Routine.WellLinked.ofOperations hr) ⟨c.config, c.resources, c.host⟩ features
  obtain ⟨hclosed, htight⟩ := hflow.closed_tight hend (.ofOperations hr) (.ofOperations hr)
  have hpos := Routine.blocks_pos_ofOperations hr
  have hrch := fun b => Routine.reachable_ofOperations (b := b) hr
  rw [← hflow.blocks_size] at hpos hrch
  rw [← hflow.graph_eq] at hrch
  obtain ⟨main, hmain, -⟩ := exists_of_bind_eq_ok hsrc
  obtain ⟨lines, hlines, -⟩ := exists_of_bind_eq_ok hmain
  have htexs : context.resources.textures = c.resources.textures := by
    rw [hrsc, textures_declareConstants]
  refine ⟨⟨context, .ofRoutine context r', p.predeclared⟩, htexs, fun b op hop hpln => ?_⟩
  obtain ⟨id, hid, rfl⟩ :=
    hpassed.structured_covers hlink hclosed htight hpos hrch hstruct hop hpln
  exact Glsl.Scope.exists_of_statements _ hlines id hid

end Compilation
end ShaderRecompiler
