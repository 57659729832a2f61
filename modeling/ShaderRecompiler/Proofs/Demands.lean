import Mathlib.Data.List.Perm.Basic
import ShaderRecompiler.Proofs.Joining
import ShaderRecompiler.Proofs.Layout

/-! What neighbours demand of the outputs of a stage. Demands come from the host and from
the stage that follows, in any number and order. A stage that can write outputs meets
all of them; a passthrough geometry stage only forwards what the last one asks for.
Joining two stages demands the outputs of the second one of the first. -/
namespace ShaderRecompiler

open List Mask Ascending

theorem Ascending.insert_comm (a b : Nat) (set : List Nat) : insert a (insert b set) = insert b (insert a set) := by
  induction set with
  | nil => grind [insert]
  | cons m rest ih => grind [insert]

theorem Ascending.union_perm {added : List Nat} (h : added.Perm added') (base : List Nat) :
    union base added = union base added' :=
  h.foldl_eq' (fun _ _ _ _ _ => insert_comm ..) base

theorem Mask.ext_iff : a = b ↔ ∀ n, test a n = test b n := by
  constructor
  · rintro rfl n
    rfl
  · intro h
    exact UInt32.toNat_inj.1 (Nat.eq_of_testBit_eq h)

theorem Mask.test_sdiff : test (a &&& ~~~b) n ↔ test a n ∧ test b n = false := by
  have hnot : (~~~b).toNat = 2 ^ 32 - (b.toNat + 1) := by
    rw [UInt32.toNat_not, Nat.sub_sub, Nat.add_comm]
    rfl
  unfold test
  rw [UInt32.toNat_and, Nat.testBit_and, hnot, Nat.testBit_two_pow_sub_succ b.toNat_lt]
  simp only [Bool.and_eq_true, decide_eq_true_eq, Bool.not_eq_true', and_congr_right_iff, and_iff_right_iff_imp]
  exact fun h _ => lt_of_test h

namespace AttributeUsage

/-- Outputs that the host asks for, or a stage that follows. -/
inductive Demand where
  | outputs (mask : UInt32) (patches : List Nat)
  | next (usage : AttributeUsage)

def Demand.mask : Demand → UInt32
  | outputs mask _ => mask
  | next usage => usage.inputs

def Demand.patches : Demand → List Nat
  | outputs _ patches => patches
  | next usage => usage.patchInputs

def meet (geometryPassthrough : Bool) (u : AttributeUsage) : Demand → AttributeUsage
  | .outputs mask patches => u.mergeOutputs geometryPassthrough mask patches
  | .next usage => u.mergeNext geometryPassthrough usage

def meetAll (u : AttributeUsage) (geometryPassthrough : Bool) (demands : List Demand) : AttributeUsage :=
  demands.foldl (meet geometryPassthrough) u

variable (u : AttributeUsage) (geometryPassthrough : Bool) (d : Demand) (demands : List Demand) {location : Nat}

theorem outputs_meet :
    (u.meet geometryPassthrough d).outputs = if geometryPassthrough then u.outputs else u.outputs ||| d.mask := by
  cases d <;> cases geometryPassthrough <;> rfl

theorem passthrough_meet : (u.meet geometryPassthrough d).passthrough =
      if geometryPassthrough then d.mask &&& ~~~u.outputs else u.passthrough := by
  cases d <;> cases geometryPassthrough <;> rfl

theorem patchOutputs_meet : (u.meet geometryPassthrough d).patchOutputs = union u.patchOutputs d.patches := by
  cases d <;> cases geometryPassthrough <;> rfl

theorem outputs_meetAll : (u.meetAll geometryPassthrough demands).outputs =
      if geometryPassthrough then u.outputs else demands.foldl (fun mask d => mask ||| d.mask) u.outputs := by
  induction demands generalizing u with
  | nil => cases geometryPassthrough <;> rfl
  | cons d rest ih =>
    rw [meetAll, foldl_cons, ← meetAll, ih, outputs_meet]
    cases geometryPassthrough <;> rfl

theorem patchOutputs_meetAll : (u.meetAll geometryPassthrough demands).patchOutputs =
      union u.patchOutputs (demands.flatMap Demand.patches) := by
  induction demands generalizing u with
  | nil => rfl
  | cons d rest ih =>
    rw [meetAll, foldl_cons, ← meetAll, ih, patchOutputs_meet, flatMap_cons]
    exact foldl_append.symm

/-- Every demand replaces what is forwarded. -/
theorem passthrough_meetAll : (u.meetAll geometryPassthrough demands).passthrough = if geometryPassthrough then
      demands.getLast?.elim u.passthrough fun d => d.mask &&& ~~~u.outputs else u.passthrough := by
  induction demands generalizing u with
  | nil => cases geometryPassthrough <;> rfl
  | cons d rest ih =>
    rw [meetAll, foldl_cons, ← meetAll, ih, passthrough_meet, outputs_meet]
    cases geometryPassthrough with
    | false => rfl
    | true => cases hlast : rest.getLast? <;> simp [getLast?_cons, hlast]

theorem test_foldl_or (demands : List Demand) (mask : UInt32) : test
    (demands.foldl (fun mask d => mask ||| d.mask) mask) location ↔
      test mask location ∨ ∃ d ∈ demands, test d.mask location := by
  induction demands generalizing mask with
  | nil => simp
  | cons d rest ih =>
    rw [foldl_cons, ih]
    simp [test, or_assoc]

/-- A location that is demanded is written or forwarded in the end, unless the stage is in
passthrough mode, does not write it, and the last demand was without it. Patch outputs
are all there. The order of the demands matters only to what is forwarded, and there
only as far as it changes the last one. -/
theorem meetAll_accumulates (u : AttributeUsage) (geometryPassthrough : Bool) (demands : List Demand) :
    let r := u.meetAll geometryPassthrough demands
    (∀ d ∈ demands, ∀ location, Mask.test d.mask location = true →
      ((Mask.test r.outputs location = true ∨ Mask.test r.passthrough location = true) ↔
        geometryPassthrough = false ∨ Mask.test u.outputs location = true ∨
          ∃ last ∈ demands.getLast?, Mask.test last.mask location = true)) ∧
      (∀ d ∈ demands, ∀ index ∈ d.patches, index ∈ r.patchOutputs) ∧
      ∀ demands' : List Demand, demands'.Perm demands →
        let r' := u.meetAll geometryPassthrough demands'
        r'.outputs = r.outputs ∧ r'.patchOutputs = r.patchOutputs ∧
          (r'.passthrough = r.passthrough ↔ geometryPassthrough = false ∨
            demands'.getLast?.map (·.mask &&& ~~~u.outputs) = demands.getLast?.map (·.mask &&& ~~~u.outputs)) := by
  refine ⟨fun d hd location htest => ?_, fun d hd index hindex => ?_, fun demands' hperm => ⟨?_, ?_, ?_⟩⟩
  · rw [outputs_meetAll, passthrough_meetAll]
    cases geometryPassthrough with
    | false => simpa using .inl ((test_foldl_or demands u.outputs).2 (.inr ⟨d, hd, htest⟩))
    | true =>
      obtain ⟨last, hlast⟩ := Option.ne_none_iff_exists'.1 (mt List.getLast?_eq_none_iff.1 (List.ne_nil_of_mem hd))
      simp only [hlast, if_true, Option.elim_some, Mask.test_sdiff, Option.mem_some_iff, exists_eq_left',
        Bool.true_eq_false, false_or]
      cases Mask.test u.outputs location <;> simp
  · rw [patchOutputs_meetAll]
    exact Ascending.mem_union.2 (.inr (List.mem_flatMap.2 ⟨d, hd, hindex⟩))
  · rw [outputs_meetAll, outputs_meetAll]
    congr 1
    exact hperm.foldl_eq' (fun d _ d' _ mask => by rw [UInt32.or_assoc, UInt32.or_comm d.mask, ← UInt32.or_assoc]) _
  · rw [patchOutputs_meetAll, patchOutputs_meetAll]
    exact Ascending.union_perm (hperm.flatMap_right _) _
  · rw [passthrough_meetAll, passthrough_meetAll]
    cases geometryPassthrough with
    | false => simp
    | true =>
      have hnil : demands' = [] ↔ demands = [] := by
        rw [← List.length_eq_zero_iff, hperm.length_eq, List.length_eq_zero_iff]
      cases hlast : demands.getLast? <;> cases hlast' : demands'.getLast? <;> simp_all

theorem meetAll_accumulates_forwarding :
    let u : AttributeUsage := { outputs := 1 }
    let r := u.meetAll true [.outputs 5 [7], .next { inputs := 6 }]
    (Mask.test r.outputs 0 = true ∨ Mask.test r.passthrough 0 = true) ∧
      (Mask.test r.outputs 2 = true ∨ Mask.test r.passthrough 2 = true) ∧ 7 ∈ r.patchOutputs ∧
      (u.meetAll true [.next { inputs := 6 }, .outputs 5 [7]]).patchOutputs = r.patchOutputs := by
  intro u r
  obtain ⟨hmet, hpatches, horder⟩ := meetAll_accumulates u true [.outputs 5 [7], .next { inputs := 6 }]
  refine ⟨(hmet _ List.mem_cons_self 0 (by decide)).2 (by decide),
    (hmet _ List.mem_cons_self 2 (by decide)).2 (by decide), hpatches _ List.mem_cons_self 7 (by decide), ?_⟩
  exact (horder _ (List.Perm.swap ..)).2.1

/-- Two demands of a passthrough stage, of which the second makes it forget the first. -/
theorem meetAll_forgets :
    let r := meetAll {} true [.outputs 2 [], .outputs 4 []]
    Mask.test r.outputs 1 = false ∧ Mask.test r.passthrough 1 = false ∧
      (meetAll {} true [.outputs 4 [], .outputs 2 []]).passthrough ≠ r.passthrough := by
  decide

end AttributeUsage

namespace AttributeUsage

/-- The demanded outputs are written already or, in passthrough mode, what is forwarded
is what the stage lacks of them. -/
def Provides (u : AttributeUsage) (geometryPassthrough : Bool) (mask : UInt32) : Prop :=
  ∀ location, if geometryPassthrough then
    test u.passthrough location ↔ test mask location ∧ test u.outputs location = false
  else test mask location → test u.outputs location

theorem mergeOutputs_eq_iff {u : AttributeUsage} :
    u.mergeOutputs geometryPassthrough mask [] = u ↔ u.Provides geometryPassthrough mask := by
  obtain ⟨inputs, outputs, patchInputs, patchOutputs, nextPatchInputs, passthrough, components, nextComponents⟩ := u
  cases geometryPassthrough with
  | false =>
    simp only [mergeOutputs, Provides, ext_iff, Bool.false_eq_true, if_false, mk.injEq]
    simp [test, union]
  | true =>
    have hforwarded : mask &&& ~~~outputs = passthrough ↔ ∀ n, test passthrough n ↔
        test mask n ∧ test outputs n = false := by
      rw [eq_comm, ext_iff]
      exact forall_congr' fun n => by rw [Bool.eq_iff_iff, test_sdiff]
    simpa [mergeOutputs, Provides, union] using hforwarded

theorem mergeOutputs_mergeOutputs (u : AttributeUsage) (geometryPassthrough : Bool) (mask : UInt32) :
    (u.mergeOutputs geometryPassthrough mask []).mergeOutputs geometryPassthrough mask [] =
      u.mergeOutputs geometryPassthrough mask [] := by
  cases geometryPassthrough with
  | false =>
    simp only [mergeOutputs, Bool.false_eq_true, if_false, UInt32.or_assoc, UInt32.or_self]
    rfl
  | true => rfl

end AttributeUsage

namespace StageContext

variable {s first : StageContext} {emulated : Bool}

/-- Joining gets as far as demanding the outputs of `s`. -/
def demands (s : StageContext) (emulated : Bool) : Bool :=
  !s.progress.isSpent && (s.lower emulated (s.beginLocalMemory (s.resources emulated)) {} secondParts).isOk

/-- A join that demands nothing changes nothing; one that does looks at the first stage only
after the demand. -/
theorem compileWith_cases (s : StageContext) (emulated : Bool) :
    (s.demands emulated = false ∧ ∃ report, ∀ first, s.compileWith first emulated = (report, s, first)) ∨
      s.demands emulated ∧ ∃ report : StageContext → JoinedReport, ∀ first, s.compileWith first emulated =
        (report (first.feeding s),
          if (report (first.feeding s)).result.isOk then { s with progress := .joined } else s, first.feeding s) := by
  unfold compileWith demands
  by_cases hspent : s.progress.isSpent
  · exact .inl ⟨by simp [hspent], _, fun first => if_pos hspent⟩
  simp only [if_neg hspent]
  cases hlow : s.lower emulated (s.beginLocalMemory (s.resources emulated)) {} secondParts with
  | error e => exact .inl ⟨by simp [Except.isOk, Except.toBool], _, fun first => rfl⟩
  | ok tail =>
    let report (first : StageContext) : JoinedReport := { s.compileAfter first emulated tail with
      warnings := s.warnings emulated (s.beginLocalMemory (s.resources emulated)) ++
        (s.compileAfter first emulated tail).warnings }
    exact .inr ⟨by simp [hspent, Except.isOk, Except.toBool], report, fun first => rfl⟩

theorem feeding_feeding (s first : StageContext) : (first.feeding s).feeding s = first.feeding s := by
  unfold feeding mergeOutputs
  dsimp only
  rw [AttributeUsage.mergeOutputs_mergeOutputs]

theorem feeding_eq_iff : first.feeding s = first ↔
    first.usage.attributes.Provides first.config.geometryPassthrough s.usage.attributes.outputs := by
  rw [← AttributeUsage.mergeOutputs_eq_iff]
  constructor
  · intro h
    exact congrArg (·.usage.attributes) h
  · intro h
    unfold feeding mergeOutputs
    rw [h]

/-- A failed join leaves the second stage as it was, and so what becomes of it later. The
first one is as it was exactly if the join failed before it demanded anything or the
demand was met already; otherwise it has the demanded outputs and differs in nothing
else. Joining the two once more gives the same in every case. -/
theorem compileWith_failed {e : CompileError} (h : (s.compileWith first emulated).1.result = .error e) :
    let after := (s.compileWith first emulated).2
    after.1 = s ∧ (after.2 = first ↔ s.demands emulated = false ∨
        first.usage.attributes.Provides first.config.geometryPassthrough s.usage.attributes.outputs) ∧
      (∃ outputs passthrough, after.2 =
        { first with usage.attributes := { first.usage.attributes with outputs, passthrough } }) ∧
      ∀ emulated', (after.1.compileWith after.2 emulated').1 = (s.compileWith first emulated').1 := by
  dsimp only
  obtain ⟨hdemands, report, hjoin⟩ | ⟨hdemands, report, hjoin⟩ := s.compileWith_cases emulated
  · rw [hjoin, hdemands]
    exact ⟨rfl, by simp, ⟨_, _, rfl⟩, fun _ => rfl⟩
  rw [hjoin] at h ⊢
  rw [h, hdemands, if_neg (by simp [Except.isOk, Except.toBool])]
  refine ⟨rfl, by simpa using feeding_eq_iff, ?_, fun emulated' => ?_⟩
  · unfold feeding mergeOutputs AttributeUsage.mergeOutputs
    split <;> exact ⟨_, _, rfl⟩
  · obtain ⟨-, report', hjoin'⟩ | ⟨-, report', hjoin'⟩ := s.compileWith_cases emulated'
    · rw [hjoin', hjoin']
    · rw [hjoin', hjoin', feeding_feeding]

/-- A stage with two ways into its loop. -/
def tangled : StageContext :=
  .ofProgram { blocks := [⟨0, [{ address := 0, op := .ast ⟨0⟩ 1 0x90 none none false },
      { address := 8, guard := { predicate := ⟨0⟩ }, op := .bra 0x200 }]⟩,
    ⟨0x100, [{ address := 0x100, op := .mov ⟨0⟩ (.immediate 0) }]⟩,
    ⟨0x200, [{ address := 0x200, guard := { predicate := ⟨1⟩ }, op := .bra 0x100 },
      { address := 0x208, op := .exit }]⟩] } { stage := .vertex } default {}

theorem compileWith_failed_tangled : ∃ e, (tangled.compileWith storing false).1.result = .error e ∧
    (tangled.compileWith storing false).2.1 = tangled ∧ (tangled.compileWith storing false).2.2 ≠ storing := by
  have hisOk : (tangled.compileWith storing false).1.result.isOk = false := by decide +kernel
  obtain ⟨e, he⟩ : ∃ e, (tangled.compileWith storing false).1.result = .error e := by
    cases h : (tangled.compileWith storing false).1.result with
    | error e => exact ⟨e, rfl⟩
    | ok => rw [h] at hisOk; cases hisOk
  obtain ⟨hsecond, hfirst, -⟩ := compileWith_failed he
  refine ⟨e, he, hsecond, fun hsame => ?_⟩
  obtain hnone | hmet := hfirst.1 hsame
  · have hdemands : tangled.demands false = true := by decide +kernel
    rw [hdemands] at hnone
    cases hnone
  · exact absurd (hmet 1 (by decide +kernel)) (by decide +kernel)

/-- The join fails where its flow is structured, and the stage before it is left with an
output that it neither writes nor was asked for by anything that still stands. -/
theorem tangled_changes_storing : (tangled.compileWith storing false).1.result.isOk = false ∧
    (tangled.compileWith storing false).2.2.usage ≠ storing.usage ∧
    (tangled.compileWith storing false).2.2.reservations ≠ storing.reservations := by
  decide +kernel

end StageContext
end ShaderRecompiler
