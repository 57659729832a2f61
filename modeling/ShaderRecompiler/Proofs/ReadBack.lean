import ShaderRecompiler.Proofs.Joining

/-! What a program reads back from its own generic outputs. Alone, a load gives the
value of the last store to its slot. Joined in front of a second program this is so
for the slots that the second program does not read; the stores to the others go to
variables, and a load finds the slot as it was before the run. -/
namespace ShaderRecompiler

open List Operation Flat Join Option Nat

universe u v

variable {σ : Type u} {V : Type v}

theorem Operation.readBack?_eq_some {op : Operation} (h : op.readBack? = some slot) :
    op.inst = .load ∧ op.storage = .output ∧ op.userSlot? = some slot := by
  unfold readBack? at h
  split at h
  · next hload => simp_all [isLoad]
  · cases h

namespace Lowered

variable {head : Lowered} {second : List Operation} {ids : Ids} {op store : Operation} {pc : Nat} {slot : Nat × Nat}

/-! The second program never goes back to the first. -/

section Stays

variable {i : Nat} (hapart : Apart ids head second)
include hapart

theorem label_of_second (hpc : head.ops.length < pc) (hop : (head.join second).1[pc]? = some op)
    (hlab : .label n ∈ op.sources) : n < ids.labels := by
  obtain ⟨i, rfl⟩ := Nat.exists_eq_add_of_lt hpc
  rw [add_right_comm, join_second] at hop
  obtain ⟨op', hop', rfl⟩ := map_eq_some_iff.1 hop
  unfold carryLoad at hlab
  split at hlab
  · next o ho =>
    -- A carried load has a variable for its only source.
    obtain ⟨slot, -, hcarr⟩ := bind_eq_some_iff.1 ho
    obtain ⟨m, rfl⟩ := Bridge.exists_var (ite_none_right_eq_some.1 hcarr).2
    simp [toCopy] at hlab
  · exact (hapart.second op' (mem_of_getElem? hop') (.label n) (mem_append_right _ hlab)).2

theorem lt_of_mark? (hn : n < ids.labels) (h : mark? (head.join second).1 n = some pc) : head.ops.length < pc := by
  obtain ⟨op, hop, hmark⟩ := getElem?_of_mark? h
  have hlabs := hapart.labels
  by_contra hge
  obtain hlt | rfl := Nat.lt_or_eq_of_le (Nat.le_of_not_lt hge)
  · rw [join_first (getElem?_eq_getElem hlt)] at hop
    obtain rfl := Option.some.inj hop
    have := (hapart.label_of_marks (getElem_mem hlt) (marks_first hmark)).1
    omega
  · rw [join_mark] at hop
    obtain rfl := Option.some.inj hop
    obtain rfl : n = head.ids.labels := by simpa using hmark
    omega

theorem le_of_follow {next : Nat} (hpc : head.ops.length ≤ pc) (hop : (head.join second).1[pc]? = some op)
    (h : follow I (head.join second).1 pc op s = some next) : head.ops.length ≤ next := by
  obtain htgt | ⟨rfl, -⟩ := follow_cases h
  · obtain ⟨n, hn, hmark⟩ := bind_eq_some_iff.1 htgt
    obtain hlt | rfl := lt_or_eq_of_le hpc
    · have hsrc := mem_sources_of_mem_label (mem_toList.2 hn)
      exact le_of_lt (lt_of_mark? hapart (label_of_second hapart hlt hop hsrc) hmark)
    · rw [join_mark] at hop
      obtain rfl := Option.some.inj hop
      obtain rfl : head.ids.labels = n := Option.some.inj hn
      rw [mark?_seam hapart] at hmark
      exact le_of_eq (Option.some.inj hmark)
  · exact le_succ_of_le hpc

theorem le_of_le (hplace : (after I (head.join second).1 t i).1 = some pc) (hpc : head.ops.length ≤ pc)
    (hik : i ≤ k) : ∀ q ∈ (after I (head.join second).1 t k).1, head.ops.length ≤ q := by
  induction hik with
  | refl =>
    intro q hq
    obtain rfl := Option.some.inj (hplace.symm.trans hq)
    exact hpc
  | @step k _ ih =>
    intro q hq
    rw [after_succ] at hq
    generalize after I (head.join second).1 t k = c at ih hq
    obtain ⟨place, s⟩ := c
    cases place with
    | none => cases hq
    | some place =>
      cases hop : (head.join second).1[place]? with
      | none =>
        rw [step, hop] at hq
        cases hq
      | some op =>
        rw [step_some hop] at hq
        exact le_of_follow hapart (ih place rfl) hop hq

theorem lt_of_lt (hplace : (after I (head.join second).1 t k).1 = some pc) (hpc : pc < head.ops.length)
    (hik : i ≤ k) : ∀ q ∈ (after I (head.join second).1 t i).1, q < head.ops.length := by
  intro q hq
  by_contra hge
  have := le_of_le hapart hq (Nat.le_of_not_lt hge) hik pc hplace
  omega

end Stays

/-! Generic outputs while the first program runs. -/

section Output

variable {M : Machine σ V} (hconstant : ∀ op ∈ head.ops, op.storesUser → (written? op).isSome)

theorem output_of_isStore (h : op.isStore .output = false) (slot : Nat × Nat) (s : σ) :
    M.output slot (M.perform op s) = M.output slot s := by
  refine M.output_other op slot s ?_ ?_
  · rw [written?, h, if_neg Bool.false_ne_true]
    exact (some_ne_none slot).symm
  · rw [storesUser, h]
    exact fun hstores => absurd hstores Bool.false_ne_true

include hconstant

theorem output_alone (hop : head.ops[pc]? = some op) (h : ¬ head.Stores slot pc) (s : σ) :
    M.output slot (M.perform op s) = M.output slot s :=
  M.output_other op slot s (fun hslot => h ⟨op, hop, hslot⟩) (hconstant op (mem_of_getElem? hop))

theorem output_joined (hpc : pc < head.ops.length) (hop : (head.join second).1[pc]? = some op)
    (h : ¬ head.Stores slot pc ∨ ((Bridge.ofReads second head.ids).carrier? slot).isSome) (s : σ) :
    M.output slot (M.perform op s) = M.output slot s := by
  have hfst := getElem?_eq_getElem hpc
  rw [join_first hfst] at hop
  obtain rfl := Option.some.inj hop
  unfold continueAt
  split
  · exact output_of_isStore rfl slot s
  · obtain hsame | ⟨_, _, -, -, hcopy⟩ := carryStore_cases (.ofReads second head.ids) head.ops[pc]
    · by_cases hslot : written? head.ops[pc] = some slot
      · obtain ⟨o, ho⟩ := isSome_iff_exists.1 (h.resolve_left fun hnot => hnot ⟨_, hfst, hslot⟩)
        rw [carryStore_of_carrier hslot ho]
        exact output_of_isStore rfl slot s
      · rw [hsame]
        exact M.output_other _ slot s hslot (hconstant _ (getElem_mem hpc))
    · rw [hcopy]
      exact output_of_isStore rfl slot s

end Output

theorem join_load (hop : head.ops[pc]? = some op) (hload : op.inst = .load) : (head.join second).1[pc]? = some op := by
  obtain hsame | ⟨_, _, hwr, -, -⟩ := carryStore_cases (.ofReads second head.ids) op
  · rw [join_first hop, hsame, continueAt_of_isStraight (by rw [hload]; rfl)]
  · rw [(inst_of_written? hwr).1] at hload
    cases hload

theorem join_uncarried (hop : head.ops[pc]? = some store) (hslot : written? store = some slot)
    (h : (Bridge.ofReads second head.ids).carrier? slot = none) : (head.join second).1[pc]? = some store := by
  rw [join_first hop, carryStore_of_none (by rw [hslot, bind_some, h]),
    continueAt_of_isStraight (by rw [(inst_of_written? hslot).1]; rfl)]

theorem Opens.length_le (h : head.Opens initial) (hop : head.ops[pc]? = some op)
    (hload : op.inst = .load) : initial.length ≤ pc := by
  by_contra hlt
  have hlt := Nat.lt_of_not_le hlt
  obtain rfl := Option.some.inj (hop.symm.trans (prefix_iff_getElem?.1 h.starts pc hlt))
  rw [h.stores _ (getElem_mem hlt)] at hload
  cases hload

/-! What a load gives. -/

section Load

variable {M : Machine σ V} {ops : List Operation} {t : σ} {k q : Nat} {dest : Operand}

theorem output_after_store (hplace : (after M.toInterpretation ops t k).1 = some pc)
    (hop : ops[pc]? = some store) (hslot : written? store = some slot) :
    M.output slot (after M.toInterpretation ops t (k + 1)).2 =
      M.read store.stored (after M.toInterpretation ops t k).2 := by
  rw [after_straight hplace hop (by rw [(inst_of_written? hslot).1]; rfl)]
  exact M.output_store store slot _ hslot

theorem read_after_load (hplace : (after M.toInterpretation ops t k).1 = some pc) (hop : ops[pc]? = some op)
    (hload : op.readBack? = some slot) (hdest : op.dest = some dest) (hassignable : dest.isAssignable) :
    M.read dest (after M.toInterpretation ops t (k + 1)).2 =
      M.output slot (after M.toInterpretation ops t k).2 := by
  rw [after_straight hplace hop (by rw [(readBack?_eq_some hload).1]; rfl)]
  exact M.read_load op dest slot _ hload hdest hassignable

variable (hconstant : ∀ op ∈ head.ops, op.storesUser → (written? op).isSome)
include hconstant

theorem output_last (hlast : Last M.toInterpretation head.ops t (head.Stores slot) k j q)
    (hstore : head.ops[q]? = some store) : M.output slot (after M.toInterpretation head.ops t k).2 =
      M.read store.stored (after M.toInterpretation head.ops t j).2 := by
  have hkept : M.output slot (after M.toInterpretation head.ops t k).2 =
      M.output slot (after M.toInterpretation head.ops t (j + 1)).2 :=
    hlast.content fun _ _ hop hstores => output_alone hconstant hop hstores
  obtain ⟨op, hop, hslot⟩ := hlast.mem
  obtain rfl := Option.some.inj (hop.symm.trans hstore)
  rw [hkept, output_after_store hlast.place hop hslot]

variable (hapart : Apart ids head second)
  (hplace : (after M.toInterpretation (head.join second).1 t k).1 = some pc) (hpc : pc < head.ops.length)
include hapart hplace hpc

theorem output_last_joined (hcarr : (Bridge.ofReads second head.ids).carrier? slot = none)
    (hlast : Last M.toInterpretation (head.join second).1 t (head.Stores slot) k j q)
    (hstore : head.ops[q]? = some store) :
    M.output slot (after M.toInterpretation (head.join second).1 t k).2 =
      M.read store.stored (after M.toInterpretation (head.join second).1 t j).2 := by
  have hkept : M.output slot (after M.toInterpretation (head.join second).1 t k).2 =
      M.output slot (after M.toInterpretation (head.join second).1 t (j + 1)).2 := by
    -- Stores of the second program do not matter, because control was never there.
    refine unchanged (W := fun pc => head.Stores slot pc ∨ head.ops.length ≤ pc) ?_ hlast.lt ?_
    · intro pc op hop hW
      rw [not_or, not_le] at hW
      exact output_joined hconstant hW.2 hop (.inl hW.1)
    · rintro i hji hik q hq (hstores | hge)
      · exact hlast.quiet i hji hik q hq hstores
      · have := lt_of_lt hapart hplace hpc (le_of_lt hik) q hq
        omega
  obtain ⟨op, hop, hslot⟩ := hlast.mem
  obtain rfl := Option.some.inj (hop.symm.trans hstore)
  rw [hkept, output_after_store hlast.place (join_uncarried hop hslot hcarr) hslot]

theorem output_carried (hcarr : ((Bridge.ofReads second head.ids).carrier? slot).isSome) :
    M.output slot (after M.toInterpretation (head.join second).1 t k).2 = M.output slot t := by
  refine unchanged (W := fun pc => head.ops.length ≤ pc) ?_ (zero_le k) ?_
  · intro pc op hop hW
    exact output_joined hconstant (Nat.lt_of_not_le hW) hop (.inr hcarr)
  · intro i _ hik q hq hge
    have := lt_of_lt hapart hplace hpc (le_of_lt hik) q hq
    omega

end Load
end Lowered

namespace StageContext

variable {s first : StageContext} {emulated : Bool} {head tail : Lowered}

/-- When the slots of generic outputs are fixed, a load from one finds a last store to its
slot both when the vertex program runs alone and when it is joined. Alone it gives the
value of that store. Joined it does so unless the second program reads the slot: then
it gives what the slot held before the run. -/
theorem join_reads_back (hfirst : first.Configured) (hstage : first.config.guestStage = .vertex)
    (hpass : first.config.geometryPassthrough = false) (h : LoweredTogether s first emulated head tail)
    (hconstant : ∀ op ∈ head.ops, op.storesUser = true → (Join.written? op).isSome = true) (M : Machine σ V) (t : σ)
    {k pc : Nat} {op : Operation} {slot : Nat × Nat} {dest : Operand} (hop : head.ops[pc]? = some op)
    (hload : op.readBack? = some slot) (hdest : op.dest = some dest) (hassignable : dest.isAssignable = true) :
    let alone := Flat.after M.toInterpretation head.ops t
    let joined := Flat.after M.toInterpretation (head.join tail.ops).1 t
    ((alone k).1 = some pc → ∃ j q store, Flat.Last M.toInterpretation head.ops t (head.Stores slot) k j q ∧
        head.ops[q]? = some store ∧ M.read dest (alone (k + 1)).2 = M.read store.stored (alone j).2) ∧
      ((joined k).1 = some pc →
        ∃ j q store, Flat.Last M.toInterpretation (head.join tail.ops).1 t (head.Stores slot) k j q ∧
          head.ops[q]? = some store ∧ M.read dest (joined (k + 1)).2 =
            if slot ∈ tail.ops.filterMap Join.read? then M.output slot t else M.read store.stored (joined j).2) := by
  have hapart := h.apart
  obtain ⟨initial, hopens⟩ := h.opens hfirst hstage hpass
  obtain ⟨hinst, hstorage, hslot⟩ := Operation.readBack?_eq_some hload
  have hpc := hopens.length_le hop hinst
  have hstraight : op.inst.isStraight = true := by
    rw [hinst]
    rfl
  intro alone joined
  constructor
  · intro hplace
    obtain ⟨j, q, hlast⟩ := hopens.exists_last (fun q op hop hstraight => ⟨op, hop, hstraight⟩)
      (List.mem_of_getElem? hop) hstraight hstorage hslot hplace hpc
    obtain ⟨store, hstore, -⟩ := hlast.mem
    refine ⟨j, q, store, hlast, hstore, ?_⟩
    rw [← Lowered.output_last hconstant hlast hstore]
    exact Lowered.read_after_load hplace hop hload hdest hassignable
  · intro hplace
    have hlt : pc < head.ops.length := (List.getElem?_eq_some_iff.1 hop).1
    obtain ⟨j, q, hlast⟩ := hopens.exists_last (fun q op hop hstraight => Lowered.isStraight_first hop hstraight)
      (List.mem_of_getElem? hop) hstraight hstorage hslot hplace hpc
    obtain ⟨store, hstore, -⟩ := hlast.mem
    refine ⟨j, q, store, hlast, hstore, ?_⟩
    have hread := Lowered.read_after_load hplace (Lowered.join_load hop hinst) hload hdest hassignable
    split
    · next hmem =>
      rw [← Lowered.output_carried hconstant hapart hplace hlt (Join.Bridge.isSome_carrier?.2 hmem)]
      exact hread
    · next hmem =>
      have hcarrier : (Join.Bridge.ofReads tail.ops head.ids).carrier? slot = none :=
        Option.not_isSome_iff_eq_none.1 (mt Join.Bridge.isSome_carrier?.1 hmem)
      rw [← Lowered.output_last_joined hconstant hapart hplace hlt hcarrier hlast hstore]
      exact hread

/-- Loads what it has stored to the first generic output. -/
def rereading : StageContext :=
  vertexStage [.mov ⟨0⟩ (.immediate 0x3f800000), .ast ⟨0⟩ 1 0x80 none none false,
    .ald ⟨1⟩ 1 0x80 none none false true, .ast ⟨1⟩ 1 0x90 none none false, .exit]

def rereadingHead : Lowered :=
  ((rereading.feeding forwarding).lower false
    ((rereading.feeding forwarding).beginLocalMemory forwardingTail.resources) forwardingTail.ids
    firstParts).toOption.get rfl

theorem join_reads_back_rereading : LoweredTogether forwarding rereading false rereadingHead forwardingTail ∧
      (∀ op ∈ rereadingHead.ops, op.storesUser = true → (Join.written? op).isSome = true) ∧
      zeroWorld.machine.read (.register ⟨1⟩) (Flat.after zeroWorld.machine.toInterpretation
        (rereadingHead.join forwardingTail.ops).1 (fun _ => 0, fun _ => 7) 20).2 = 7 := by
  have htogether : LoweredTogether forwarding rereading false rereadingHead forwardingTail := ⟨rfl, rfl⟩
  have hconstant : ∀ op ∈ rereadingHead.ops, op.storesUser = true → (Join.written? op).isSome = true := by
    decide +kernel
  obtain ⟨-, hjoined⟩ := join_reads_back (.ofProgram ..) rfl rfl htogether hconstant zeroWorld.machine
    (fun _ => 0, fun _ => 7) (k := 19) (show rereadingHead.ops[19]? = some _ from rfl) rfl rfl rfl
  obtain ⟨j, q, store, -, -, hread⟩ := hjoined (by decide +kernel)
  rw [if_pos (by decide +kernel)] at hread
  exact ⟨htogether, hconstant, hread⟩

/-- Alone the program reads its own value; in front of a program that reads the slot it
does not. -/
theorem rereading_misses : zeroWorld.machine.read (.register ⟨1⟩) (Flat.after zeroWorld.machine.toInterpretation
        rereadingHead.ops (fun _ => 0, fun _ => 7) 20).2 = 0x3f800000 ∧
      zeroWorld.machine.read (.register ⟨1⟩) (Flat.after zeroWorld.machine.toInterpretation
        (rereadingHead.join forwardingTail.ops).1 (fun _ => 0, fun _ => 7) 20).2 ≠ 0x3f800000 := by
  constructor <;> decide +kernel

end StageContext
end ShaderRecompiler
