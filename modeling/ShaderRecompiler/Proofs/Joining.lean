import ShaderRecompiler.Proofs.History
import ShaderRecompiler.Proofs.Outputs

/-! Two programs as one hand generic attributes over. A run of the joined list that
returns behind the prologue of the first program goes on with the second one, and
what the second one loads from a slot that the first one stores is the value of the
last store that was performed. -/
namespace ShaderRecompiler

open List Operation Flat Join Option

universe u v

variable {σ : Type u} {V : Type v}

namespace Operation

variable {op : Operation}

theorem mem_sources_of_mem_label (h : n ∈ op.label) : .label n ∈ op.sources := by
  obtain ⟨o, ho, hlab⟩ := bind_eq_some_iff.1 (mem_toList.1 h)
  cases o with
  | label id =>
    obtain rfl : id = n := some.inj hlab
    exact mem_of_getElem? ho
  | _ => cases hlab

theorem marks_subset_label : op.marks ⊆ op.label := by
  unfold marks
  split
  · exact Subset.refl _
  · exact nil_subset _

end Operation

namespace Join

variable {b : Bridge} {op : Operation} {slot : Nat × Nat} {o : Operand}

theorem written?_eq_some_iff : written? op = some slot ↔ op.isStore .output ∧ op.userSlot? = some slot := by
  unfold written?
  split <;> simp_all

theorem inst_of_written? (h : written? op = some slot) : op.inst = .store ∧ op.storage = .output := by
  obtain ⟨hstore, -⟩ := written?_eq_some_iff.1 h
  simpa [isStore] using hstore

/-! Variables of slots. -/

theorem Bridge.exists_var (h : b.carrier? slot = some o) : ∃ n, o = .var n := by
  obtain ⟨i, -, rfl⟩ := map_eq_some_iff.1 h
  exact ⟨_, rfl⟩

theorem Bridge.carrier?_inj (h : b.carrier? slot = some o) (h' : b.carrier? slot' = some o) : slot = slot' := by
  obtain ⟨i, hi, rfl⟩ := map_eq_some_iff.1 h
  obtain ⟨j, hj, hij⟩ := map_eq_some_iff.1 h'
  obtain rfl : j = i := Nat.add_left_cancel (Operand.var.inj hij)
  obtain ⟨-, rfl, -⟩ := List.idxOf?_eq_some_iff.1 hi
  obtain ⟨-, rfl, -⟩ := List.idxOf?_eq_some_iff.1 hj
  rfl

theorem Bridge.isSome_carrier? :
    ((Bridge.ofReads second ids).carrier? slot).isSome ↔ slot ∈ second.filterMap read? := by
  rw [carrier?, isSome_map, isSome_idxOf?]
  exact mem_eraseDups

/-! Operations of the joined list. -/

theorem carryStore_of_carrier (h : written? op = some slot) (hcarrier : b.carrier? slot = some o) :
    carryStore b op = ⟨.copy, .none, some o, [op.stored]⟩ := by
  unfold carryStore
  rw [h, bind_some, hcarrier]
  rfl

theorem carryStore_of_none (h : (written? op).bind b.carrier? = none) : carryStore b op = op := by
  unfold carryStore
  rw [h]

theorem carryStore_cases (b : Bridge) (op : Operation) :
    carryStore b op = op ∨ ∃ slot o, written? op = some slot ∧ b.carrier? slot = some o ∧
      carryStore b op = ⟨.copy, .none, some o, [op.stored]⟩ := by
  cases h : (written? op).bind b.carrier? with
  | none => exact .inl (carryStore_of_none h)
  | some o =>
    obtain ⟨slot, hslot, hcarrier⟩ := bind_eq_some_iff.1 h
    exact .inr ⟨slot, o, hslot, hcarrier, carryStore_of_carrier hslot hcarrier⟩

theorem isStraight_carryStore (h : op.inst.isStraight) : (carryStore b op).inst.isStraight := by
  obtain hsame | ⟨slot, o, -, -, hcopy⟩ := carryStore_cases b op
  · rwa [hsame]
  · rw [hcopy]
    rfl

theorem continueAt_of_ne {label : Operand} (h : op.inst ≠ .ret) : continueAt label bodyStart index op = op :=
  if_neg fun hret => h hret.1

theorem continueAt_of_isStraight {label : Operand} (h : op.inst.isStraight) :
    continueAt label bodyStart index op = op := by
  refine continueAt_of_ne fun hret => ?_
  rw [hret] at h
  cases h

theorem carryLoad_cases (b : Bridge) (stored : List (Nat × Nat)) (op : Operation) :
    carryLoad b stored op = op ∨ op.inst = .load ∧ ∃ n, carryLoad b stored op = op.toCopy (.var n) := by
  unfold carryLoad
  split
  · next carrier hcarrier =>
    obtain ⟨slot, hread, hslot⟩ := bind_eq_some_iff.1 hcarrier
    have hload : op.inst = .load := by
      unfold read? at hread
      split at hread
      · next hload => exact (isLoad_eq hload).1
      · cases hread
    split at hslot
    · obtain ⟨n, rfl⟩ := Bridge.exists_var hslot
      exact .inr ⟨hload, n, rfl⟩
    · cases hslot
  · exact .inl rfl

theorem carryLoad_of_carrier {stored : List (Nat × Nat)} (h : read? op = some slot) (hmem : slot ∈ stored)
    (hcarrier : b.carrier? slot = some o) : carryLoad b stored op = op.toCopy o := by
  unfold carryLoad
  rw [h, bind_some, if_pos (contains_iff_mem.2 hmem), hcarrier]

theorem carryLoad_of_not_mem {stored : List (Nat × Nat)} (h : ∀ slot, read? op = some slot → slot ∉ stored) :
    carryLoad b stored op = op := by
  unfold carryLoad
  cases hread : read? op with
  | none => rfl
  | some slot => rw [bind_some, if_neg (mt contains_iff_mem.1 (h slot hread))]

theorem dest_carryLoad (b : Bridge) (stored : List (Nat × Nat)) (op : Operation) :
    (carryLoad b stored op).dest = op.dest := by
  unfold carryLoad
  split <;> rfl

end Join

namespace Lowered

variable {head : Lowered} {second : List Operation} {op : Operation} {pc i : Nat} {slot : Nat × Nat}

/-- At this place stands a store of the first program to the slot. -/
def Stores (head : Lowered) (slot : Nat × Nat) (pc : Nat) : Prop :=
  ∃ op, head.ops[pc]? = some op ∧ written? op = some slot

theorem exists_stores (h : slot ∈ head.ops.filterMap written?) : ∃ pc, head.Stores slot pc := by
  obtain ⟨op, hop, hslot⟩ := mem_filterMap.1 h
  obtain ⟨pc, hpc⟩ := mem_iff_getElem?.1 hop
  exact ⟨pc, op, hpc, hslot⟩

theorem join_first (h : head.ops[pc]? = some op) :
    (head.join second).1[pc]? = some (continueAt (.label head.ids.labels) head.bodyStart pc
      (carryStore (.ofReads second head.ids) op)) := by
  have hlt : pc < head.ops.length := (List.getElem?_eq_some_iff.1 h).1
  rw [join, getElem?_append_left (by simpa using hlt), getElem?_map, getElem?_zipIdx, h]
  simp [Ids.freshLabel]

theorem isStraight_first (h : head.ops[pc]? = some op) (hstr : op.inst.isStraight) :
    ∃ op', (head.join second).1[pc]? = some op' ∧ op'.inst.isStraight := by
  have hcarried : (carryStore (.ofReads second head.ids) op).inst.isStraight :=
    isStraight_carryStore hstr
  refine ⟨_, join_first h, ?_⟩
  rwa [continueAt_of_isStraight hcarried]

theorem join_mark : (head.join second).1[head.ops.length]? = some (.marking head.ids.labels) := by
  rw [join, getElem?_append_right (by simp)]
  simp [Ids.freshLabel, marking]

theorem join_second (i : Nat) : (head.join second).1[head.ops.length + 1 + i]? = (second[i]?).map
      (carryLoad (.ofReads second head.ids) (head.ops.filterMap written?)) := by
  have hidx : head.ops.length + 1 + i - head.ops.length = i + 1 := by omega
  rw [join, getElem?_append_right (by simp; omega)]
  simp [hidx]

theorem join_cases (h : (head.join second).1[pc]? = some op) :
    (∃ op', head.ops[pc]? = some op' ∧ op = continueAt (.label head.ids.labels) head.bodyStart pc
        (carryStore (.ofReads second head.ids) op')) ∨
      op = .marking head.ids.labels ∨
      ∃ op' ∈ second, op = carryLoad (.ofReads second head.ids) (head.ops.filterMap written?) op' := by
  obtain hlt | rfl | hgt := Nat.lt_trichotomy pc head.ops.length
  · have hfst := getElem?_eq_getElem hlt
    rw [join_first hfst] at h
    exact .inl ⟨_, hfst, (some.inj h).symm⟩
  · rw [join_mark] at h
    exact .inr (.inl (some.inj h).symm)
  · obtain ⟨i, rfl⟩ := Nat.exists_eq_add_of_lt hgt
    rw [Nat.add_right_comm, join_second] at h
    obtain ⟨op', hop', rfl⟩ := map_eq_some_iff.1 h
    exact .inr (.inr ⟨op', mem_of_getElem? hop', rfl⟩)

/-- The programs share no temporaries and labels, and neither of them uses variables:
what the second one uses was taken before `ids`, what the first one uses after. -/
structure Apart (ids : Ids) (head : Lowered) (second : List Operation) : Prop where
  first : ∀ op ∈ head.ops, ∀ o ∈ op.operands, o.Within ids head.ids
  second : ∀ op ∈ second, ∀ o ∈ op.operands, o.Within {} ids
  labels : ids.labels ≤ head.ids.labels

variable {ids : Ids}

theorem Apart.label_of_marks (hapart : Apart ids head second) (hop : op ∈ head.ops) {n : Nat} (hn : n ∈ op.marks) :
    ids.labels ≤ n ∧ n < head.ids.labels :=
  hapart.first op hop (.label n) (mem_append_right _ (mem_sources_of_mem_label (marks_subset_label hn)))

theorem marks_first {label : Operand}
    (h : n ∈ (continueAt label head.bodyStart pc (carryStore b op)).marks) : n ∈ op.marks := by
  unfold continueAt at h
  split at h
  · cases h
  · obtain hsame | ⟨_, _, -, -, hcopy⟩ := carryStore_cases b op
    · rwa [hsame] at h
    · rw [hcopy] at h
      cases h

theorem mark?_seam (hapart : Apart ids head second) :
    mark? (head.join second).1 head.ids.labels = some head.ops.length := by
  have hmark : (head.join second).1[head.ops.length]? = some (.marking head.ids.labels) := join_mark
  obtain ⟨hlen, hseam⟩ := List.getElem?_eq_some_iff.1 hmark
  rw [mark?, findIdx?_eq_some_iff_getElem]
  refine ⟨hlen, by rw [hseam]; simp, fun j hj hmem => ?_⟩
  have hfst : (head.join second).1[j]? = _ := join_first (getElem?_eq_getElem hj)
  rw [getElem?_eq_getElem (Nat.lt_trans hj hlen)] at hfst
  rw [some.inj hfst, contains_iff_mem] at hmem
  exact Nat.lt_irrefl _ (hapart.label_of_marks (getElem_mem hj) (marks_first hmem)).2

/-! Runs. -/

section Run

variable {I : Interpretation σ}

theorem after_return (hapart : Apart ids head second) (hplc : (after I (head.join second).1 t k).1 = some pc)
    (hop : head.ops[pc]? = some op) (hret : op.inst = .ret) :
    if pc < head.bodyStart then (after I (head.join second).1 t (k + 1)).1 = none
    else after I (head.join second).1 t (k + 2) =
      (some (head.ops.length + 1), (after I (head.join second).1 t k).2) := by
  have hstays : carryStore (.ofReads second head.ids) op = op := by
    obtain hsame | ⟨slot, _, hslot, -, -⟩ := carryStore_cases (.ofReads second head.ids) op
    · exact hsame
    · rw [(inst_of_written? hslot).1] at hret
      cases hret
  have hjoined : (head.join second).1[pc]? = _ := join_first hop
  rw [hstays, continueAt] at hjoined
  split
  · next hlt =>
    rw [if_neg (by omega)] at hjoined
    rw [after_terminator hplc hjoined (by rw [hret]; rfl)]
    unfold follow
    rw [hret]
  · next hge =>
    rw [if_pos ⟨hret, Nat.le_of_not_lt hge⟩] at hjoined
    have hbr := after_terminator hplc hjoined rfl
    have htgt : follow I (head.join second).1 pc ⟨.branch, .none, none, [.label head.ids.labels]⟩
        (after I (head.join second).1 t k).2 = some head.ops.length :=
      mark?_seam hapart
    rw [htgt] at hbr
    rw [after_terminator (congrArg Prod.fst hbr) join_mark rfl, hbr]
    rfl

end Run

section Carried

variable {M : Machine σ V} {t : σ} {n : Nat} {dest : Operand}
  (hcarrier : (Bridge.ofReads second head.ids).carrier? slot = some (.var n))
include hcarrier

theorem join_store (hop : head.ops[pc]? = some store) (hslot : written? store = some slot) :
    (head.join second).1[pc]? = some ⟨.copy, .none, some (.var n), [store.stored]⟩ := by
  rw [join_first hop, carryStore_of_carrier hslot hcarrier, continueAt_of_isStraight rfl]

theorem dest_ne_var (hapart : Apart ids head second) (hop : (head.join second).1[pc]? = some op)
    (h : ¬ head.Stores slot pc) : op.dest ≠ some (.var n) := by
  intro hdest
  obtain ⟨op', hfst, rfl⟩ | rfl | ⟨op', hsnd, rfl⟩ := join_cases hop
  · unfold continueAt at hdest
    split at hdest
    · cases hdest
    · obtain hsame | ⟨slot', o, hslot', hcarr', hcopy⟩ := carryStore_cases (.ofReads second head.ids) op'
      · rw [hsame] at hdest
        exact hapart.first op' (mem_of_getElem? hfst) (.var n) (by simp [operands, hdest])
      · rw [hcopy] at hdest
        obtain rfl : o = .var n := some.inj hdest
        obtain rfl := Bridge.carrier?_inj hcarr' hcarrier
        exact h ⟨op', hfst, hslot'⟩
  · cases hdest
  · rw [dest_carryLoad] at hdest
    exact hapart.second op' hsnd (.var n) (by simp [operands, hdest])

theorem read_carrier (hapart : Apart ids head second)
    (hlast : Last M.toInterpretation (head.join second).1 t (head.Stores slot) k j pc)
    (hstore : head.ops[pc]? = some store) :
    M.read (.var n) (after M.toInterpretation (head.join second).1 t k).2 =
      M.read store.stored (after M.toInterpretation (head.join second).1 t j).2 := by
  have hkept : M.read (.var n) (after M.toInterpretation (head.join second).1 t k).2 =
      M.read (.var n) (after M.toInterpretation (head.join second).1 t (j + 1)).2 :=
    hlast.content fun _ op hop hstores s => M.read_var op n s (dest_ne_var hcarrier hapart hop hstores)
  obtain ⟨op, hop, hslot⟩ := hlast.mem
  obtain rfl := some.inj (hop.symm.trans hstore)
  rw [hkept, after_straight hlast.place (join_store hcarrier hop hslot) rfl]
  exact M.read_copy _ _ _ rfl

theorem read_carried (hplc : (after M.toInterpretation (head.join second).1 t k).1 = some (head.ops.length + 1 + i))
    (hop : second[i]? = some op) (hread : read? op = some slot) (hmem : slot ∈ head.ops.filterMap written?)
    (hdest : op.dest = some dest) (hassignable : dest.isAssignable) :
    M.read dest (after M.toInterpretation (head.join second).1 t (k + 1)).2 =
      M.read (.var n) (after M.toInterpretation (head.join second).1 t k).2 := by
  have hcopy : (head.join second).1[head.ops.length + 1 + i]? = some ⟨.copy, .none, some dest, [.var n]⟩ := by
    rw [join_second, hop, map_some, carryLoad_of_carrier hread hmem hcarrier, toCopy, hdest]
  rw [after_straight hplc hcopy rfl]
  exact M.read_copy _ _ _ hassignable

end Carried

/-- Behind the stores at the start, every slot that the first program accesses was stored. -/
theorem Opens.exists_last {ops : List Operation} (hopens : head.Opens initial)
    (hstr : ∀ (q : Nat) (op : Operation), head.ops[q]? = some op → op.inst.isStraight →
      ∃ op' : Operation, ops[q]? = some op' ∧ op'.inst.isStraight)
    (hop : op ∈ head.ops) (hacc : op.inst.isStraight) (hstor : op.storage = .output)
    (hslot : op.userSlot? = some slot) (hplc : (after I ops t k).1 = some pc) (hpc : initial.length ≤ pc) :
    ∃ j q, Last I ops t (head.Stores slot) k j q := by
  have hfst : ∀ (q : Nat) (hq : q < initial.length), head.ops[q]? = some initial[q] :=
    prefix_iff_getElem?.1 hopens.starts
  have hini : ∀ q < initial.length, ∃ op : Operation, ops[q]? = some op ∧ op.inst.isStraight := by
    intro q hq
    refine hstr q initial[q] (hfst q hq) ?_
    rw [hopens.stores _ (getElem_mem hq)]
    rfl
  have hle := le_of_after hini hplc hpc
  obtain ⟨store, hstore, hwr⟩ := hopens.covers op hop hacc hstor slot hslot
  obtain ⟨q, hq, rfl⟩ := getElem_of_mem hstore
  refine Flat.exists_last ⟨q, Nat.lt_of_lt_of_le hq hle, q, Flat.after_of_straight hini (Nat.le_of_lt hq), ?_⟩
  exact ⟨initial[q], hfst q hq, hwr⟩

end Lowered

namespace StageContext

variable {s first : StageContext} {emulated : Bool} {head tail : Lowered}

/-- `tail` is `s` and `head` is `first`, lowered to be joined: the second program is
lowered first, and the first one goes on with its allocator and resources. -/
structure LoweredTogether (s first : StageContext) (emulated : Bool) (head tail : Lowered) : Prop where
  tail_eq : s.lower emulated (s.beginLocalMemory (s.resources emulated)) {} secondParts = .ok tail
  head_eq : (first.feeding s).lower emulated ((first.feeding s).beginLocalMemory tail.resources) tail.ids
    firstParts = .ok head

theorem LoweredTogether.apart (h : LoweredTogether s first emulated head tail) :
    Lowered.Apart tail.ids head tail.ops := by
  have hem := (Guest.Program.lower_emitted (lower_ok h.head_eq)).emission
  exact ⟨Guest.Program.within_lower (lower_ok h.head_eq), Guest.Program.within_lower (lower_ok h.tail_eq),
    Nat.le_trans (Nat.le_add_right _ _) hem.le⟩

theorem LoweredTogether.opens (h : LoweredTogether s first emulated head tail) (hfst : first.Configured)
    (hstg : first.config.guestStage = .vertex) (hpass : first.config.geometryPassthrough = false) :
    ∃ initial, head.Opens initial := by
  have hdefines : (first.feeding s).config.definesOutputs := by
    change first.config.definesOutputs
    rw [Config.definesOutputs, hstg, hpass]
    rfl
  exact Configured.opens (hfst.mergeOutputs _ _) hdefines h.head_eq

/-- The programs share no temporaries and no labels, and the second one is unchanged but
for the loads of slots that the first one stores. In every run of the joined list a
return of the first program ends the run in the prologue and leads to the second
program behind it, and such a load gives the value of the last store to its slot that
was performed; behind a vertex program there is one. -/
theorem join_hands_over (hfirst : first.Configured) (h : LoweredTogether s first emulated head tail) :
    (∀ op ∈ head.ops, ∀ op' ∈ tail.ops, ∀ n,
        (.temp n ∈ op.operands → .temp n ∉ op'.operands) ∧ (.label n ∈ op.operands → .label n ∉ op'.operands)) ∧
      (∀ i op, tail.ops[i]? = some op → (∀ slot, Join.read? op = some slot → slot ∉ head.ops.filterMap Join.written?) →
          (head.join tail.ops).1[head.ops.length + 1 + i]? = some op) ∧
      ∀ (σ : Type u) (V : Type v) (M : Machine σ V) (t : σ) (k pc : Nat),
        let run := Flat.after M.toInterpretation (head.join tail.ops).1 t
        let last := fun slot => Flat.Last M.toInterpretation (head.join tail.ops).1 t (head.Stores slot) k
        (run k).1 = some pc → (∀ op, head.ops[pc]? = some op → op.inst = .ret →
            if pc < head.bodyStart then (run (k + 1)).1 = none
            else run (k + 2) = (some (head.ops.length + 1), (run k).2)) ∧
          ∀ i op slot, pc = head.ops.length + 1 + i → tail.ops[i]? = some op → Join.read? op = some slot →
            slot ∈ head.ops.filterMap Join.written? → (∃ n, (head.join tail.ops).1[pc]? = some (op.toCopy (.var n)) ∧
                ∀ j q store, last slot j q → head.ops[q]? = some store →
                  M.read (.var n) (run k).2 = M.read store.stored (run j).2 ∧
                  ∀ dest, op.dest = some dest → dest.isAssignable = true →
                    M.read dest (run (k + 1)).2 = M.read store.stored (run j).2) ∧
              (first.config.guestStage = .vertex → first.config.geometryPassthrough = false →
                ∃ j q, last slot j q) := by
  have hapart := h.apart
  refine ⟨fun op hop op' hop' n => ⟨fun hn hn' => ?_, fun hn hn' => ?_⟩, fun i op hop hother => ?_, ?_⟩
  · have := (hapart.first op hop _ hn).1
    have := (hapart.second op' hop' _ hn').2
    omega
  · have := (hapart.first op hop _ hn).1
    have := (hapart.second op' hop' _ hn').2
    omega
  · rw [Lowered.join_second, hop, Option.map_some, Join.carryLoad_of_not_mem hother]
  intro σ V M t k pc run last hplace
  refine ⟨fun op hop hret => Lowered.after_return hapart hplace hop hret, ?_⟩
  rintro i op slot rfl hop hread hmem
  obtain ⟨n, hcarrier⟩ : ∃ n, (Join.Bridge.ofReads tail.ops head.ids).carrier? slot = some (.var n) := by
    obtain ⟨o, ho⟩ := Option.isSome_iff_exists.1
      (Join.Bridge.isSome_carrier?.2 (List.mem_filterMap.2 ⟨op, List.mem_of_getElem? hop, hread⟩))
    obtain ⟨n, rfl⟩ := Join.Bridge.exists_var ho
    exact ⟨n, ho⟩
  refine ⟨⟨n, ?_, fun j q store hlast hstore => ?_⟩, fun hstage hpass => ?_⟩
  · rw [Lowered.join_second, hop, Option.map_some, Join.carryLoad_of_carrier hread hmem hcarrier]
  · have hvar := Lowered.read_carrier hcarrier hapart hlast hstore
    refine ⟨hvar, fun dest hdest hassignable => ?_⟩
    rw [← hvar]
    exact Lowered.read_carried hcarrier hplace hop hread hmem hdest hassignable
  · obtain ⟨initial, hopens⟩ := h.opens hfirst hstage hpass
    obtain ⟨q, store, hq, hwritten⟩ := Lowered.exists_stores hmem
    obtain ⟨hinst, hstorage⟩ := Join.inst_of_written? hwritten
    have hlength := hopens.starts.length_le
    exact hopens.exists_last (fun q op hop hstraight => Lowered.isStraight_first hop hstraight)
      (List.mem_of_getElem? hq) (by rw [hinst]; rfl) hstorage (Join.written?_eq_some_iff.1 hwritten).2 hplace
      (by omega)

def vertexStage (ops : List Guest.Op) : StageContext :=
  .ofProgram { blocks := [⟨0, ops.map fun op => { address := 0, op }⟩] } { stage := .vertex } default {}

def storing : StageContext := vertexStage [.mov ⟨0⟩ (.immediate 0x3f800000), .ast ⟨0⟩ 1 0x80 none none false, .exit]

def forwarding : StageContext :=
  vertexStage [.ald ⟨4⟩ 1 0x80 none none false false, .ast ⟨4⟩ 1 0xa0 none none false, .exit]

def forwardingTail : Lowered :=
  (forwarding.lower false (forwarding.beginLocalMemory (forwarding.resources false)) {} secondParts).toOption.get rfl

def storingHead : Lowered :=
  ((storing.feeding forwarding).lower false ((storing.feeding forwarding).beginLocalMemory forwardingTail.resources)
    forwardingTail.ids firstParts).toOption.get rfl

def zeroWorld : World := ⟨fun _ _ => 0, fun _ _ _ => 0⟩

theorem join_hands_over_storing :
    storing.Configured ∧ LoweredTogether forwarding storing false storingHead forwardingTail ∧
      ∃ j q store, storingHead.ops[q]? = some store ∧
        Flat.Last zeroWorld.machine.toInterpretation (storingHead.join forwardingTail.ops).1
          (fun _ => 0, fun _ => 0) (storingHead.Stores (0, 0)) 18 j q ∧
        zeroWorld.machine.read (.register ⟨4⟩) (Flat.after zeroWorld.machine.toInterpretation
            (storingHead.join forwardingTail.ops).1 (fun _ => 0, fun _ => 0) 19).2 =
          zeroWorld.machine.read store.stored (Flat.after zeroWorld.machine.toInterpretation
            (storingHead.join forwardingTail.ops).1 (fun _ => 0, fun _ => 0) j).2 := by
  have hconfigured : storing.Configured := .ofProgram ..
  have htogether : LoweredTogether forwarding storing false storingHead forwardingTail := ⟨rfl, rfl⟩
  obtain ⟨-, -, hruns⟩ := join_hands_over hconfigured htogether
  obtain ⟨-, hloads⟩ := hruns _ _ zeroWorld.machine (fun _ => 0, fun _ => 0) 18 18 (by decide +kernel)
  obtain ⟨⟨n, -, hvalue⟩, hexists⟩ := hloads 1 _ (0, 0) rfl rfl rfl (by decide +kernel)
  obtain ⟨j, q, hlast⟩ := hexists rfl rfl
  obtain ⟨store, hstore, -⟩ := hlast.mem
  exact ⟨hconfigured, htogether, j, q, store, hstore, hlast, (hvalue j q store hlast hstore).2 _ rfl rfl⟩

end StageContext
end ShaderRecompiler
