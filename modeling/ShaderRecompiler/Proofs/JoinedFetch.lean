import ShaderRecompiler.Proofs.Compiling
import ShaderRecompiler.Proofs.Coverage
import ShaderRecompiler.Proofs.JoinedRecord

/-! Two vertex stages compiled as one dispatch. The operations of both fit what they
declare together, so compiling them can fail at the structure of the flow or at an access
that has no text, as for one stage. Vertex buffers are declared for the inputs of the
second stage, though: one that only the first stage fetches from is missing. -/
namespace ShaderRecompiler

open List Operation Attribute Resources VertexEmulation Mask Option

variable {head : Lowered} {component location : Nat} {op : Operation} {r : Routine}

/-! More declarations and inputs leave operations fitting. -/

/-- What `x` allows, `y` allows. -/
structure Setting.Extends (x y : Setting) : Prop where
  stage : y.config.guestStage = x.config.guestStage
  resources : x.resources.Extends y.resources
  inputs : below x.inputs userLocations ⊆ below y.inputs userLocations
  patch : x.indexesPatch → y.indexesPatch
  undeclared : ∀ n, x.undeclared n → y.undeclared n

theorem Operation.Fits.mono {x y : Setting} (hop : op.Fits x) (h : x.Extends y) : op.Fits y where
  toChecked := hop.toChecked.mono h.stage h.resources
  writable := hop.writable
  labelled := hop.labelled
  values := hop.values
  access hinst hio := by
    obtain ⟨v, location, vertex, component, rest, hsrc, hallows⟩ := hop.access hinst hio
    refine ⟨v, location, vertex, component, rest, ?_, hallows.color, fun hv hp => ?_, hallows.output, ?_⟩
    · rwa [Config.accessSources_congr h.stage]
    · exact (hallows.patch hv hp).imp_right h.patch
    · intro hv hinp hvtx n hn
      exact h.inputs (hallows.input hv hinp (h.stage ▸ hvtx) n hn)
  texture t ht := (hop.texture t ht).imp (isSome_texture?_mono h.resources) (h.undeclared t.binding)
  image i hi := isSome_image?_mono h.resources (hop.image i hi)

/-! The joined list. -/

namespace Join

theorem fits_copy {dest a : Operand} (hdest : dest.isWritable) (ha : a.isLabel = false) :
    Operation.Fits x ⟨.copy, .none, some dest, [a]⟩ := by
  refine .plain rfl rfl rfl ?_ (by simpa using ha)
  rintro _ ⟨⟩
  exact hdest

theorem fits_carryStore (h : op.Fits x) : (carryStore b op).Fits x := by
  obtain hsame | ⟨slot, o, hslot, hcarr, hcopy⟩ := carryStore_cases b op
  · rwa [hsame]
  · obtain ⟨n, rfl⟩ := Bridge.exists_var hcarr
    have hvals := h.values
    rw [values_of_straight (by rw [(inst_of_written? hslot).1]; rfl)] at hvals
    rw [hcopy]
    refine fits_copy rfl ?_
    unfold stored
    cases hlast : op.sources.getLast? with
    | none => rfl
    | some o => exact hvals o (mem_of_getLast? hlast)

theorem fits_carryLoad (h : op.Fits x) (stored : List (Nat × Nat)) : (carryLoad b stored op).Fits x := by
  obtain hsame | ⟨hload, n, hcopy⟩ := carryLoad_cases b stored op
  · rwa [hsame]
  · have hdest := h.dest
    rw [hload] at hdest
    obtain ⟨dest, hdest⟩ := isSome_iff_exists.1 hdest
    rw [hcopy, toCopy, hdest]
    exact fits_copy (h.writable dest hdest) rfl

theorem label_carryStore : (carryStore b op).marks = op.marks ∧ (carryStore b op).targets = op.targets := by
  obtain hsame | ⟨slot, o, hslot, -, hcopy⟩ := carryStore_cases b op
  · rw [hsame]
    exact ⟨rfl, rfl⟩
  · have hstr : op.inst.isStraight := by rw [(inst_of_written? hslot).1]; rfl
    rw [hcopy, marks_eq_nil hstr, targets_eq_nil hstr]
    exact ⟨rfl, rfl⟩

theorem label_carryLoad (stored : List (Nat × Nat)) :
    (carryLoad b stored op).marks = op.marks ∧ (carryLoad b stored op).targets = op.targets := by
  obtain hsame | ⟨hload, n, hcopy⟩ := carryLoad_cases b stored op
  · rw [hsame]
    exact ⟨rfl, rfl⟩
  · have hstr : op.inst.isStraight := by rw [hload]; rfl
    rw [hcopy, marks_eq_nil hstr, targets_eq_nil hstr]
    exact ⟨rfl, rfl⟩

theorem marks_continueAt {label : Operand} : (continueAt label bodyStart index op).marks = op.marks := by
  unfold continueAt
  split
  · next h => rw [marks, marks, if_neg (by simp), if_neg (by simp [h.1])]
  · rfl

theorem targets_continueAt : (continueAt (.label n) bodyStart index op).targets ⊆ n :: op.targets := by
  unfold continueAt
  split
  · exact cons_subset_cons n (nil_subset _)
  · exact subset_cons_self n _

theorem fits_continueAt (h : op.Fits x) (n bodyStart index : Nat) :
    (continueAt (.label n) bodyStart index op).Fits x := by
  unfold continueAt
  split
  · exact .branch n
  · exact h

/-- A generic input that is read from a constant place has its location among the inputs. -/
theorem read?_spec (h : op.Fits x) (hguest : x.config.guestStage = .vertex)
    (hread : read? op = some slot) : op.isLoad .input ∧ op.ioVariable? = some .userDefined ∧
      op.place? 1 = some slot.1 ∧ op.place? 2 = some slot.2 ∧
      slot.1 ∈ below x.inputs userLocations := by
  unfold read? at hread
  split at hread
  · next hload =>
    unfold userSlot? at hread
    split at hread
    · next hv =>
      obtain ⟨location, hloc, hread⟩ := bind_eq_some_iff.1 hread
      obtain ⟨index, hidx, hread⟩ := bind_eq_some_iff.1 hread
      obtain ⟨component, hcomp, hslot⟩ := bind_eq_some_iff.1 hread
      obtain rfl := some.inj hslot
      obtain ⟨hinst, hstor⟩ := isLoad_eq hload
      -- The component is the last of three sources, as no vertex is named.
      have hcnt := h.elementSources_load hinst
      simp only [Check.elementSources, hstor, Check.ioSources, hv, Config.hasVertexIndex, hguest] at hcnt
      have hlen : op.sources.length = 3 := (Except.ok.inj hcnt).symm
      have hsnd : index = 2 := by
        rw [componentIndex?, hinst, hlen] at hidx
        exact (some.inj hidx).symm
      exact ⟨hload, hv, hloc, hsnd ▸ hcomp, h.mem_inputs hload hguest hv hloc⟩
    · cases hread
  · cases hread

end Join

namespace Emission

theorem of_map {α : Type} {xs : List α} {f g : α → Operation} (h : Emission P opens closes first last (xs.map f))
    (hall : ∀ a, P (f a) → P (g a)) (hmarks : ∀ a, (g a).marks = (f a).marks)
    (htgts : ∀ a, (g a).targets ⊆ opens' ++ (f a).targets) (hopens : opens ⊆ opens') :
    Emission P opens' closes first last (xs.map g) := by
  have hsame : (xs.map g).flatMap Operation.marks = (xs.map f).flatMap Operation.marks := by
    simp only [List.flatMap_def, List.map_map, Function.comp_def, hmarks]
  refine ⟨h.le, fun op hop => ?_, ?_, fun l hl => ?_⟩
  · obtain ⟨a, ha, rfl⟩ := List.mem_map.1 hop
    exact hall a (h.all _ (List.mem_map_of_mem ha))
  · rw [hsame]
    exact h.marks
  · rw [hsame]
    obtain ⟨op, hop, hl⟩ := List.mem_flatMap.1 hl
    obtain ⟨a, ha, rfl⟩ := List.mem_map.1 hop
    obtain hopen | hl := List.mem_append.1 (htgts a hl)
    · exact .inr hopen
    · exact (h.targets l (List.mem_flatMap.2 ⟨f a, List.mem_map_of_mem ha, hl⟩)).imp_right (hopens ·)

theorem close (h : Emission P [n] closes first last added)
    (hn : n ∈ added.flatMap Operation.marks) : Emission P [] closes first last added where
  le := h.le
  all := h.all
  marks := h.marks
  targets l hl := .inl ((h.targets l hl).elim id fun hopen => mem_singleton.1 hopen ▸ hn)

theorem reorder (h : Emission P opens closes first last added)
    (hperm : added.Perm added') : Emission P opens closes first last added' where
  le := h.le
  all op hop := h.all op (hperm.mem_iff.2 hop)
  marks := by
    obtain ⟨own, hnodup, hown, hmarks⟩ := h.marks
    exact ⟨own, hnodup, hown, (hperm.flatMap_right _).symm.trans hmarks⟩
  targets l hl := by
    rw [← (hperm.flatMap_right _).mem_iff] at hl ⊢
    exact h.targets l hl

end Emission

namespace Lowered

variable {x : Setting} {second : List Operation} {ids : Ids}

/-- The operations of two programs in a row fit, and their labels are in order. The label
between the programs is the next one after those of the first. -/
theorem emission_join (hhead : Emission (Operation.Fits x) [] [] ids.labels head.ids.labels head.ops)
    (hsnd : Emission (Operation.Fits x) [] [] 0 ids.labels second) :
    Emission (Operation.Fits x) [] [] 0 (head.ids.labels + 1) (head.join second).1 := by
  have hfirst : Emission (Operation.Fits x) [head.ids.labels] [] ids.labels head.ids.labels
      (head.ops.zipIdx.map fun p => Join.continueAt (.label head.ids.labels) head.bodyStart p.2
        (Join.carryStore (.ofReads second head.ids) p.1)) := by
    rw [← List.zipIdx_map_fst 0 head.ops] at hhead
    refine hhead.of_map (fun p hp => Join.fits_continueAt (Join.fits_carryStore hp) _ _ _) (fun p => ?_) (fun p => ?_)
      (List.nil_subset _)
    · rw [Join.marks_continueAt, Join.label_carryStore.1]
    · have htgts : _ = p.1.targets := (Join.label_carryStore (b := .ofReads second head.ids)).2
      rw [← htgts]
      exact Join.targets_continueAt
  have hthen : Emission (Operation.Fits x) [head.ids.labels] [] 0 ids.labels
      (second.map (Join.carryLoad (.ofReads second head.ids) (head.ops.filterMap Join.written?))) := by
    rw [← List.map_id second] at hsnd
    refine hsnd.of_map (fun op hop => Join.fits_carryLoad hop _) (fun op => (Join.label_carryLoad _).1)
      (fun op => ?_) (List.nil_subset _)
    rw [(Join.label_carryLoad _).2]
    exact List.subset_append_right _ _
  have hmark : Emission (Operation.Fits x) [head.ids.labels] [] head.ids.labels (head.ids.labels + 1)
      [.marking head.ids.labels] := by
    refine ⟨Nat.le_succ _, List.forall_mem_singleton.2 (.markLabel _), ?_, fun _ hl => absurd hl (List.not_mem_nil)⟩
    exact ⟨[head.ids.labels], by simp, by simp, by simp⟩
  -- Labels were taken for the second program first.
  refine (((hthen.append hfirst).append hmark).close (by simp)).reorder ?_
  rw [List.append_assoc]
  exact List.perm_append_comm.trans (by simp [join, Ids.freshLabel, Operation.marking])

end Lowered

/-! Fetches. -/

namespace Emit

variable {α : Type} {P : Operation → Prop} {m : Emit α} {f : α → Emit β}

/-- Whatever was emitted before, `m` emits an operation as in `P`. -/
def Performs (m : Emit α) (P : Operation → Prop) : Prop := ∀ e : Emitter, ∃ op ∈ (m.run e).2.ops.toList, P op

theorem Performs.value {inst : Instruction} {sources : List Operand}
    (h : ∀ dest, P ⟨inst, .none, some dest, sources⟩) : (value inst sources).Performs P :=
  fun _ => ⟨_, Array.mem_toList_iff.2 Array.mem_push_self, h _⟩

theorem Performs.after (h : ∀ a, (f a).Performs P) : (m >>= f).Performs P :=
  fun e => h (m.run e).1 (m.run e).2

theorem Performs.before (h : m.Performs P) (hf : ∀ a, Appends 0 Q (f a) fun _ => True) : (m >>= f).Performs P := by
  intro e
  obtain ⟨op, hop, hP⟩ := h e
  obtain ⟨-, -, added, hadd, -⟩ := hf (m.run e).1 (m.run e).2 (Nat.zero_le _)
  exact ⟨op, hadd ▸ mem_append_left _ hop, hP⟩

end Emit

/-- Samples the texture with the given binding. -/
def Operation.FetchesFrom (binding : Nat) (op : Operation) : Prop :=
  op.dest.isSome ∧ ∃ t, op.inst = .textureSample t ∧ t.binding = binding

namespace VertexEmulation

open Emit

theorem performs_userInput (e : VertexEmulation) (location component : Nat) : (e.userInput location component).Performs
      (FetchesFrom (e.context.resources.reservations.vertexBuffer location)) := by
  have hfetch : ∀ component element, (e.fetch location component element).Performs
      (FetchesFrom (e.context.resources.reservations.vertexBuffer location)) :=
    fun _ _ => .value fun _ => ⟨rfl, _, rfl, rfl⟩
  unfold userInput
  split
  · refine .after fun element => (hfetch component element).before (Q := fun _ => True) fun value => ?_
    refine .ite (fun _ => ?_) fun _ => .pure trivial
    refine .bind (.value fun _ _ => trivial) fun _ _ => .bind (.value fun _ _ => trivial) fun _ _ => ?_
    refine .ite (fun _ => .bind (.value fun _ _ => trivial) fun _ _ => ?_) fun _ => .pure trivial
    exact (Appends.value fun _ _ => trivial).mono fun _ _ => trivial
  · refine .after fun element => (hfetch 0 element).before (Q := fun _ => True) fun value => ?_
    refine .ite (fun _ => .pure trivial) fun _ => .bind (.load fun _ _ => trivial) fun _ _ => ?_
    exact (Appends.value fun _ _ => trivial).mono fun _ _ => trivial

theorem expandInput_eq {dest : Operand} (e : VertexEmulation)
    (hdest : op.dest = some dest) (hv : op.ioVariable? = some .userDefined) (hloc : op.place? 1 = some location)
    (hcomp : op.place? 2 = some component) :
    e.expandInput op = replaceInput dest (e.userInput location component) := by
  simp only [expandInput, hdest, hv, hloc, hcomp]

end VertexEmulation

/-- A generic input that is loaded from a constant place is fetched from its vertex buffer. -/
theorem Routine.exists_fetch_vertex {x : PassContext} {features : Features}
    (hguest : x.config.guestStage = .vertex) (hfeat : features.emulated)
    {vertexRate instanceRate : Nat} (hm : x.resources.emulation = some (.vertex 0 vertexRate instanceRate))
    (hlink : r.WellLinked) (hop : op ∈ r.code b) (hload : op.isLoad .input) {dest : Operand}
    (hdest : op.dest = some dest) (hv : op.ioVariable? = some .userDefined)
    (hloc : op.place? 1 = some location) (hcomp : op.place? 2 = some component) :
    ∃ fetch ∈ (r.runPasses x features).routine.code b,
      fetch.FetchesFrom (x.resources.reservations.vertexBuffer location) := by
  obtain ⟨hlink', sources, hset, hsrc⟩ := exists_settled (x := x) hlink hop
  have hresp := (emulates_expansion hm).respects hm rfl 0
  obtain ⟨-, -, -, hcode, -⟩ := expand_spec hlink' (Nat.zero_le _) hresp
  obtain ⟨ids, -, hpiece⟩ := (hcode b).exists_piece hset
  have hexp : expansion x { op with sources } = replaceInput dest
      (userInput ⟨x, vertexRate, instanceRate⟩ location component) := by
    have hplc := place?_settle hsrc
    rw [(expansion_of_load hm hload : expansion x { op with sources } = _)]
    refine expandInput_eq _ hdest ?_ ((hplc 1).trans hloc) ((hplc 2).trans hcomp)
    rwa [ioVariable?, hplc]
  obtain ⟨fetch, hfetch, hfrom⟩ := (performs_userInput ⟨x, vertexRate, instanceRate⟩ location
    component).before (f := fun v => do Emit.copy dest v; return Verdict.drop) (Q := fun _ => True)
    (fun _ => .bind (.op trivial) fun _ _ => .pure trivial) { ids }
  rw [(runPasses_vertex hguest hfeat).1]
  refine ⟨fetch, hpiece ?_, hfrom⟩
  rw [Expansion.piece, hexp]
  exact mem_append_left _ hfetch

/-! What both stages declare. -/

namespace Resources

theorem find?_addNew_of_ne (binding : α → Nat) (h : binding item ≠ n)
    (items : List α) : (addNew binding item items).find? (binding · == n) = items.find? (binding · == n) := by
  unfold addNew
  split
  · rfl
  · simp [h]

/-- Reserved textures are left alone. -/
structure Spares (r r' : Resources) : Prop where
  reservations : r'.reservations = r.reservations
  texture? : ∀ n < r.reservations.textures, r'.texture? n = r.texture? n

theorem Spares.refl (r : Resources) : r.Spares r := ⟨rfl, fun _ _ => rfl⟩

theorem Spares.trans {r r'' : Resources} (h : r.Spares r') (h' : r'.Spares r'') : r.Spares r'' :=
  ⟨h'.reservations.trans h.reservations, fun n hn =>
    (h'.texture? n (h.reservations.symm ▸ hn)).trans (h.texture? n hn)⟩

theorem spares_useTexture (r : Resources) (h : TextureHandle) : r.Spares (r.useTexture h).2 := by
  refine ⟨rfl, fun n _ => ?_⟩
  have hne : r.reservations.textures + r.guestTextures.idxOf h ≠ n := by omega
  unfold texture? useTexture
  exact find?_addNew_of_ne Texture.binding hne r.textures

theorem spares_beginLocalMemory (r : Resources) (bytes : Nat) (used : Bool) :
    r.Spares (r.beginLocalMemory bytes used) := by
  unfold beginLocalMemory
  split <;> exact ⟨rfl, fun _ _ => rfl⟩

end Resources

namespace Guest

theorem Op.spares_declare (op : Op) (r : Resources) :
    r.Spares (op.declare r) ∧ (op.declare r).localMemories = r.localMemories := by
  cases op with
  | tex => exact ⟨r.spares_useTexture _, rfl⟩
  | suld | sust => exact ⟨⟨rfl, fun _ _ => rfl⟩, rfl⟩
  | ld _ count space | st _ count space =>
    cases space with
    | «global» slot =>
      simp only [Op.declare]
      split
      · exact ⟨.refl r, rfl⟩
      · unfold useStorageBuffer
        dsimp only
        split <;> exact ⟨⟨rfl, fun _ _ => rfl⟩, rfl⟩
    | _ => exact ⟨.refl r, rfl⟩
  | _ => exact ⟨.refl r, rfl⟩

theorem Program.spares_declare (p : Program) (r : Resources) :
    r.Spares (p.declare r) ∧ (p.declare r).localMemories = r.localMemories := by
  unfold declare
  generalize p.ops = ops
  induction ops generalizing r with
  | nil => exact ⟨.refl r, rfl⟩
  | cons op ops ih =>
    obtain ⟨hspares, hmems⟩ := op.spares_declare r
    obtain ⟨hspares', hmems'⟩ := ih (op.declare r)
    exact ⟨hspares.trans hspares', hmems'.trans hmems⟩

end Guest

theorem Resources.Extends.binding_lt {r : Resources} (h : r.Extends r')
    (hlt : ∀ b ∈ r'.storageBuffers, b.binding < bound) : ∀ b ∈ r.storageBuffers, b.binding < bound := by
  intro b hb
  obtain ⟨b', hb'⟩ : ∃ b', r.storageBuffer? b.binding = some b' :=
    isSome_iff_exists.1 (find?_isSome.2 ⟨b, hb, BEq.rfl⟩)
  have hbind : (b'.binding == b.binding) :=
    find?_some (p := fun b' : Buffer => b'.binding == b.binding) hb'
  rw [← beq_iff_eq.1 hbind]
  exact hlt b' (mem_of_find?_eq_some (h.storageBuffer hb'))

namespace StageContext

variable {s first : StageContext} {tail : Lowered}

theorem inputs_mergeOutputs (u : AttributeUsage) (geometryPassthrough : Bool) (mask : UInt32) (patches : List Nat) :
    (u.mergeOutputs geometryPassthrough mask patches).inputs = u.inputs := by
  cases geometryPassthrough <;> rfl

theorem Configured.inputs_eq (h : s.Configured) :
    s.usage.attributes.inputs = (s.program.usage s.config.stage).attributes.inputs := by
  induction h with
  | ofProgram => rfl
  | setNext _ _ ih | mergeOutputs _ _ _ ih => exact (inputs_mergeOutputs ..).trans ih
  | setLast _ ih | setLayerOutput _ _ ih | setLayerInput _ _ ih | setVertex _ _ ih | progress _ _ ih => exact ih

theorem prepared_second (hstage : s.config.stage = .vertex) :
    (s.beginLocalMemory (s.resources emulated)).Prepared s.usage.attributes.inputs := by
  have hprep := s.prepared_prepared emulated
  rwa [prepared, beginSharedMemory, if_neg (by simp [hstage])] at hprep

theorem length_beginLocalMemory (s : StageContext) (r : Resources) :
    (s.beginLocalMemory r).localMemories.length ≤ r.localMemories.length + 1 := by
  unfold beginLocalMemory Resources.beginLocalMemory
  split <;> simp

theorem LoweredTogether.prepared_first (h : LoweredTogether s first emulated head tail)
    (hstage : s.config.stage = .vertex) :
    ((first.feeding s).beginLocalMemory tail.resources).Prepared s.usage.attributes.inputs := by
  have htail : tail.resources = s.program.declare (s.beginLocalMemory (s.resources emulated)) :=
    resources_of_lower h.tail_eq
  have hsnd : (s.beginLocalMemory (s.resources emulated)).Prepared s.usage.attributes.inputs :=
    prepared_second hstage
  have hprep := (hsnd.declare s.program).1
  rw [← htail] at hprep
  have hext := extends_beginLocalMemory tail.resources (first.feeding s).program.localMemorySize
    (first.feeding s).usage.features.localMemory
  have hlen : tail.resources.localMemories.length ≤ 5 := by
    rw [htail, (s.program.spares_declare _).2]
    exact Nat.le_trans (length_beginLocalMemory ..) (Nat.succ_le_succ (s.memories_resources emulated).1)
  refine ⟨hprep.toProvides.mono hext, hprep.toNumbered.beginLocalMemory _ _,
    localMemory_beginLocalMemory (Nat.lt_of_le_of_lt hlen (by decide)) _ _, fun id hid => ?_⟩
  rw [beginLocalMemory, (shared_beginLocalMemory _ _).2] at hid
  exact (hprep.sharedMemory id hid).mono hext

theorem textures_bareResources (s : StageContext) (emulated : Bool) : (s.bareResources emulated).textures = [] := by
  have hfb := (s.reservations_reservationsFor emulated).2
  unfold bareResources
  dsimp only
  split
  · next hhost =>
    rw [addFeedback_eq (hfb.trans hhost)]
    rfl
  · rfl

theorem LoweredTogether.isSome_texture?_iff (h : LoweredTogether s first true head tail)
    (hstage : s.config.stage = .vertex) (hloc : location < userLocations) :
    (head.resources.texture? (s.reservations.vertexBuffer location)).isSome ↔
      location ∈ below s.usage.attributes.inputs userLocations := by
  have htail : tail.resources = _ := resources_of_lower h.tail_eq
  have hhead : head.resources = _ := resources_of_lower h.head_eq
  have hspares : (s.resources true).Spares head.resources := by
    rw [hhead, htail]
    exact ((spares_beginLocalMemory ..).trans (Guest.Program.spares_declare ..).1).trans
      ((spares_beginLocalMemory ..).trans (Guest.Program.spares_declare ..).1)
  obtain ⟨textures, heq, hfound⟩ :=
    (s.bareResources true).addEmulation_vertex (s.configFor true) s.usage.attributes.inputs
  have hres : (s.resources true).reservations = s.reservations := (s.resources_vertex hstage).1
  have hbind : ∀ n, s.reservations.vertexBuffer n = 1 + n := fun _ => rfl
  have hlt : s.reservations.vertexBuffer location < (s.resources true).reservations.textures := by
    rw [hres, hbind]
    have htexs : s.reservations.textures = 34 := rfl
    have hbound : userLocations = 16 := rfl
    omega
  have hbare : (s.bareResources true).reservations = s.reservations := s.reservations_bareResources true
  have htexs : (s.resources true).texture? (s.reservations.vertexBuffer location) =
      textures.find? (·.binding == s.reservations.vertexBuffer location) := by
    rw [resources_eq, if_pos rfl, hstage, heq]
    rfl
  rw [hspares.texture? _ hlt, htexs, hfound, texture?, textures_bareResources, hbare]
  simp only [find?_nil, isSome_none, Reservations.indexBuffer, hbind]
  simp

/-- Vertex buffers that only the first stage fetches from. -/
def Unfetched (s first : StageContext) (binding : Nat) : Prop :=
  ∃ location ∈ below first.usage.attributes.inputs userLocations,
    location ∉ below s.usage.attributes.inputs userLocations ∧ binding = s.reservations.vertexBuffer location

/-- Some instruction of either program accesses a patch at a computed location. -/
def IndexPatch (s first : StageContext) : Prop :=
  ∃ op ∈ s.program.ops ++ first.program.ops, op.indexesPatch

/-- What the operations of two stages have to fit together. -/
def joinedSetting (s first : StageContext) (resources : Resources) : Setting where
  config := s.configFor true
  resources := resources
  inputs := s.usage.attributes.inputs ||| first.usage.attributes.inputs
  indexesPatch := s.IndexPatch first
  undeclared := s.Unfetched first

theorem mem_below_or : n ∈ below (a ||| b) bound ↔ n ∈ below a bound ∨ n ∈ below b bound := by
  simp only [mem_below, test, UInt32.toNat_or, Nat.testBit_or, Bool.or_eq_true, and_or_left]

def joinedResources (s first : StageContext) : Resources :=
  first.program.declare ((first.feeding s).beginLocalMemory
    (s.program.declare (s.beginLocalMemory (s.resources true))))

theorem LoweredTogether.resources_eq (h : LoweredTogether s first true head tail) :
    head.resources = s.joinedResources first := by
  have htail : tail.resources = _ := resources_of_lower h.tail_eq
  have hhead : head.resources = _ := resources_of_lower h.head_eq
  rw [hhead, htail]
  rfl

/-- What compiling two vertex stages as one dispatch can fail with. -/
inductive JoinError (s first : StageContext) : CompileError → Prop
  | spent : s.progress.isSpent → JoinError s first (.spent s.progress)
  | expected {e : CompileError} : CompileError.Expected s.options.strict (s.IndexPatch first) e → JoinError s first e
  | undeclared {location : Nat} : location ∈ below first.usage.attributes.inputs userLocations →
      location ∉ below s.usage.attributes.inputs userLocations →
      JoinError s first (.glsl (.undeclared .texture (s.reservations.vertexBuffer location)))

theorem admits_joinError (s first : StageContext) (resources : Resources) :
    Compilation.Admits (s.JoinError first) s.options.strict (s.joinedSetting first resources) := by
  refine ⟨fun e => .expected (.structuring e), fun h access => .expected (.unresolved access h),
    fun h => .expected (.patchLocation h), ?_⟩
  rintro _ ⟨location, hfirst, hsnd, rfl⟩
  exact .undeclared hfirst hsnd

section Together

variable (hs : s.Configured) (hfirst : first.Configured) (hstage : s.config.stage = .vertex)
  (hguest : first.config.guestStage = s.config.guestStage)
  (hnodup : s.program.addresses.Nodup ∧ first.program.addresses.Nodup)
  (hcoordinates : ∀ op ∈ s.program.ops ++ first.program.ops, op.hasCoordinates)
  (hfit : ∀ b ∈ (s.joinedResources first).storageBuffers, b.binding < 2 ^ 32)
  (h : LoweredTogether s first true head tail)
include hs hfirst hstage hguest hnodup hcoordinates hfit h

theorem LoweredTogether.fits : head.resources.Provides s.usage.attributes.inputs ∧
    Emission (Operation.Fits (s.joinedSetting first head.resources)) [] [] 0 (head.ids.labels + 1)
      (head.join tail.ops).1 := by
  rw [← h.resources_eq] at hfit
  have hext := h.extends_tail
  have hfed : (first.feeding s).usage.attributes.inputs = first.usage.attributes.inputs := inputs_mergeOutputs ..
  obtain ⟨-, -, htail⟩ := fits_lower (D := s.IndexPatch first) (prepared_second hstage) h.tail_eq hs.inputs_eq hnodup.1
    (fun op hop => hcoordinates op (mem_append_left _ hop))
    (fun op hop hpat => ⟨op, mem_append_left _ hop, hpat⟩) (hext.binding_lt hfit)
  obtain ⟨hprov, -, hhead⟩ := fits_lower (D := s.IndexPatch first) (h.prepared_first hstage) h.head_eq
    (hfirst.mergeOutputs _ _).inputs_eq hnodup.2 (fun op hop => hcoordinates op (mem_append_right _ hop))
    (fun op hop hpat => ⟨op, mem_append_right _ hop, hpat⟩) hfit
  rw [hfed] at hhead
  refine ⟨hprov, Lowered.emission_join
    (hhead.imp fun op hop => hop.mono ⟨hguest.symm, .refl _, ?_, id, fun _ h => h.elim⟩)
    (htail.imp fun op hop => hop.mono ⟨rfl, hext, ?_, id, fun _ h => h.elim⟩)⟩
  · exact fun _ hn => mem_below_or.2 (.inr hn)
  · exact fun _ hn => mem_below_or.2 (.inl hn)

theorem LoweredTogether.failsOnly_compileLowered :
    FailsOnly (s.JoinError first) (s.compileLowered (first.feeding s) true head tail).result := by
  obtain ⟨hprov, hem⟩ := h.fits hs hfirst hstage hguest hnodup hcoordinates hfit
  have hres : head.resources.reservations = s.reservations :=
    h.extends_resources.reservations.trans (s.resources_vertex hstage).1
  have hfetch : (s.joinedSetting first head.resources).Fetches := by
    intro d v i he location hloc
    by_cases hsnd : location ∈ below s.usage.attributes.inputs userLocations
    · exact .inl (hprov.fetch d v i he location hsnd)
    · exact .inr ⟨location, (mem_below_or.1 hloc).resolve_left hsnd, hsnd,
        congrArg (Reservations.vertexBuffer · location) hres⟩
  rw [← h.resources_eq] at hfit
  refine Compilation.failsOnly_compile hprov hfetch ?_ hem (s.admits_joinError first head.resources) _ _
  simp

end Together

def joinedCompilation (s first : StageContext) (head : Lowered) : Compilation where
  config := s.configFor true
  attributes := s.usage.attributes.inherit (first.feeding s).usage.attributes
  host := s.host
  options := s.options
  clipDistances := s.usage.clipDistances ||| (first.feeding s).usage.clipDistances
  resources := head.resources

theorem LoweredTogether.compile_eq (h : LoweredTogether s first true head tail)
    (hok : (s.compileWith first true).1.result = .ok shader) :
    ((s.joinedCompilation first head).compile (head.join tail.ops).1 (head.join tail.ops).2
      (s.joinedFeatures first head tail)).result = .ok shader := by
  unfold compileWith at hok
  split at hok
  · cases hok
  · dsimp only at hok
    rw [h.tail_eq] at hok
    dsimp only [compileAfter] at hok
    rw [h.head_eq] at hok
    exact hok

theorem LoweredTogether.sameEnd (h : LoweredTogether s first true head tail) (hstage : s.config.stage = .vertex)
    (hguest : s.config.guestStage = .vertex)
    (hr : Routine.ofOperations (head.join tail.ops).1 (head.join tail.ops).2 = .ok r) (b : Nat) :
    SameEnd (r.code b) ((s.joinedPassed first head tail r).routine.code b) := by
  obtain ⟨-, hemu, -⟩ := s.resources_vertex hstage
  rw [← h.extends_resources.emulation] at hemu
  have hlink := Routine.WellLinked.ofOperations hr
  have hem := Pass.emulate_vertex (x := ⟨s.configFor true, head.resources, s.host⟩) hemu
  rw [← Pass.enabled_vertex (s.emulated_joinedFeatures first head tail), ← hguest] at hem
  obtain ⟨-, hturns, -⟩ := Routine.runPasses_spec
    (fun pass hpass => hem.respects pass hpass r.ids.temps) hlink (Nat.le_refl _)
  obtain ⟨parts, hparts⟩ := (hturns b).exists_parts
  have hpln := (Routine.Closed.ofOperations hr).plain hlink b
  rw [joinedPassed, ← hparts.new_eq, ← hparts.old_eq]
  rw [← hparts.old_eq] at hpln
  exact sameEnd_of_becomes (fun p hp => hem.becomes (hparts.turns p hp)) hpln

/-- Two vertex stages are compiled as one dispatch, which declares the vertex buffers of the inputs
that the second stage reads, and no others. A generic input that is loaded in the joined program is
fetched from its vertex buffer after the passes, whichever stage loads it. So besides what a single
stage fails with, there is the vertex buffer of an input that only the first stage reads: compiling
fails if such an input is loaded, and it fails for no other missing declaration. -/
theorem compileWith_failsOnly_undeclared (hs : s.Configured) (hfirst : first.Configured)
    (hstage : s.config.stage = .vertex) (hguest : s.config.guestStage = .vertex)
    (hguest' : first.config.guestStage = .vertex)
    (hnodup : s.program.addresses.Nodup ∧ first.program.addresses.Nodup)
    (hcoordinates : ∀ op ∈ s.program.ops ++ first.program.ops, op.hasCoordinates = true)
    (hfit : ∀ b ∈ (s.joinedResources first).storageBuffers, b.binding < 2 ^ 32) :
    FailsOnly (s.JoinError first) (s.compileWith first true).1.result ∧
    ∀ head tail r, LoweredTogether s first true head tail →
      Routine.ofOperations (head.join tail.ops).1 (head.join tail.ops).2 = .ok r →
      ∀ b, ∀ op ∈ r.code b, ∀ location component, Join.read? op = some (location, component) →
        (∃ fetch ∈ (s.joinedPassed first head tail r).routine.code b,
          fetch.FetchesFrom (s.reservations.vertexBuffer location)) ∧
        ((head.resources.texture? (s.reservations.vertexBuffer location)).isSome = true ↔
          location ∈ Mask.below s.usage.attributes.inputs Attribute.userLocations) ∧
        ∀ shader, (s.compileWith first true).1.result = .ok shader →
          location ∈ Mask.below s.usage.attributes.inputs Attribute.userLocations := by
  have hsame : first.config.guestStage = s.config.guestStage := hguest'.trans hguest.symm
  constructor
  · unfold compileWith
    split
    · next hspent => exact .error (.spent hspent)
    dsimp only
    cases htail : s.lower true (s.beginLocalMemory (s.resources true)) {} secondParts with
    | error e => exact .error (failsOnly_lower (fun e => .expected (.lowering e)) e htail)
    | ok tail =>
      dsimp only [compileAfter]
      cases hhead : (first.feeding s).lower true ((first.feeding s).beginLocalMemory tail.resources) tail.ids
          firstParts with
      | error e => exact .error (failsOnly_lower (fun e => .expected (.lowering e)) e hhead)
      | ok head =>
        exact LoweredTogether.failsOnly_compileLowered hs hfirst hstage hsame hnodup hcoordinates hfit ⟨htail, hhead⟩
  · intro head tail r h hr b op hop location component hread
    obtain ⟨-, hemission⟩ := h.fits hs hfirst hstage hsame hnodup hcoordinates hfit
    have hfits := hemission.all op (Routine.mem_code_ofOperations hr hop)
    obtain ⟨hload, hv, hlocation, hcomponent, hinput⟩ := Join.read?_spec hfits hguest hread
    obtain ⟨hreservations, hemulation, -⟩ := s.resources_vertex hstage
    rw [← h.extends_resources.reservations] at hreservations
    rw [← h.extends_resources.emulation] at hemulation
    have hdest := hfits.dest
    rw [(Operation.isLoad_eq hload).1] at hdest
    obtain ⟨dest, hdest⟩ := Option.isSome_iff_exists.1 hdest
    have hdeclared := h.isSome_texture?_iff hstage (Mask.mem_below.1 hinput).1
    obtain ⟨fetch, hfetch, hfrom⟩ := Routine.exists_fetch_vertex (x := ⟨s.configFor true, head.resources, s.host⟩)
      hguest (s.emulated_joinedFeatures first head tail) hemulation (.ofOperations hr) hop hload hdest hv hlocation
      hcomponent
    rw [hreservations] at hfrom
    refine ⟨⟨fetch, hfetch, hfrom⟩, hdeclared, fun shader hok => hdeclared.1 ?_⟩
    have hassembled : Assembled (head.join tail.ops).1 (head.join tail.ops).2 :=
      .joined (lower_ok h.tail_eq) (lower_ok h.head_eq)
    obtain ⟨scope, htextures, htext⟩ := Compilation.exists_operation_of_compile (c := s.joinedCompilation first head)
      hassembled hr (h.sameEnd hstage hguest hr) (h.compile_eq hok)
    obtain ⟨hassigns, t, ht, hbinding⟩ := hfrom
    obtain ⟨text, htext⟩ := htext b fetch hfetch (by rw [ht]; rfl)
    obtain ⟨dest, hdest⟩ := Option.isSome_iff_exists.1 hassigns
    have hfound := Glsl.Scope.isSome_texture? htext ht hdest
    rw [Resources.texture?, htextures, hbinding] at hfound
    exact hfound

/-- Puts a generic input into the position. -/
def fetching : StageContext :=
  vertexStage [.ald ⟨0⟩ 1 0x90 none none false false, .ast ⟨0⟩ 1 0x70 none none false, .exit]

def fetchingHead : Lowered :=
  ((fetching.feeding exiting).lower true ((fetching.feeding exiting).beginLocalMemory emulatedTail.resources)
    emulatedTail.ids firstParts).toOption.get (by decide +kernel)

def fetchingRoutine : Routine :=
  (Routine.ofOperations (fetchingHead.join emulatedTail.ops).1 (fetchingHead.join emulatedTail.ops).2).toOption.get
    (by decide +kernel)

theorem result_fetching : (exiting.compileWith fetching true).1.result =
      .error (.glsl (.undeclared .texture (exiting.reservations.vertexBuffer 1))) := by
  have hfails : (match (exiting.compileWith fetching true).1.result with
      | .error (.glsl (.undeclared .texture 2)) => true
      | _ => false) = true := by decide +kernel
  split at hfails
  · next hres => exact hres
  · cases hfails

theorem compileWith_failsOnly_undeclared_fetching :
    exiting.JoinError fetching (.glsl (.undeclared .texture (exiting.reservations.vertexBuffer 1))) ∧
      (∃ fetch ∈ (exiting.joinedPassed fetching fetchingHead emulatedTail fetchingRoutine).routine.code 5,
        fetch.FetchesFrom (exiting.reservations.vertexBuffer 1)) ∧
      fetchingHead.resources.texture? (exiting.reservations.vertexBuffer 1) = none := by
  have hexiting : exiting.Configured := .ofProgram ..
  have hfetching : fetching.Configured := .ofProgram ..
  have htogether : LoweredTogether exiting fetching true fetchingHead emulatedTail := ⟨eq_ok_get _, eq_ok_get _⟩
  have hroutine : Routine.ofOperations (fetchingHead.join emulatedTail.ops).1 (fetchingHead.join emulatedTail.ops).2 =
      .ok fetchingRoutine := eq_ok_get _
  have hload : ∃ op ∈ fetchingRoutine.code 5, Join.read? op = some (1, 0) := by decide +kernel
  obtain ⟨hexpected, hfetches⟩ := compileWith_failsOnly_undeclared hexiting hfetching rfl rfl rfl
    (by decide) (by decide) (by decide)
  obtain ⟨op, hop, hread⟩ := hload
  obtain ⟨hfetch, hdeclared, -⟩ := hfetches _ _ _ htogether hroutine 5 op hop 1 0 hread
  exact ⟨hexpected _ result_fetching, hfetch, Option.not_isSome_iff_eq_none.1 (mt hdeclared.1 (by decide))⟩

/-- Both programs are well-formed, yet the vertex buffer of the input is missing. -/
theorem fetching_undeclared : exiting.program.addresses.Nodup ∧ fetching.program.addresses.Nodup ∧
      (∀ op ∈ exiting.program.ops ++ fetching.program.ops, op.hasCoordinates = true) ∧
      (exiting.compileWith fetching true).1.result = .error (.glsl (.undeclared .texture 2)) :=
  ⟨by decide, by decide, by decide, result_fetching⟩

end StageContext
end ShaderRecompiler
