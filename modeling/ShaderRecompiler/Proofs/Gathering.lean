import ShaderRecompiler.Lowering.Instruction
import ShaderRecompiler.Proofs.Evaluation

/-! Instructions that fill several registers. Attribute loads, memory loads, texture
samples and image loads are lowered word by word, and each word reads the registers
that select it when its turn comes. The register file is what the words make of it
one after the other; a word is the one that the file before the instruction selects
as long as no earlier word went into a register that the instruction reads. -/
namespace ShaderRecompiler

open List

variable {f : File} {op : Guest.Op} {address k : Nat} {vertex : Operand} {q : Register}

namespace Config

variable (c : Config) (storage : Storage)

/-- The words that name an access, as its sources do. -/
def accessWords (v : IoVariable) (location vertex component : UInt32) : List UInt32 :=
  [UInt32.ofNat v.number] ++ (if v.hasLocation then [location] else []) ++
    (if c.hasVertexIndex storage v then [vertex] else []) ++
    if v.hasComponent then [component] else []

def targetWords (vertex : UInt32) : Attribute.Target → List UInt32
  | .user location component =>
    c.accessWords storage .userDefined (.ofNat location) vertex (.ofNat component)
  | .builtin v component => c.accessWords storage v 0 vertex (.ofNat (component.getD 0))

/-- An invocation's own vertex where outputs are arrays. -/
def vertexWord (w : World) (f : File) : Option Register → UInt32
  | some r => f r
  | none =>
    if storage.isOutput && c.guestStage.hasArrayedOutputs then
      w.result .load .input [.ofNat IoVariable.invocationId.number]
    else 0

/-- What an attribute address selects, unless it names nothing. -/
def attributeWords (w : World) (address : Nat) (vertex offset : Option Register) (f : File) : Option (List UInt32) :=
  match offset with
  | some r =>
    let byte := f r + .ofNat address
    some (c.accessWords storage .userDefined ((byte >>> 4) - 8) (c.vertexWord storage w f vertex) ((byte >>> 2) &&& 3))
  | none => (Attribute.resolve address c.guestStage storage.isOutput storage.isPerPatch).map
      (c.targetWords storage (c.vertexWord storage w f vertex))

end Config

namespace Lowering

variable (w : World) (l : Lowering)

/-- An attribute that is not there is zero. -/
def attributeWord (storage : Storage) (address : Nat) (vertex offset : Option Register) (f : File) : UInt32 :=
  match l.config.attributeWords storage w address vertex offset f with
  | some words => w.result .load storage words
  | none => 0

/-- The storage behind a memory space and the words that name its block. -/
def spaceWords (r : Resources) : Guest.Space → Storage × List UInt32
  | .localMemory => (.localMemory, [.ofNat (r.currentLocal.getD 0)])
  | .sharedMemory => (.sharedMemory, [.ofNat (r.currentShared.getD 0)])
  | .global slot => (.storageBuffer, [.ofNat (r.useStorageBuffer slot).1, 0])

/-- The word of memory at `word` words from a byte address. -/
def memoryWord (space : Guest.Space) (base : Register) (offset : Int32) (word : Nat) (f : File) : UInt32 :=
  w.result .load (spaceWords l.resources space).1
    ((spaceWords l.resources space).2 ++ [(f base + wordOffset offset word) >>> 2])

/-- One word for each component in the mask. -/
def componentWords (dest : Register) (mask : UInt32) (inst : Nat → Instruction) (sources : List Register) :
    List (Register × (File → UInt32)) :=
  (Mask.below mask 4).zipIdx.map fun (component, n) =>
    (dest.after n, fun f => w.result (inst component) .none (sources.map f))

/-- The registers that an instruction fills, in order, each with the word that a
register file selects for it. -/
def words : Guest.Op → List (Register × (File → UInt32))
  | .ald dest count address vertex offset perPatch output =>
    (range count).map fun i =>
      (dest.after i, l.attributeWord w (attributeStorage output perPatch) (address + i * 4) vertex offset)
  | .ld dest count space base offset =>
    (range count).map fun i => (dest.after i, l.memoryWord w space base offset i)
  | .tex dest mask handle sampler coords lod fetch =>
    componentWords w dest mask (fun component => .textureSample
        { binding := (l.resources.useTexture ⟨handle, sampler, .f32⟩).1, sampler, intCoords := fetch,
          lod := lod.isSome, component, result := .f32 })
      (coords ++ lod.toList)
  | .suld dest mask handle sampler coords =>
    componentWords w dest mask (fun component => .imageLoad (l.imageOp handle sampler component)) coords
  | _ => []

end Lowering

namespace Guest.Op

/-- Loads and samples, which fill several registers. -/
def isGather : Op → Bool
  | ald .. | ld .. | tex .. | suld .. => true
  | _ => false

/-- The registers that select the words of a load or sample. -/
def selectors : Op → List Register
  | ald _ _ _ vertex offset _ _ => vertex.toList ++ offset.toList
  | ld _ _ _ base _ => [base]
  | tex _ _ _ _ coords lod _ => coords ++ lod.toList
  | suld _ _ _ _ coords => coords
  | _ => []

end Guest.Op

/-! Assigning words one after the other. -/

namespace File

/-- Each word is selected by the file that the words before it left. -/
def assignAll (f : File) (words : List (Register × (File → UInt32))) : File :=
  words.foldl (fun f word => f.assign word.1 (word.2 f)) f

theorem assign_self (hr : r.isRz = false) : f.assign r v r = v := by
  rw [assign, hr, if_neg Bool.false_ne_true, Function.update_self]

theorem assign_of_ne (h : r.isRz ∨ r ≠ q) : f.assign r v q = f q := by
  unfold assign
  split
  · rfl
  · next hr =>
    rcases h with h | h
    · exact absurd h hr
    · exact Function.update_of_ne h.symm _ _

theorem assignAll_append (words' : List (Register × (File → UInt32))) :
    f.assignAll (words ++ words') = (f.assignAll words).assignAll words' :=
  foldl_append

theorem assignAll_of_ne (h : ∀ word ∈ words, word.1.isRz ∨ word.1 ≠ q) : f.assignAll words q = f q := by
  induction words generalizing f with
  | nil => rfl
  | cons word words ih =>
    obtain ⟨hword, hwords⟩ := forall_mem_cons.1 h
    exact (ih hwords).trans (assign_of_ne hword)

theorem assignAll_getElem? (hk : words[k]? = some (r, select))
    (hr : r.isRz = false) (hlater : ∀ word ∈ words.drop (k + 1), word.1.isRz ∨ word.1 ≠ r) :
    f.assignAll words r = select (f.assignAll (words.take k)) := by
  obtain ⟨hk, hword⟩ := List.getElem?_eq_some_iff.1 hk
  have hspl : words = words.take k ++ (r, select) :: words.drop (k + 1) := by
    rw [← hword, ← drop_eq_getElem_cons hk, take_append_drop]
  calc f.assignAll words r = ((f.assignAll (words.take k)).assign r (select (f.assignAll (words.take k)))).assignAll
          (words.drop (k + 1)) r := by
        conv_lhs => rw [hspl, assignAll_append]
        rfl
    _ = select (f.assignAll (words.take k)) := by
        rw [assignAll_of_ne hlater, assign_self hr]

end File

theorem Register.toNat_after {r : Register} (h : (r.after n).isRz = false) :
    (r.after n).index.toNat = r.index.toNat + n := by
  unfold after at h ⊢
  split at h
  · simp [isRz] at h
  · next hfits =>
    have hlt : r.index.toNat + n < 255 := by simp at hfits; omega
    rw [if_neg hfits]
    exact Nat.mod_eq_of_lt (by omega)

theorem Register.after_ne (r : Register) (hij : i ≠ j) (hi : (r.after i).isRz = false) : r.after j ≠ r.after i := by
  intro heq
  have hidx : (r.after j).index.toNat = (r.after i).index.toNat := by rw [heq]
  rw [toNat_after hi, toNat_after (heq ▸ hi)] at hidx
  omega

namespace Lowering

variable {l : Lowering}

theorem exists_dest (w : World) (l : Lowering) (op : Guest.Op) :
    ∃ dest : Register, ∀ k word, (l.words w op)[k]? = some word → word.1 = dest.after k := by
  cases op with
  | ald dest | ld dest =>
    refine ⟨dest, fun k word hk => ?_⟩
    rw [words, getElem?_map] at hk
    obtain ⟨i, hi, rfl⟩ := Option.map_eq_some_iff.1 hk
    obtain ⟨-, rfl⟩ := List.getElem?_eq_some_iff.1 hi
    rw [getElem_range]
  | tex dest | suld dest =>
    refine ⟨dest, fun k word hk => ?_⟩
    rw [words, componentWords, getElem?_map, getElem?_zipIdx] at hk
    obtain ⟨i, hi, rfl⟩ := Option.map_eq_some_iff.1 hk
    obtain ⟨component, -, rfl⟩ := Option.map_eq_some_iff.1 hi
    rw [Nat.zero_add]
  | _ => exact ⟨default, by simp [words]⟩

theorem ne_of_mem_drop (hk : (l.words w op)[k]? = some word)
    (hword : word.1.isRz = false) (hlater : later ∈ (l.words w op).drop (k + 1)) : later.1 ≠ word.1 := by
  obtain ⟨dest, hdest⟩ := exists_dest w l op
  obtain ⟨j, hj⟩ := mem_iff_getElem?.1 hlater
  rw [getElem?_drop] at hj
  rw [hdest k word hk] at hword ⊢
  rw [hdest _ later hj]
  exact dest.after_ne (by omega) hword

theorem attributeWord_congr {vertex offset : Option Register} (h : ∀ r ∈ vertex.toList ++ offset.toList, f r = g r) :
    l.attributeWord w storage address vertex offset f = l.attributeWord w storage address vertex offset g := by
  have hvtx : l.config.vertexWord storage w f vertex = l.config.vertexWord storage w g vertex := by
    cases vertex with
    | none => rfl
    | some r => exact h r (by simp)
  have hwords : l.config.attributeWords storage w address vertex offset f =
      l.config.attributeWords storage w address vertex offset g := by
    cases offset with
    | none => simp only [Config.attributeWords, hvtx]
    | some r => simp only [Config.attributeWords, hvtx, h r (by simp)]
  rw [attributeWord, attributeWord, hwords]

theorem select_congr (hword : word ∈ l.words w op) (h : ∀ r ∈ op.selectors, f r = g r) : word.2 f = word.2 g := by
  cases op with
  | ald =>
    obtain ⟨i, -, rfl⟩ := mem_map.1 hword
    exact attributeWord_congr h
  | ld =>
    obtain ⟨i, -, rfl⟩ := mem_map.1 hword
    simp only [memoryWord, h _ (mem_singleton_self _)]
  | tex | suld =>
    obtain ⟨i, -, rfl⟩ := mem_map.1 hword
    exact congrArg (w.result _ .none) (map_congr_left h)
  | _ => cases hword

end Lowering

/-! What is lowered assigns the words. -/

namespace Emit.Runs

variable {w : World} {c : Config}

theorem map {β : Type} {g : α → β} {R : β → Emitter → Valuation → Prop}
    (h : Runs w m e s fun a => R (g a)) : Runs w (g <$> m) e s R := h

theorem forM {xs : List α}
    (h : ∀ x e s, Runs w (body x) e s fun _ _ s' => s'.file = s.file.assign (word x).1 ((word x).2 s.file)) :
    Runs w (xs.forM body) e s fun _ _ s' => s'.file = s.file.assignAll (xs.map word) := by
  induction xs generalizing e s with
  | nil => exact .pure rfl
  | cons x xs ih =>
    refine .bind (h x e s) fun _ _ s' hs => ih.mono fun _ _ _ hs' => ?_
    rw [hs', hs]
    rfl

theorem accessSources {v : IoVariable}
    (hloc : Means w e s location x) (hvtx : Means w e s vertex y) (hcomp : Means w e s component z) :
    Forall₂ (Means w e s) (c.accessSources storage v location vertex component)
      (c.accessWords storage v x y z) := by
  unfold Config.accessSources Config.accessWords
  refine rel_append (rel_append (rel_append (.cons (means_constant ..) .nil) ?_) ?_) ?_
  · split
    · exact .cons hloc .nil
    · exact .nil
  · split
    · exact .cons hvtx .nil
    · exact .nil
  · split
    · exact .cons hcomp .nil
    · exact .nil

theorem accessVertex (vertex : Option Register) : Runs w (c.accessVertex storage vertex) e s fun a e' s' =>
      Onward e s e' s' ∧ Means w e' s' a (c.vertexWord storage w s.file vertex) := by
  cases vertex with
  | some r => exact .pure ⟨.refl e s, means_register w e s r⟩
  | none =>
    unfold Config.accessVertex Config.vertexWord
    dsimp only
    split
    · exact load (.cons (means_constant ..) .nil)
    · exact .pure ⟨.refl e s, means_constant ..⟩

theorem indexedSources {offset : Operand} (hvtx : Means w e s vertex y) (hoff : Means w e s offset z) :
    Runs w (c.indexedSources storage address vertex offset) e s fun sources e' s' =>
      Onward e s e' s' ∧ Forall₂ (Means w e' s') sources
        (c.accessWords storage .userDefined (((z + .ofNat address) >>> 4) - 8) y
          (((z + .ofNat address) >>> 2) &&& 3)) := by
  refine .bind (binary hoff (means_constant ..)) fun byte e₁ s₁ ⟨h₁, hbyte⟩ => ?_
  refine .bind (binary hbyte (means_constant ..)) fun row e₂ s₂ ⟨h₂, hrow⟩ => ?_
  refine .bind (binary hrow (means_constant ..)) fun location e₃ s₃ ⟨h₃, hloc⟩ => ?_
  refine .bind (binary ((hbyte.mono h₂).mono h₃) (means_constant ..)) fun word e₄ s₄ ⟨h₄, hword⟩ => ?_
  refine .bind (binary hword (means_constant ..)) fun component e₅ s₅ ⟨h₅, hcomp⟩ => ?_
  have honw := ((h₁.trans h₂).trans (h₃.trans h₄)).trans h₅
  exact .pure ⟨honw, accessSources ((hloc.mono h₄).mono h₅) (hvtx.mono honw) hcomp⟩

theorem attributeSources (address : Nat) (vertex offset : Option Register) :
    Runs w (c.attributeSources storage address vertex offset) e s fun sources e' s' =>
      Onward e s e' s' ∧ Option.Rel (Forall₂ (Means w e' s')) sources
        (c.attributeWords storage w address vertex offset s.file) := by
  refine .bind (accessVertex vertex) fun v e₁ s₁ ⟨h₁, hv⟩ => ?_
  cases offset with
  | some r =>
    have hr := means_register w e₁ s₁ r
    rw [h₁.file_eq] at hr
    exact .map ((indexedSources hv hr).mono fun _ _ _ ⟨h₂, hsrc⟩ => ⟨h₁.trans h₂, .some hsrc⟩)
  | none =>
    refine .pure ⟨h₁, ?_⟩
    rw [Config.attributeWords]
    cases Attribute.resolve address c.guestStage storage.isOutput storage.isPerPatch with
    | none => exact .none
    | some target =>
      refine .some ?_
      cases target with
      | user location component => exact accessSources (means_constant ..) hv (means_constant ..)
      | builtin v component => exact accessSources (means_constant ..) hv (means_constant ..)

end Emit.Runs

namespace Lowering

open Emit

variable {w : World} {l : Lowering} {e : Emitter} {s : Valuation}

theorem runs_loadAttribute (storage : Storage) (address : Nat) (vertex offset : Option Register) :
    Runs w (l.loadAttribute dest storage address vertex offset) e s fun _ _ s' =>
      s'.file = s.file.assign dest (l.attributeWord w storage address vertex offset s.file) := by
  refine .bind (.destination dest) fun d e₁ s₁ ⟨h₁, hd⟩ => ?_
  refine .bind (.attributeSources address vertex offset) fun sources e₂ s₂ ⟨h₂, hsrc⟩ => ?_
  unfold attributeWord
  rw [h₁.file_eq] at hsrc
  rw [← (h₁.trans h₂).file_eq] at hsrc ⊢
  generalize l.config.attributeWords storage w address vertex offset s₂.file = words at hsrc ⊢
  cases hsrc with
  | none => exact .assign hd (.cons (means_constant w e₂ s₂ 0) .nil)
  | some h => exact .assign hd h

theorem runs_wordIndex (base : Register) (bytes : UInt32) : Runs w (wordIndex base bytes) e s fun a e' s' =>
      Onward e s e' s' ∧ Means w e' s' a ((s.file base + bytes) >>> 2) := by
  unfold wordIndex
  split
  · next hrz =>
    have hzero : s.file base = 0 := if_pos hrz
    rw [hzero, UInt32.zero_add]
    exact .pure ⟨.refl e s, means_constant ..⟩
  · refine .bind (.binary (means_register w e s base) (means_constant ..)) fun byte e₁ s₁ ⟨h₁, hbyte⟩ => ?_
    exact (Runs.binary hbyte (means_constant ..)).mono fun _ _ _ ⟨h₂, hword⟩ => ⟨h₁.trans h₂, hword⟩

theorem means_spaceBlock (space : Guest.Space) : (spaceBlock l.resources space).1 = (spaceWords l.resources space).1 ∧
      Forall₂ (Means w e s) (spaceBlock l.resources space).2 (spaceWords l.resources space).2 := by
  cases space with
  | localMemory | sharedMemory => exact ⟨rfl, .cons (means_constant ..) .nil⟩
  | global slot => exact ⟨rfl, .cons (means_constant ..) (.cons (means_constant ..) .nil)⟩

theorem runs_loadWord (space : Guest.Space) (base : Register) (offset : Int32) (word : Nat) :
    Runs w (l.loadWord dest space base offset word) e s fun _ _ s' =>
      s'.file = s.file.assign (dest.after word) (l.memoryWord w space base offset word s.file) := by
  unfold loadWord
  refine .bind (runs_wordIndex base _) fun index e₁ s₁ ⟨h₁, hidx⟩ => ?_
  refine .bind (.destination _) fun d e₂ s₂ ⟨h₂, hd⟩ => ?_
  obtain ⟨hstor, hblk⟩ := means_spaceBlock (w := w) (l := l) (e := e₂) (s := s₂) space
  have hsrc : Forall₂ (Means w e₂ s₂) ((spaceBlock l.resources space).2 ++ [index])
      ((spaceWords l.resources space).2 ++ [(s.file base + wordOffset offset word) >>> 2]) :=
    rel_append hblk (.cons (hidx.mono h₂) .nil)
  rw [memoryWord, ← hstor, ← (h₁.trans h₂).file_eq]
  rw [← (h₁.trans h₂).file_eq] at hsrc
  exact .assign hd hsrc

theorem runs_components (mask : UInt32) (sources : List Register)
    (hinst : ∀ n words, w.compute (inst n) .none words = w.result (inst n) .none words) :
    Runs w (components dest mask inst (sources.map Register.operand)) e s fun _ _ s' =>
      s'.file = s.file.assignAll (componentWords w dest mask inst sources) := by
  refine Runs.forM fun (component, n) e s => ?_
  refine .bind (.destination _) fun d e₁ s₁ ⟨h₁, hd⟩ => ?_
  have hsrc : Forall₂ (Means w e₁ s₁) (sources.map Register.operand) (sources.map s₁.file) := by
    rw [forall₂_map_left_iff, forall₂_map_right_iff]
    exact forall₂_same.2 fun r _ => means_register w e₁ s₁ r
  dsimp only
  rw [← hinst, ← h₁.file_eq]
  exact .assign hd hsrc

theorem runs_gather (h : op.isGather) :
    Runs w (l.op op) e s fun _ _ s' => s'.file = s.file.assignAll (l.words w op) := by
  cases op with
  | ald dest count address vertex offset perPatch output =>
    exact Runs.forM fun i e s => runs_loadAttribute _ _ vertex offset
  | ld dest count space base offset => exact Runs.forM fun i e s => runs_loadWord space base offset i
  | tex dest mask handle sampler coords lod fetch => exact runs_components mask _ fun _ _ => rfl
  | suld dest mask handle sampler coords => exact runs_components mask coords fun _ _ => rfl
  | _ => cases h

/-- Loads and samples fill their registers in turn. A word is selected by the file
that the words before it left, so it is the one that the file before the instruction
selects where none of them went into a selector. -/
theorem gather_in_turn (w : World) (l : Lowering) (op : Guest.Op) (hop : op.isGather = true) (ids : Ids)
    (s : Valuation) :
    (w.run ((l.op op).run { ids }).2.ops.toList s).file = s.file.assignAll (l.words w op) ∧
      ∀ k r select, (l.words w op)[k]? = some (r, select) → r.isRz = false →
        (w.run ((l.op op).run { ids }).2.ops.toList s).file r = select (s.file.assignAll ((l.words w op).take k)) ∧
          ((∀ word ∈ (l.words w op).take k, word.1.isRz = true ∨ word.1 ∉ op.selectors) →
            (w.run ((l.op op).run { ids }).2.ops.toList s).file r = select s.file) := by
  have hfile := (runs_gather (l := l) (e := { ids }) (w := w) (s := s) hop).of_fresh
  rw [hfile]
  refine ⟨rfl, fun k r select hk hr => ?_⟩
  have hword : s.file.assignAll (l.words w op) r = select (s.file.assignAll ((l.words w op).take k)) :=
    File.assignAll_getElem? hk hr fun later hlater => .inr (ne_of_mem_drop hk hr hlater)
  refine ⟨hword, fun hselectors => hword.trans (select_congr (List.mem_of_getElem? hk) fun q hq => ?_)⟩
  apply File.assignAll_of_ne
  intro word hmem
  exact (hselectors word hmem).imp_right fun hnot heq => hnot (heq ▸ hq)

/-- Two words of a buffer whose address is in the first register that they fill. -/
def overlappingLoad : Guest.Op := .ld ⟨0⟩ 2 (.global 0) ⟨0⟩ 0

def plainCompute : Lowering where
  config := { stage := .compute }
  resources := { stage := .compute, api := .openGl }
  emulatesFeedback := false
  outputs := 0
  layerInput := none
  labels := []
  writesEpilogue := true

/-- Memory whose words are eight more than their index. -/
def risingMemory : World := ⟨fun _ _ => 0, fun _ _ words => words.getLastD 0 + 8⟩

theorem gather_in_turn_overlappingLoad : overlappingLoad.isGather = true ∧
      (risingMemory.run ((plainCompute.op overlappingLoad).run {}).2.ops.toList fun _ => 0).file ⟨1⟩ =
        plainCompute.memoryWord risingMemory (.global 0) ⟨0⟩ 0 1
          ((Valuation.file fun _ => 0).assignAll ((plainCompute.words risingMemory overlappingLoad).take 1)) :=
  ⟨rfl, ((gather_in_turn risingMemory plainCompute overlappingLoad rfl {} fun _ => 0).2 1 ⟨1⟩ _ rfl rfl).1⟩

/-- The second word is not the one that the file before the instruction selects. -/
theorem overlappingLoad_misses :
    (plainCompute.words risingMemory overlappingLoad)[1]?.map (fun word => (word.1, word.2 fun _ => 0)) =
        some (⟨1⟩, 9) ∧
      (risingMemory.run ((plainCompute.op overlappingLoad).run {}).2.ops.toList fun _ => 0).file ⟨1⟩ = 11 := by
  constructor <;> decide +kernel

end Lowering
end ShaderRecompiler
