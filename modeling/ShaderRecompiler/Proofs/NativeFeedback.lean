import Mathlib.Data.List.Nodup
import Mathlib.Data.List.Range
import Mathlib.Tactic.IntervalCases
import ShaderRecompiler.Glsl.Source

/-! Outputs that the host captures. Declarations and accesses find out on their own how the
components of an output are spread over variables; both follow one split, in which every
component stands at the place in a buffer that the draw asks for. -/
namespace ShaderRecompiler

open List Attribute

open FeedbackBuffer (hole slot?)

variable {x : Context} {c : Nat}

namespace FeedbackBuffer

/-- The slot is the first of its buffer that captures the word, and no buffer before captures it. -/
structure First (buffers : List FeedbackBuffer) (word index slot : Nat) : Prop where
  captured : ∃ b, buffers[index]? = some b ∧ b.words.idxOf? word = some slot
  earlier : ∀ i < index, ∀ b, buffers[i]? = some b → word ∉ b.words

end FeedbackBuffer

namespace Capture

variable {location : Nat}

theorem ofWord?_of_first (hword : word ≠ hole) (h : FeedbackBuffer.First buffers word index slot) :
    ∃ stride, ofWord? buffers word = some ⟨index, slot * 4, stride⟩ := by
  obtain ⟨⟨b, hb, hslot⟩, hearl⟩ := h
  obtain ⟨hlt, hget⟩ := List.getElem?_eq_some_iff.1 hb
  refine ⟨b.stride, findSome?_eq_some_iff.2 ⟨buffers.zipIdx.take index, (b, index),
    buffers.zipIdx.drop (index + 1), ?_, by simp [slot?, hword, hslot], ?_⟩⟩
  · have hcons := drop_eq_getElem_cons (l := buffers.zipIdx) (i := index) (by simpa using hlt)
    rw [getElem_zipIdx, hget, Nat.zero_add] at hcons
    rw [← hcons, take_append_drop]
  · intro x hx
    obtain ⟨i, hi, rfl⟩ := mem_take_iff_getElem.1 hx
    have hwords := hearl i (by omega) _ (getElem?_eq_getElem (by simp at hi; omega))
    simp [slot?, hword, hwords]

theorem ofWord?_eq_none_iff (hword : word ≠ hole) : ofWord? buffers word = none ↔ ∀ b ∈ buffers, word ∉ b.words := by
  simp only [ofWord?, findSome?_eq_none_iff, Prod.forall, Option.map_eq_none_iff, slot?,
    if_neg hword, idxOf?_eq_none_iff, mem_zipIdx_iff_getElem?]
  constructor
  · intro h b hb
    obtain ⟨i, hi⟩ := mem_iff_getElem?.1 hb
    exact h b i hi
  · exact fun h b i hi => h b (mem_of_getElem? hi)

def userWord (location component : Nat) : Nat := userBase / 4 + location * 4 + component

theorem userWord_ne_hole (hloc : location < userLocations) (hcomp : component < 4) :
    userWord location component ≠ hole := by
  simp only [userWord, userBase, userLocations, hole] at *
  omega

theorem following_spec {prev : Capture} (h : i < following buffers location prev (range' first n)) :
    ∃ c, ofUser? buffers location (first + i) = some c ∧ c.buffer = prev.buffer ∧
      c.offset = prev.offset + 4 * (i + 1) := by
  induction n generalizing first prev i with
  | zero => cases h
  | succ n ih =>
    rw [range'_succ, following] at h
    split at h
    · cases h
    · next next hnext =>
      split at h
      · next hplc =>
        cases i with
        | zero => exact ⟨next, hnext, hplc.1, hplc.2⟩
        | succ i =>
          have hrest : i < following buffers location next (range' (first + 1) n) := by omega
          obtain ⟨c, hc, hbuf, hoff⟩ := ih hrest
          refine ⟨c, ?_, hbuf.trans hplc.1, by omega⟩
          rwa [Nat.add_right_comm] at hc
      · cases h

theorem following_le (prev : Capture) (rest : List Nat) : following buffers location prev rest ≤ rest.length := by
  induction rest generalizing prev with
  | nil => exact Nat.le_refl 0
  | cons component rest ih =>
    rw [following]
    split
    · exact Nat.zero_le _
    · next next _ =>
      have := ih next
      simp only [length_cons]
      split <;> omega

theorem run_spec (h : c < run buffers location 0) :
    ∃ first cap, ofUser? buffers location 0 = some first ∧ ofUser? buffers location c = some cap ∧
      cap.buffer = first.buffer ∧ cap.offset = first.offset + 4 * c := by
  unfold run at h
  split at h
  · cases h
  · next first hfst =>
    cases c with
    | zero => exact ⟨first, first, hfst, hfst, rfl, rfl⟩
    | succ i =>
      have hrest : i < following buffers location first (range' 1 3) := by
        rw [Nat.add_comm] at h
        exact Nat.lt_of_add_lt_add_left h
      obtain ⟨cap, hcap, hbuf, hoff⟩ := following_spec hrest
      exact ⟨first, cap, hfst, by rwa [Nat.add_comm] at hcap, hbuf, hoff⟩

theorem run_le : run buffers location 0 ≤ 4 := by
  unfold run
  split
  · exact Nat.zero_le _
  · next first _ =>
    have hle : following buffers location first ((range 4).drop (0 + 1)) ≤ 3 := following_le first _
    omega

end Capture

namespace Glsl

def swizzle (c : Nat) : String := swizzles.getD c ""

theorem swizzles_getElem? (h : c < 4) : swizzles[c]? = some (swizzle c) := by
  interval_cases c <;> rfl

/-- A variable of an output: components of a location that follow one another. -/
structure OutputVariable where
  location : Nat
  first : Nat
  width : Nat
  /-- Where the first component goes, if the variable is captured. -/
  capture : Option Capture
deriving DecidableEq, Repr

namespace OutputVariable

def components (v : OutputVariable) : List Nat := range' v.first v.width

/-- A vector is named for its location, a scalar for its component. -/
def name (v : OutputVariable) : String :=
  if 1 < v.width then s!"out_attr{v.location}" else s!"out_attr{v.location}_{swizzle v.first}"

def member (v : OutputVariable) (component : Nat) : String :=
  if 1 < v.width then s!"{v.name}.{swizzle (component - v.first)}" else v.name

def qualifier (v : OutputVariable) : String :=
  v.capture.elim "" fun capture => ", " ++ Context.captureQualifier capture

def declaration (v : OutputVariable) : String :=
  if 1 < v.width then s!"layout (location = {v.location}{v.qualifier}) out vec{v.width} {v.name};"
  else s!"layout (location = {v.location}, component = {v.first}{v.qualifier}) out float {v.name};"

/-- Components from `first` on, captured as the first of them is. -/
def ofRun (feedback : List FeedbackBuffer) (location first width : Nat) : OutputVariable :=
  { location, first, width, capture := Capture.ofUser? feedback location first }

/-- The leading run stands together if it is more than one component, and the others alone. -/
def split (feedback : List FeedbackBuffer) (location run : Nat) : List OutputVariable :=
  (if 1 < run then [ofRun feedback location 0 run] else []) ++
    ((range 4).drop (if 1 < run then run else 0)).map (ofRun feedback location · 1)

variable {feedback : List FeedbackBuffer} {location run : Nat}

theorem components_split (h : run ≤ 4) : (split feedback location run).flatMap components = [0, 1, 2, 3] := by
  unfold split
  interval_cases run <;> rfl

theorem mem_split (h : v ∈ split feedback location run) (hc : c ∈ v.components) :
    if 1 < run ∧ c < run then v = ofRun feedback location 0 run else v = ofRun feedback location c 1 := by
  obtain hv | hv := mem_append.1 h
  · split at hv
    · next hrun =>
      obtain rfl := mem_singleton.1 hv
      rw [if_pos ⟨hrun, by simpa [components, ofRun] using hc⟩]
    · cases hv
  · obtain ⟨first, hfst, rfl⟩ := mem_map.1 hv
    obtain rfl : c = first := by
      simpa [components, ofRun, mem_range'_1, Nat.lt_succ_iff, Nat.le_antisymm_iff, and_comm] using hc
    rw [if_neg]
    rintro ⟨hrun, hlt⟩
    rw [if_pos hrun, range_eq_range', drop_range', mem_range'_1] at hfst
    omega

theorem nodup_names : ((split feedback location run).map name).Nodup := by
  have hscalar : ∀ c, (ofRun feedback location c 1).name = s!"out_attr{location}" ++ ("_" ++ swizzle c) := by
    intro c
    simp only [name, ofRun, if_neg (Nat.lt_irrefl 1), toString, String.append_assoc]
  rw [split, map_append, map_map]
  refine nodup_append.2 ⟨?_, ?_, ?_⟩
  · split <;> simp
  · refine Nodup.map_on ?_ (nodup_range.sublist (drop_sublist _ _))
    intro c hc c' hc' heq
    simp only [Function.comp_apply, hscalar, String.append_right_inj] at heq
    have hswizzles : ∀ c < 4, ∀ c' < 4, swizzle c = swizzle c' → c = c' := by decide
    exact hswizzles c (mem_range.1 (mem_of_mem_drop hc)) c' (mem_range.1 (mem_of_mem_drop hc')) heq
  · intro a ha b hb heq
    obtain ⟨c, -, rfl⟩ := mem_map.1 hb
    split at ha
    · next hrun =>
      simp only [map_singleton, mem_singleton, name, ofRun, if_pos hrun] at ha
      rw [ha, Function.comp_apply, hscalar] at heq
      simp [String.ext_iff] at heq
    · cases ha

theorem lt_of_mem_split (hrun : run ≤ 4) (h : v ∈ split feedback location run) (hc : c ∈ v.components) : c < 4 := by
  have hmem : c ∈ (split feedback location run).flatMap components := mem_flatMap.2 ⟨v, h, hc⟩
  rw [components_split hrun] at hmem
  exact mem_range.1 hmem

theorem place_of_mem_split (h : v ∈ split feedback location (Capture.run feedback location 0)) (hc : c ∈ v.components) :
    (Capture.ofUser? feedback location c = none → v.capture = none) ∧
      ∀ cap, Capture.ofUser? feedback location c = some cap →
        ∃ first, v.capture = some first ∧ first.buffer = cap.buffer ∧
          first.offset + 4 * (c - v.first) = cap.offset := by
  have hv := mem_split h hc
  split at hv
  · next hrun =>
    obtain ⟨first, cap, hfst, hcap, hbuf, hoff⟩ := Capture.run_spec hrun.2
    subst hv
    rw [hcap]
    refine ⟨fun hnone => (by cases hnone), ?_⟩
    rintro _ ⟨⟩
    exact ⟨first, hfst, hbuf.symm, hoff.symm⟩
  · subst hv
    refine ⟨id, fun cap hcap => ⟨cap, hcap, rfl, ?_⟩⟩
    simp [ofRun]

end OutputVariable

open OutputVariable in
theorem Context.capturedLines_eq (x : Context) (location run : Nat) :
    x.capturedLines location run = (split x.config.feedback location run).map declaration := by
  have hplc : "layout (location = " = "layout (" ++ "location = " := by decide
  have hvector : " out_attr" = " " ++ "out_attr" := by decide
  have hscalar : ") out float out_attr" = ") out float " ++ "out_attr" := by decide
  unfold capturedLines split
  dsimp only
  rw [map_append, map_map]
  congr 1
  · split
    · next hrun =>
      simp only [map_singleton, declaration, qualifier, name, ofRun, if_pos hrun, hvector, toString,
        String.append_assoc]
    · rfl
  · refine map_congr_left fun _ _ => ?_
    simp only [Function.comp_apply, declaration, qualifier, name, ofRun, swizzle, if_neg (Nat.lt_irrefl 1), hplc,
      hscalar, toString, String.append_assoc]

/-- The host captures some component of the location. -/
structure Context.Captures (x : Context) (location : Nat) : Prop where
  location_lt : location < userLocations
  native : x.nativeFeedback
  captured : ∃ c < 4, ∃ b ∈ x.config.feedback, Capture.userWord location c ∈ b.words

theorem Context.Captures.run (h : x.Captures location) :
    x.capturedRun? location = some (Capture.run x.config.feedback location 0) := by
  obtain ⟨c, hc, b, hb, hword⟩ := h.captured
  have hsome : (Capture.ofUser? x.config.feedback location c).isSome := by
    rw [Option.isSome_iff_ne_none]
    intro hnone
    exact (Capture.ofWord?_eq_none_iff (Capture.userWord_ne_hole h.location_lt hc)).1 hnone b hb hword
  rw [capturedRun?, if_pos]
  rw [h.native, Bool.true_and, any_eq_true]
  exact ⟨c, mem_range.2 hc, hsome⟩

theorem Context.mem_outputLines (hnative : x.nativeFeedback)
    (hpln : x.features.outputIndexing = false) (hused : location ∈ Mask.below x.usage.outputs 32)
    (h : ∀ arrayed, line ∈ x.outputLine arrayed location) : line ∈ x.outputLines := by
  have hraster : x.config.stage.isPreRaster := by
    simp only [nativeFeedback, Bool.and_eq_true] at hnative
    exact hnative.1.1.1
  have hparagraph : ∀ lines : Lines, line ∈ lines → line ∈ lines.paragraph := by
    intro lines hline
    rw [Lines.paragraph, if_neg (by simpa using ne_nil_of_mem hline)]
    exact mem_append_left _ hline
  unfold outputLines
  apply hparagraph
  split
  · next hstg => simp [hstg, Stage.isPreRaster] at hraster
  · next hstg => simp [hstg, Stage.isPreRaster] at hraster
  · rw [hpln]
    exact mem_append_left _ (mem_append_left _ (mem_flatMap.2 ⟨location, hused, h _⟩))

namespace Scope

theorem capturedOutput_eq (hrun : run ≤ 4)
    (h : v ∈ OutputVariable.split feedback location run) (hc : c ∈ v.components) {component : Option Operand}
    (hcomp : component.elim (some 0) Operand.asNat? = some c) :
    capturedOutput location run component = .ok (v.member c) := by
  have hname := swizzles_getElem? (OutputVariable.lt_of_mem_split hrun h hc)
  have htext : capturedOutput location run component =
      .ok (if 1 < run ∧ c < run then s!"out_attr{location}.{swizzle c}"
        else s!"out_attr{location}_{swizzle c}") := by
    cases component with
    | none =>
      obtain rfl : 0 = c := by simpa using hcomp
      simp only [capturedOutput, pure_bind, hname]
      rfl
    | some o =>
      have ho : o.asNat? = some c := hcomp
      simp only [capturedOutput, ho, pure_bind, hname]
      rfl
  rw [htext]
  have hv := OutputVariable.mem_split h hc
  split at hv
  · next hin =>
    subst hv
    simp [OutputVariable.member, OutputVariable.name, OutputVariable.ofRun, hin, toString]
  · next hout =>
    subst hv
    simp [OutputVariable.member, OutputVariable.name, OutputVariable.ofRun, hout]

variable {s : Scope} {location : Nat}

theorem access_eq (hcaps : s.context.Captures location) (hpln : s.context.features.outputIndexing = false)
    (hv : v ∈ OutputVariable.split s.context.config.feedback location
      (Capture.run s.context.config.feedback location 0)) (hc : c ∈ v.components) {a : Access}
    (hio : a.io = .userDefined) (hloc : a.location? = some location)
    (hcomp : a.component.elim (some 0) Operand.asNat? = some c) :
    s.access .output a = (s.index a.vertex).map fun _ => v.member c := by
  have hlocated : (a.location?.filter fun _ => !s.context.indexes .output) = some location := by
    rw [hloc]
    simp [Context.indexes, Storage.isOutput, hpln]
  obtain ⟨suffix, hsuffix⟩ : ∃ suffix, s.componentSuffix a.component = .ok suffix := by
    have hlt := OutputVariable.lt_of_mem_split Capture.run_le hv hc
    cases hcase : a.component with
    | none => exact ⟨_, rfl⟩
    | some o =>
      rw [hcase] at hcomp
      have ho : o.asNat? = some c := hcomp
      simp only [componentSuffix, Option.bind_some, ho, swizzles_getElem? hlt]
      exact ⟨_, rfl⟩
  have hcap := capturedOutput_eq Capture.run_le hv hc hcomp
  simp only [access, hio, userAttribute, hsuffix, hlocated]
  cases s.index a.vertex with
  | error e => rfl
  | ok text =>
    simp only [Storage.isOutput, if_true, hcaps.run]
    exact hcap

/-- Where the host captures an output, the declared variables hold each of its components
once, a captured one at the first slot that asks for it and the others uncaptured, and an
access names the variable and the member that hold its component. -/
theorem captured_outputs_agree (hcaptures : s.context.Captures location)
    (hplain : s.context.features.outputIndexing = false) : ∃ declared : List OutputVariable,
      (∀ arrayed, s.context.outputLine arrayed location = declared.map OutputVariable.declaration) ∧
      (location ∈ Mask.below s.context.usage.outputs 32 → ∀ v ∈ declared, v.declaration ∈ s.context.outputLines) ∧
      (declared.map OutputVariable.name).Nodup ∧ declared.flatMap OutputVariable.components = [0, 1, 2, 3] ∧
      ∀ v ∈ declared, ∀ c ∈ v.components,
        (∀ index slot, FeedbackBuffer.First s.context.config.feedback (Capture.userWord location c) index slot →
          ∃ first, v.capture = some first ∧ first.buffer = index ∧ first.offset + 4 * (c - v.first) = 4 * slot) ∧
        ((∀ b ∈ s.context.config.feedback, Capture.userWord location c ∉ b.words) → v.capture = none) ∧
        ∀ a : Access, a.io = .userDefined → a.location? = some location →
          a.component.elim (some 0) Operand.asNat? = some c →
          s.access .output a = (s.index a.vertex).map fun _ => v.member c := by
  have hle : Capture.run s.context.config.feedback location 0 ≤ 4 := Capture.run_le
  have hlines : ∀ arrayed, s.context.outputLine arrayed location =
      (OutputVariable.split s.context.config.feedback location
        (Capture.run s.context.config.feedback location 0)).map OutputVariable.declaration := by
    intro arrayed
    rw [Context.outputLine, hcaptures.run]
    exact Context.capturedLines_eq ..
  refine ⟨_, hlines, ?_, OutputVariable.nodup_names, OutputVariable.components_split hle, ?_⟩
  · intro hused v hv
    refine Context.mem_outputLines hcaptures.native hplain hused fun arrayed => ?_
    rw [hlines]
    exact List.mem_map_of_mem hv
  · intro v hv c hc
    obtain ⟨hnone, hsome⟩ := OutputVariable.place_of_mem_split hv hc
    have hword := Capture.userWord_ne_hole hcaptures.location_lt (OutputVariable.lt_of_mem_split hle hv hc)
    refine ⟨fun index slot hfirst => ?_, fun hfree => hnone ((Capture.ofWord?_eq_none_iff hword).2 hfree), ?_⟩
    · obtain ⟨stride, hcap⟩ := Capture.ofWord?_of_first hword hfirst
      obtain ⟨first, hv, hbuffer, hoffset⟩ := hsome _ hcap
      exact ⟨first, hv, hbuffer, hoffset.trans (Nat.mul_comm ..)⟩
    · intro a hio hlocation hcomponent
      exact access_eq hcaptures hplain hv hc hio hlocation hcomponent

/-- A vertex stage whose first output is captured but for the third component. -/
def gappedCapture : Scope where
  context :=
    { config := { stage := .vertex, feedback := [⟨16, [0x20, 0x21, hole, 0x23]⟩] }
      resources := { stage := .vertex, api := .vulkan }
      usage := { outputs := 1 }
      features := {}
      capabilities := {}
      api := .vulkan
      debug := false }
  types := {}
  predeclared := []

/-- The second component is a member of a variable, four bytes into the buffer. -/
theorem captured_outputs_agree_gappedCapture : ∃ v : OutputVariable, v.declaration ∈ gappedCapture.context.outputLines ∧
    1 ∈ v.components ∧ (∃ first, v.capture = some first ∧ first.buffer = 0 ∧ first.offset + 4 * (1 - v.first) = 4 * 1) ∧
    gappedCapture.access .output ⟨.userDefined, some (.word 0), none, some (.word 1)⟩ = .ok (v.member 1) := by
  have hcaptures : gappedCapture.context.Captures 0 :=
    ⟨by decide, rfl, 0, by decide, _, List.mem_singleton.2 rfl, by decide⟩
  obtain ⟨declared, -, hprinted, -, hcomponents, hplaced⟩ := captured_outputs_agree hcaptures rfl
  obtain ⟨v, hv, hmem⟩ : ∃ v ∈ declared, 1 ∈ v.components := List.mem_flatMap.1 (by rw [hcomponents]; decide)
  obtain ⟨hcaptured, -, haccess⟩ := hplaced v hv 1 hmem
  refine ⟨v, hprinted (by decide) v hv, hmem, hcaptured 0 1 ⟨⟨_, rfl, by decide⟩, by simp⟩, ?_⟩
  exact haccess ⟨.userDefined, some (.word 0), none, some (.word 1)⟩ rfl rfl rfl

end Scope
end Glsl
end ShaderRecompiler
