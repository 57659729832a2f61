import Std.Data.String.ToNat
import ShaderRecompiler.Glsl.Source
import ShaderRecompiler.Proofs.Arena

/-! Declarations at the head of the main function. Each line declares one name; names of different
kinds start with different letters and those of one kind end in different numbers, so that no name
is declared twice, under another type neither. -/
namespace ShaderRecompiler

open List

theorem Ascending.mem_ofList : k ∈ ofList members ↔ k ∈ members := by
  simp [ofList, mem_union]

theorem Ascending.nodup_ofList (members : List Nat) : (ofList members).Nodup :=
  (pairwise_ofList members).imp Nat.ne_of_lt

/-- Registers, predicates and variables, except the constant ones. -/
def Operand.isVariable : Operand → Bool
  | register r => !r.isRz
  | predicate p => !p.isPt
  | var _ => true
  | _ => false

namespace Glsl

def Value.declaration (v : Value) : String := s!"{v.type.scalar} {v.text};"

/-- The line declares the name, under whatever type. -/
def declares (name line : String) : Bool :=
  [ValueType.bool, .s32, .u32, .f32].any fun type => line == (Value.mk name type).declaration

/-! Names. -/

theorem head?_append (ha : a ≠ "") (x : String) : (a ++ x).toList.head? = a.toList.head? := by
  rw [String.toList_append, head?_append_of_ne_nil]
  simpa using ha

theorem text_eq_of_declaration {v w : Value} (h : v.declaration = w.declaration) : v.text = w.text := by
  have hhead : v.type.scalar.toList.head? = w.type.scalar.toList.head? := by
    have hheads := congrArg (fun line => line.toList.head?) h
    simp only [Value.declaration, String.append_assoc, toString] at hheads
    rwa [head?_append (by cases v.type <;> decide), head?_append (by cases w.type <;> decide)] at hheads
  have htype : v.type = w.type := by
    revert hhead
    cases v.type <;> cases w.type <;> decide
  unfold Value.declaration at h
  rw [htype] at h
  exact (String.append_right_inj _).1 ((String.append_left_inj _).1 h)

theorem declares_declaration (v : Value) (name : String) : declares name v.declaration = (v.text == name) := by
  rw [Bool.eq_iff_iff]
  simp only [declares, any_eq_true, beq_iff_eq]
  constructor
  · rintro ⟨type, -, heq⟩
    exact text_eq_of_declaration heq
  · rintro rfl
    exact ⟨v.type, by cases v.type <;> decide, rfl⟩

theorem nodup_names (letters : String) {xs : List Nat} (h : xs.Nodup) :
    (xs.map fun n => letters ++ toString n).Nodup :=
  h.map fun _ _ heq => Nat.repr_injective ((String.append_right_inj _).1 heq)

theorem disjoint_names {a b : String} (hne : a.toList.head? ≠ b.toList.head?) (ha : a ≠ "") (hb : b ≠ "")
    (xs ys : List Nat) : List.Disjoint (xs.map fun n => a ++ toString n) (ys.map fun n => b ++ toString n) := by
  intro name hx hy
  obtain ⟨x, -, rfl⟩ := mem_map.1 hx
  obtain ⟨y, -, heq⟩ := mem_map.1 hy
  have hheads := congrArg (fun name => name.toList.head?) heq
  simp only [head?_append ha, head?_append hb] at hheads
  exact hne hheads.symm

namespace Scope

variable {s : Scope} {r : Routine} {o : Operand}

/-- What the main function declares, in the order of the lines. -/
def locals (s : Scope) (r : Routine) : List Value :=
  (declared r registerNumber?).map (fun n => ⟨"r" ++ toString n, .u32⟩) ++
    (declared r predicateNumber?).map (fun n => ⟨"p" ++ toString n, .bool⟩) ++
    (declared r varNumber?).map (fun n => ⟨"var_" ++ toString n, .u32⟩) ++
    s.predeclared.map fun id => ⟨"temp_" ++ toString id, s.types.get id⟩

theorem declarations_eq (s : Scope) (r : Routine) :
    s.declarations r = Lines.paragraph ((s.locals r).map Value.declaration) := by
  have hline : ∀ type letters joined : String, type ++ " " ++ letters = joined → ∀ n : Nat,
      joined ++ toString n ++ ";" = type ++ " " ++ (letters ++ toString n) ++ ";" := by
    rintro type letters _ rfl n
    simp only [String.append_assoc]
  refine congrArg Lines.paragraph ?_
  simp only [locals, map_append, map_map]
  refine congrArg₂ _ (congrArg₂ _ (congrArg₂ _ ?_ ?_) ?_) ?_ <;> refine map_congr_left fun n _ => ?_
  · exact hline "uint" "r" "uint r" rfl n
  · exact hline "bool" "p" "bool p" rfl n
  · exact hline "uint" "var_" "uint var_" rfl n
  · refine hline _ "temp_" (_ ++ " temp_") ?_ n
    rw [String.append_assoc]
    rfl

theorem nodup_locals (h : s.predeclared.Nodup) : ((s.locals r).map Value.text).Nodup := by
  have hnumbers : ∀ number?, (declared r number?).Nodup := fun _ => Ascending.nodup_ofList _
  simp only [locals, map_append, map_map, Function.comp_def]
  refine (((nodup_names _ (hnumbers _)).append (nodup_names _ (hnumbers _)) ?_).append
    (nodup_names _ (hnumbers _)) ?_).append (nodup_names _ h) ?_
  · exact disjoint_names (by decide) (by decide) (by decide) _ _
  · simp only [disjoint_append_left]
    exact ⟨disjoint_names (by decide) (by decide) (by decide) _ _,
      disjoint_names (by decide) (by decide) (by decide) _ _⟩
  · simp only [disjoint_append_left]
    exact ⟨⟨disjoint_names (by decide) (by decide) (by decide) _ _,
      disjoint_names (by decide) (by decide) (by decide) _ _⟩,
      disjoint_names (by decide) (by decide) (by decide) _ _⟩

theorem countP_declares (h : s.predeclared.Nodup) (hv : v ∈ s.locals r) :
    (s.declarations r).countP (declares v.text) = 1 := by
  have hblank : declares v.text "" = false := by simp [declares, Value.declaration, toString]
  have hcnt : ((s.locals r).map Value.declaration).countP (declares v.text) = 1 := by
    rw [countP_map]
    simp only [Function.comp_def, declares_declaration]
    have hone := count_eq_one_of_mem (nodup_locals h) (mem_map_of_mem hv)
    rwa [List.count, countP_map] at hone
  rw [declarations_eq, Lines.paragraph]
  split
  · next hemp => simp [isEmpty_iff.1 hemp] at hcnt
  · rw [countP_append, hcnt, countP_singleton, hblank]
    rfl

/-- The operand's name is declared by one line of the head, as the type that it is read in. -/
def DeclaresOnce (s : Scope) (r : Routine) (o : Operand) : Prop :=
  ∃ v, s.operand o = .ok v ∧ v.declaration ∈ s.declarations r ∧ (s.declarations r).countP (declares v.text) = 1

theorem declaresOnce (h : s.predeclared.Nodup) (hv : v ∈ s.locals r) (ho : s.operand o = .ok v) :
    s.DeclaresOnce r o := by
  refine ⟨v, ho, ?_, countP_declares h hv⟩
  rw [declarations_eq, Lines.paragraph, if_neg (by simpa using ne_nil_of_mem hv)]
  exact mem_append_left _ (mem_map_of_mem hv)

theorem mem_declared (number? : Operand → Option Nat) (hb : b < r.blocks.size)
    (hop : op ∈ r.code b) (ho : o ∈ op.operands) (hn : number? o = some n) :
    n ∈ declared r number? := by
  obtain ⟨id, hid, rfl⟩ := mem_map.1 hop
  refine Ascending.mem_ofList.2 (mem_flatMap.2 ⟨(b, id), ?_, mem_filterMap.2 ⟨o, ho, hn⟩⟩)
  exact mem_flatMap.2 ⟨b, mem_range.2 hb, mem_map_of_mem hid⟩

theorem declaresOnce_operand (h : s.predeclared.Nodup) (hb : b < r.blocks.size)
    (hop : op ∈ r.code b) (ho : o ∈ op.operands) (hvar : o.isVariable) :
    s.DeclaresOnce r o := by
  cases o with
  | register reg =>
    have hrz : reg.isRz = false := by simpa [Operand.isVariable] using hvar
    have hmem := mem_declared registerNumber? hb hop ho (by rw [registerNumber?, hrz]; rfl)
    refine declaresOnce h (mem_append_left _ (mem_append_left _ (mem_append_left _ (mem_map_of_mem hmem)))) ?_
    rw [operand, hrz]
    rfl
  | predicate pred =>
    have hpt : pred.isPt = false := by simpa [Operand.isVariable] using hvar
    have hmem := mem_declared predicateNumber? hb hop ho (by rw [predicateNumber?, hpt]; rfl)
    refine declaresOnce h (mem_append_left _ (mem_append_left _ (mem_append_right _ (mem_map_of_mem hmem)))) ?_
    rw [operand, hpt]
    rfl
  | var id =>
    have hmem := mem_declared varNumber? hb hop ho rfl
    exact declaresOnce h (mem_append_left _ (mem_append_right _ (mem_map_of_mem hmem))) rfl
  | _ => cases hvar

theorem declaresOnce_temp (h : s.predeclared.Nodup) (ht : t ∈ s.predeclared) : s.DeclaresOnce r (.temp t) :=
  declaresOnce h (mem_append_right _ (mem_map_of_mem ht)) rfl

end Scope

theorem source_eq_ok (h : source x r p = .ok text) : ∃ before body, text = Lines.render (before ++ "void main()" ::
      Lines.block (Scope.declarations ⟨x, TempTypes.ofRoutine x r, p.predeclared⟩ r ++ body) "") := by
  unfold source Scope.mainFunction at h
  cases hlines : Scope.statements ⟨x, TempTypes.ofRoutine x r, p.predeclared⟩ r p.body with
  | error e => simp [hlines, bind, Except.bind] at h
  | ok lines =>
    simp only [hlines, bind, Except.bind, pure, Except.pure, Except.ok.injEq] at h
    exact ⟨_, lines, h.symm⟩

end Glsl
end ShaderRecompiler
