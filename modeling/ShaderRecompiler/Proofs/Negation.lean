import ShaderRecompiler.Glsl.ValueType

/-! Negation applies to a whole expression. Where parentheses match, the scan by nesting
depth finds the texts that one pair of them encloses, so `!` stands before a name or before a
single group. -/
namespace ShaderRecompiler.Glsl

/-- Every parenthesis has its partner. -/
inductive Balanced : List Char → Prop
  | nil : Balanced []
  | char (hopen : c ≠ '(') (hclose : c ≠ ')') (h : Balanced s) : Balanced (c :: s)
  | group (hs : Balanced s) (ht : Balanced t) : Balanced ('(' :: s ++ ')' :: t)

theorem Balanced.plain (h : ∀ c ∈ s, c ≠ '(' ∧ c ≠ ')') (ht : Balanced t) : Balanced (s ++ t) := by
  induction s with
  | nil => exact ht
  | cons c s ih =>
    obtain ⟨hc, hs⟩ := List.forall_mem_cons.1 h
    exact .char hc.1 hc.2 (ih hs)

/-- One pair of parentheses around a balanced text. -/
def Encloses (s text : List Char) : Prop := Balanced s ∧ text = '(' :: s ++ [')']

def IsName (text : List Char) : Prop := text ≠ [] ∧ ∀ c ∈ text, c.isAlphanum ∨ c = '_'

theorem closesEarly_char (hopen : c ≠ '(') (hclose : c ≠ ')') (depth : Nat) (rest : List Char) :
    closesEarly depth (c :: rest) = closesEarly depth rest := by
  rw [closesEarly]
  · exact hopen
  · exact hclose

/-- Inside a group, a balanced text leaves the depth as it found it. -/
theorem closesEarly_append (h : Balanced s) (hd : 0 < depth) (rest : List Char) :
    closesEarly depth (s ++ rest) = closesEarly depth rest := by
  induction h generalizing depth rest with
  | nil => rfl
  | char hopen hclose _ ih => rw [List.cons_append, closesEarly_char hopen hclose, ih hd]
  | @group s t _ _ ihs iht =>
    have hdepth : ¬depth + 1 ≤ 1 := by omega
    calc closesEarly depth ('(' :: s ++ ')' :: t ++ rest)
        = closesEarly (depth + 1) (s ++ ')' :: (t ++ rest)) := by simp [closesEarly]
      _ = closesEarly (depth + 1) (')' :: (t ++ rest)) := ihs (Nat.succ_pos _) _
      _ = closesEarly depth (t ++ rest) := by simp [closesEarly, hdepth]
      _ = closesEarly depth rest := iht hd _

theorem closesEarly_group (h : Balanced s) (t : List Char) :
    closesEarly 0 ('(' :: s ++ ')' :: t) = (!t.isEmpty || closesEarly 0 t) := by
  rw [List.cons_append, closesEarly, closesEarly_append h Nat.one_pos, closesEarly]
  simp

theorem isParenthesized_iff (h : Balanced text) : isParenthesized text ↔ ∃ s, Encloses s text := by
  unfold isParenthesized
  constructor
  · intro hparen
    simp only [Bool.and_eq_true, beq_iff_eq, Bool.not_eq_true'] at hparen
    obtain ⟨⟨hhead, -⟩, hscan⟩ := hparen
    cases h with
    | nil => cases hhead
    | char hopen => exact absurd (Option.some.inj hhead) hopen
    | @group s t hs _ =>
      rw [closesEarly_group hs, Bool.or_eq_false_iff] at hscan
      obtain rfl : t = [] := by simpa using hscan.1
      exact ⟨s, hs, rfl⟩
  · rintro ⟨s, hs, rfl⟩
    rw [closesEarly_group hs, List.getLast?_concat]
    rfl

/-- A parenthesis that closes a balanced text is found in one way only. -/
theorem Balanced.closing_inj (h : Balanced s) (h' : Balanced s') (heq : s ++ ')' :: t = s' ++ ')' :: t') :
    s = s' ∧ t = t' := by
  induction h generalizing s' t t' with
  | nil =>
    cases h' with
    | nil => exact ⟨rfl, (List.cons.inj heq).2⟩
    | char _ hclose => exact absurd (List.cons.inj heq).1.symm hclose
    | group => simp at heq
  | char hopen hclose _ ih =>
    cases h' with
    | nil => exact absurd (List.cons.inj heq).1 hclose
    | char _ _ hs =>
      obtain ⟨rfl, hrest⟩ := List.cons.inj heq
      obtain ⟨rfl, rfl⟩ := ih hs hrest
      exact ⟨rfl, rfl⟩
    | group => exact absurd (List.cons.inj heq).1 hopen
  | group _ _ ihs iht =>
    cases h' with
    | nil => simp at heq
    | char hopen => exact absurd (List.cons.inj heq).1.symm hopen
    | group hs ht =>
      simp only [List.cons_append, List.append_assoc, List.cons.injEq, true_and] at heq
      obtain ⟨rfl, hrest⟩ := ihs hs heq
      obtain ⟨rfl, rfl⟩ := iht ht hrest
      exact ⟨rfl, rfl⟩

theorem Encloses.first_eq (h : Encloses s text) (ht : Balanced t) (heq : text = '(' :: t ++ ')' :: rest) :
    t = s ∧ rest = [] := by
  have hrest := h.2.symm.trans heq
  obtain ⟨rfl, hnil⟩ := h.1.closing_inj ht (List.cons.inj hrest).2
  exact ⟨rfl, hnil.symm⟩

/-- With `!` before it the operand is the negation of the text, all of it: a name, or one
group that holds the text or is the text. The parenthesis that opens a group closes with the
group, so nothing stands behind what is negated. -/
def NegatesWhole (operand text : List Char) : Prop :=
  operand = text ∧ IsName operand ∨ ∃ s, Encloses s operand ∧ (s = text ∨ Encloses s text) ∧
      ∀ t rest, Balanced t → operand = '(' :: t ++ ')' :: rest → t = s ∧ rest = []

theorem Encloses.negatesWhole (h : Encloses s operand) (hs : s = text ∨ Encloses s text) : NegatesWhole operand text :=
  .inr ⟨s, h, hs, fun _ _ => h.first_eq⟩

theorem negation_whole {text : String} (hne : text ≠ "") (h : Balanced text.toList) :
    (isParenthesized text.toList = true ↔ ∃ s, Encloses s text.toList) ∧
      ∃ operand, (negation text).toList = '!' :: operand ∧ NegatesWhole operand text.toList := by
  have hiff := isParenthesized_iff h
  refine ⟨hiff, ?_⟩
  by_cases hword : isWord text.toList = true
  · refine ⟨text.toList, by simp [negation, hword, toString], .inl ⟨rfl, by simpa using hne, ?_⟩⟩
    simpa [isWord] using hword
  by_cases hparen : isParenthesized text.toList = true
  · obtain ⟨s, hs⟩ := hiff.1 hparen
    exact ⟨text.toList, by simp [negation, hparen, toString], hs.negatesWhole (.inr hs)⟩
  · have hs : Encloses text.toList ('(' :: text.toList ++ [')']) := ⟨h, rfl⟩
    exact ⟨_, by simp [negation, hword, hparen, toString], hs.negatesWhole (.inl rfl)⟩

/-- Two groups side by side are no group, though the text starts and ends with parentheses. -/
theorem negation_whole_conjunction : Balanced "(a) && (b)".toList ∧ isParenthesized "(a) && (b)".toList = false ∧
      ∃ operand, (negation "(a) && (b)").toList = '!' :: operand ∧ NegatesWhole operand "(a) && (b)".toList := by
  have hname : ∀ c, c ≠ '(' ∧ c ≠ ')' → Balanced [c] := fun c hc => .char hc.1 hc.2 .nil
  have hbalanced : Balanced "(a) && (b)".toList :=
    .group (hname 'a' (by decide)) (.plain (s := " && ".toList) (by simp) (.group (hname 'b' (by decide)) .nil))
  exact ⟨hbalanced, by decide, (negation_whole (by decide) hbalanced).2⟩

example : negation "(a) && (b)" = "!((a) && (b))" := by decide +kernel
example : negation "(a < b)" = "!(a < b)" := by decide +kernel

end ShaderRecompiler.Glsl
