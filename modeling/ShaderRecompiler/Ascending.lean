/-! Finite sets of numbers as ascending lists without repeats: the order in
which declarations are printed is then the list itself. -/
namespace ShaderRecompiler.Ascending

def insert (n : Nat) : List Nat → List Nat
  | [] => [n]
  | m :: rest => if n < m then n :: m :: rest else if n = m then m :: rest else m :: insert n rest

def union (base added : List Nat) : List Nat := added.foldl (fun set n => insert n set) base

def ofList (members : List Nat) : List Nat := union [] members

theorem mem_insert {k n : Nat} {set : List Nat} : k ∈ insert n set ↔ k = n ∨ k ∈ set := by
  induction set with
  | nil => simp [insert]
  | cons m rest ih =>
    rw [insert]
    split
    · simp
    · split
      · simp_all
      · simp only [List.mem_cons, ih]
        exact or_left_comm

theorem mem_union {k : Nat} {base added : List Nat} :
    k ∈ union base added ↔ k ∈ base ∨ k ∈ added := by
  induction added generalizing base with
  | nil => simp [union]
  | cons n rest ih =>
    have step : union base (n :: rest) = union (insert n base) rest := rfl
    rw [step, ih, mem_insert, List.mem_cons]
    constructor
    · rintro ((rfl | h) | h) <;> simp [*]
    · rintro (h | rfl | h) <;> simp [*]

theorem pairwise_insert {n : Nat} {set : List Nat} (h : set.Pairwise (· < ·)) :
    (insert n set).Pairwise (· < ·) := by
  induction set with
  | nil => simp [insert]
  | cons m rest ih =>
    obtain ⟨lower, tail⟩ := List.pairwise_cons.1 h
    rw [insert]
    split
    · rename_i lt
      exact List.pairwise_cons.2 ⟨fun k hk => by
        rcases List.mem_cons.1 hk with rfl | hk
        · exact lt
        · exact Nat.lt_trans lt (lower k hk), h⟩
    · split
      · exact h
      · refine List.pairwise_cons.2 ⟨fun k hk => ?_, ih tail⟩
        rcases mem_insert.1 hk with rfl | hk
        · omega
        · exact lower k hk

theorem pairwise_ofList (members : List Nat) : (ofList members).Pairwise (· < ·) := by
  suffices h : ∀ base : List Nat, base.Pairwise (· < ·) → (union base members).Pairwise (· < ·) from
    h [] List.Pairwise.nil
  induction members with
  | nil => exact fun _ h => h
  | cons n rest ih => exact fun base h => ih _ (pairwise_insert h)

end ShaderRecompiler.Ascending
