import Mathlib.Algebra.Group.Nat.Defs
import Mathlib.Data.List.Basic
import ShaderRecompiler.Compile.Interface

/-! Declarations only grow. What was found under a binding or number is still
found later, and every guest resource that a program names is found under the
binding it was given. -/
namespace ShaderRecompiler.Resources

open List

section Lists

variable {items : List α}

theorem find?_upsert (n : Nat) : (upsert binding item items).find? (binding · == n) =
    if binding item = n then some item else items.find? (binding · == n) := by
  induction items with
  | nil => by_cases hn : binding item = n <;> simp [upsert, hn]
  | cons x xs ih =>
    rw [upsert]
    by_cases hx : binding x = binding item
    · rw [if_pos hx]
      by_cases hn : binding item = n
      · simp [hn]
      · have hxn : (binding x == n) = false := by simpa [hx] using hn
        simp [hn, hxn]
    · rw [if_neg hx, find?_cons, find?_cons, ih]
      by_cases hn : binding item = n
      · have hxn : (binding x == n) = false := by simpa [← hn] using hx
        simp [hn, hxn]
      · simp [hn]

theorem mem_upsert (h : x ∈ upsert binding item items) : x = item ∨ x ∈ items := by
  induction items with
  | nil => simpa [upsert] using h
  | cons y ys ih =>
    rw [upsert] at h
    split at h
    · exact (mem_cons.1 h).imp_right (mem_cons_of_mem _)
    · obtain rfl | h := mem_cons.1 h
      · exact .inr (mem_cons_self ..)
      · exact (ih h).imp_right (mem_cons_of_mem _)

theorem find?_addNew (h : items.find? (binding · == n) = some x) :
    (addNew binding item items).find? (binding · == n) = some x := by
  unfold addNew
  split
  · exact h
  · rw [find?_append, h]
    rfl

theorem isSome_find?_addNew (hn : binding item = n) : ((addNew binding item items).find? (binding · == n)).isSome := by
  subst hn
  unfold addNew
  split
  · next hany => simpa [find?_isSome] using hany
  · simp

end Lists

variable {r r' r'' : Resources}

/-- Whatever `r` finds, `r'` finds too. -/
structure Extends (r r' : Resources) : Prop where
  reservations : r'.reservations = r.reservations
  emulation : r'.emulation = r.emulation
  constantBuffer : ∀ {n b}, r.constantBuffer? n = some b → r'.constantBuffer? n = some b
  storageBuffer : ∀ {n b}, r.storageBuffer? n = some b → r'.storageBuffer? n = some b
  texture : ∀ {n t}, r.texture? n = some t → r'.texture? n = some t
  image : ∀ {n t}, r.image? n = some t → r'.image? n = some t
  localMemory : ∀ {n m}, r.localMemory? n = some m → r'.localMemory? n = some m
  sharedMemory : ∀ {n m}, r.sharedMemory? n = some m → r'.sharedMemory? n = some m

namespace Extends

theorem refl (r : Resources) : r.Extends r := ⟨rfl, rfl, id, id, id, id, id, id⟩

theorem trans (h : r.Extends r') (h' : r'.Extends r'') : r.Extends r'' where
  reservations := h'.reservations.trans h.reservations
  emulation := h'.emulation.trans h.emulation
  constantBuffer hb := h'.constantBuffer (h.constantBuffer hb)
  storageBuffer hb := h'.storageBuffer (h.storageBuffer hb)
  texture ht := h'.texture (h.texture ht)
  image ht := h'.image (h.image ht)
  localMemory hm := h'.localMemory (h.localMemory hm)
  sharedMemory hm := h'.sharedMemory (h.sharedMemory hm)

end Extends

theorem extends_useConstantBuffer (r : Resources) (slot : Nat) : r.Extends (r.useConstantBuffer slot).2 where
  __ := Extends.refl r
  constantBuffer hb := find?_addNew hb

theorem extends_useTexture (r : Resources) (h : TextureHandle) : r.Extends (r.useTexture h).2 where
  __ := Extends.refl r
  texture ht := find?_addNew ht

theorem extends_useImage (r : Resources) (h : TextureHandle) : r.Extends (r.useImage h).2 where
  __ := Extends.refl r
  image ht := find?_addNew ht

theorem getElem?_append_some {α : Type} {xs : List α} {n : Nat} {x : α} (h : xs[n]? = some x)
    (ys : List α) : (xs ++ ys)[n]? = some x := by
  obtain ⟨hn, rfl⟩ := List.getElem?_eq_some_iff.1 h
  rw [getElem?_append_left hn, getElem?_eq_getElem hn]

theorem extends_beginLocalMemory (r : Resources) (bytes : Nat) (used : Bool) :
    r.Extends (r.beginLocalMemory bytes used) := by
  unfold beginLocalMemory
  split
  · exact { Extends.refl r with localMemory := fun hm => getElem?_append_some hm _ }
  · exact { Extends.refl r with }

theorem extends_beginSharedMemory (r : Resources) (bytes : Nat) (used : Bool) :
    r.Extends (r.beginSharedMemory bytes used) := by
  unfold beginSharedMemory
  split
  · exact { Extends.refl r with sharedMemory := fun hm => getElem?_append_some hm _ }
  · exact { Extends.refl r with }

/-- A storage buffer whose first field is an array of words. -/
def HasArray (r : Resources) (n : Nat) : Prop :=
  ∃ b f, r.storageBuffer? n = some b ∧ b.fields[0]? = some f ∧ f.length.isSome ∧ f.type.isVector = false

/-- Guest resources are found under the bindings they were given, and no storage
buffer lies beyond the last one. -/
structure Numbered (r : Resources) : Prop where
  storage_lt : ∀ b ∈ r.storageBuffers, b.binding < r.reservations.storageBuffers + r.guestStorage.length
  storage : ∀ slot ∈ r.guestStorage, r.HasArray (r.reservations.storageBuffers + r.guestStorage.idxOf slot)
  texture : ∀ h ∈ r.guestTextures, (r.texture? (r.reservations.textures + r.guestTextures.idxOf h)).isSome
  image : ∀ h ∈ r.guestImages, (r.image? (r.reservations.images + r.guestImages.idxOf h)).isSome

/-- Declaring more forgets no guest resource. -/
structure Grows (r r' : Resources) : Prop extends r.Extends r' where
  guestStorage : r.guestStorage ⊆ r'.guestStorage
  guestTextures : r.guestTextures ⊆ r'.guestTextures
  guestImages : r.guestImages ⊆ r'.guestImages
  currentLocal : r'.currentLocal = r.currentLocal
  currentShared : r'.currentShared = r.currentShared

theorem Grows.refl (r : Resources) : r.Grows r :=
  ⟨.refl r, Subset.refl _, Subset.refl _, Subset.refl _, rfl, rfl⟩

theorem Grows.trans (h : r.Grows r') (h' : r'.Grows r'') : r.Grows r'' :=
  ⟨h.toExtends.trans h'.toExtends, Subset.trans h.guestStorage h'.guestStorage,
    Subset.trans h.guestTextures h'.guestTextures, Subset.trans h.guestImages h'.guestImages,
    h'.currentLocal.trans h.currentLocal, h'.currentShared.trans h.currentShared⟩

section Remember

variable [BEq α] [LawfulBEq α] {xs : List α}

theorem mem_remember : x ∈ remember y xs ↔ x ∈ xs ∨ x = y := by
  unfold remember
  split
  · next hy =>
    have hy : y ∈ xs := by simpa using hy
    constructor
    · exact .inl
    · rintro (hx | rfl)
      · exact hx
      · exact hy
  · simp

theorem idxOf_remember (h : x ∈ xs ∨ x = y) : (remember y xs).idxOf x = xs.idxOf x := by
  unfold remember
  split
  · rfl
  · next hy =>
    have hy : y ∉ xs := by simpa using hy
    by_cases hx : x ∈ xs
    · rw [idxOf_append_of_mem hx]
    · obtain rfl := h.resolve_left hx
      rw [idxOf_append_of_notMem hx, idxOf_of_notMem hx]
      simp

end Remember

theorem isSome_find?_remember {h : TextureHandle}
    {item : Texture} (hold : ∀ h ∈ handles, (items.find? (·.binding == base + handles.idxOf h)).isSome)
    (hitem : item.binding = base + handles.idxOf h) (hh' : h' ∈ remember h handles) :
    ((addNew Texture.binding item items).find? (·.binding == base + (remember h handles).idxOf h')).isSome := by
  rw [idxOf_remember (mem_remember.1 hh')]
  obtain hmem | rfl := mem_remember.1 hh'
  · obtain ⟨t, ht⟩ := Option.isSome_iff_exists.1 (hold h' hmem)
    rw [find?_addNew ht]
    rfl
  · exact isSome_find?_addNew hitem

theorem Numbered.useTexture (hn : r.Numbered) (h : TextureHandle) : (r.useTexture h).2.Numbered where
  storage_lt := hn.storage_lt
  storage := hn.storage
  image := hn.image
  texture _ := isSome_find?_remember hn.texture rfl

theorem Numbered.useImage (hn : r.Numbered) (h : TextureHandle) : (r.useImage h).2.Numbered where
  storage_lt := hn.storage_lt
  storage := hn.storage
  texture := hn.texture
  image _ := isSome_find?_remember hn.image rfl

theorem storageBuffer?_addStorageBuffer (r : Resources) (b : Buffer) (n : Nat) :
    (r.addStorageBuffer b).storageBuffer? n = if b.binding = n then some b else r.storageBuffer? n :=
  find?_upsert n

theorem HasArray.mono (h : r.Extends r') {n : Nat} (ha : r.HasArray n) : r'.HasArray n := by
  obtain ⟨b, f, hb, hf⟩ := ha
  exact ⟨b, f, h.storageBuffer hb, hf⟩

theorem HasArray.lt (h : r.HasArray n) (hfit : ∀ b ∈ r.storageBuffers, b.binding < 2 ^ 32) : n < 2 ^ 32 := by
  obtain ⟨b, f, hb, -⟩ := h
  have hn : b.binding = n := by simpa using find?_some hb
  exact hn ▸ hfit b (mem_of_find?_eq_some hb)

theorem extends_addStorageBuffer (h : ∀ x ∈ r.storageBuffers, x.binding ≠ b.binding) :
    r.Extends (r.addStorageBuffer b) := by
  refine { Extends.refl r with storageBuffer := fun {n x} hx => ?_ }
  rw [storageBuffer?_addStorageBuffer, if_neg]
  · exact hx
  · rintro rfl
    exact h x (mem_of_find?_eq_some hx) (by simpa using find?_some hx)

theorem grows_useTexture (r : Resources) (h : TextureHandle) : r.Grows (r.useTexture h).2 where
  __ := Grows.refl r
  toExtends := extends_useTexture r h
  guestTextures _ hx := mem_remember.2 (.inl hx)

theorem grows_useImage (r : Resources) (h : TextureHandle) : r.Grows (r.useImage h).2 where
  __ := Grows.refl r
  toExtends := extends_useImage r h
  guestImages _ hx := mem_remember.2 (.inl hx)

/-- A new storage buffer lies beyond all that there are. -/
theorem useStorageBuffer_spec (hn : r.Numbered) (slot : Nat) :
    (r.useStorageBuffer slot).2.Numbered ∧ r.Grows (r.useStorageBuffer slot).2 ∧
      slot ∈ (r.useStorageBuffer slot).2.guestStorage := by
  unfold useStorageBuffer
  dsimp only
  split
  · next hslot => exact ⟨hn, .refl r, by simpa using hslot⟩
  next hslot =>
  have hslot : slot ∉ r.guestStorage := by simpa using hslot
  rw [idxOf_of_notMem hslot]
  generalize hb : Buffer.words (r.reservations.storageBuffers + r.guestStorage.length) s!"sb{slot}" = b
  have hbind : b.binding = r.reservations.storageBuffers + r.guestStorage.length := by
    rw [← hb]
    rfl
  have hadd : ({ r with guestStorage := r.guestStorage ++ [slot] } : Resources).Extends
      (({ r with guestStorage := r.guestStorage ++ [slot] } : Resources).addStorageBuffer b) := by
    refine extends_addStorageBuffer fun x hx => ?_
    have := hn.storage_lt x hx
    omega
  have hext : r.Extends (({ r with guestStorage := r.guestStorage ++ [slot] } : Resources).addStorageBuffer b) :=
    { hadd with }
  refine ⟨⟨?_, ?_, hn.texture, hn.image⟩, ⟨hext, by simp [addStorageBuffer], Subset.refl _,
    Subset.refl _, rfl, rfl⟩, by simp [addStorageBuffer]⟩
  · intro x hx
    simp only [addStorageBuffer, length_append, length_singleton]
    obtain rfl | hx := mem_upsert hx
    · omega
    · have := hn.storage_lt x hx
      omega
  · intro k hk
    by_cases hmem : k ∈ r.guestStorage
    · have hplc : (r.guestStorage ++ [slot]).idxOf k = r.guestStorage.idxOf k :=
        idxOf_append_of_mem hmem
      simp only [addStorageBuffer, hplc]
      exact (hn.storage k hmem).mono hext
    · obtain rfl : k = slot := by simpa [addStorageBuffer, hmem] using hk
      have hplc : (r.guestStorage ++ [k]).idxOf k = r.guestStorage.length := by
        rw [idxOf_append_of_notMem hmem]
        simp
      simp only [addStorageBuffer, hplc]
      refine ⟨b, ⟨.scalar .u32, "data", some 0⟩, ?_, by rw [← hb]; rfl, rfl, rfl⟩
      have := storageBuffer?_addStorageBuffer
        ({ r with guestStorage := r.guestStorage ++ [k] } : Resources) b b.binding
      rw [if_pos rfl, hbind] at this
      exact this

end ShaderRecompiler.Resources

namespace ShaderRecompiler.Guest

/-- The resources that an instruction names have been given bindings. -/
def Op.Declared (r : Resources) : Op → Prop
  | tex _ _ handle sampler _ _ _ => ⟨handle, sampler, .f32⟩ ∈ r.guestTextures
  | suld _ _ handle sampler _ | sust _ handle sampler _ => ⟨handle, sampler, .u32⟩ ∈ r.guestImages
  | ld _ count (.global slot) _ _ | st _ count (.global slot) _ _ => count ≠ 0 → slot ∈ r.guestStorage
  | _ => True

theorem Op.Declared.mono {op : Op} (h : r.Grows r') (hop : op.Declared r) : op.Declared r' := by
  cases op with
  | tex => exact h.guestTextures hop
  | suld | sust => exact h.guestImages hop
  | ld _ _ space | st _ _ space =>
    cases space with
    | «global» => exact fun hne => h.guestStorage (hop hne)
    | _ => trivial
  | _ => trivial

theorem Op.declare_spec (op : Op) (hn : r.Numbered) :
    (op.declare r).Numbered ∧ r.Grows (op.declare r) ∧ op.Declared (op.declare r) := by
  cases op with
  | tex _ _ handle sampler =>
    exact ⟨hn.useTexture _, r.grows_useTexture _, Resources.mem_remember.2 (.inr rfl)⟩
  | suld _ _ handle sampler =>
    exact ⟨hn.useImage _, r.grows_useImage _, Resources.mem_remember.2 (.inr rfl)⟩
  | sust _ handle sampler =>
    exact ⟨hn.useImage _, r.grows_useImage _, Resources.mem_remember.2 (.inr rfl)⟩
  | ld _ count space | st _ count space =>
    cases space with
    | «global» slot =>
      simp only [declare, Declared]
      split
      · next hzero => exact ⟨hn, .refl r, fun hne => absurd hzero hne⟩
      · obtain ⟨hn', hgrows, hmem⟩ := Resources.useStorageBuffer_spec hn slot
        exact ⟨hn', hgrows, fun _ => hmem⟩
    | _ => exact ⟨hn, .refl r, trivial⟩
  | _ => exact ⟨hn, .refl r, trivial⟩

theorem Program.declare_spec (p : Program) (hn : r.Numbered) :
    (p.declare r).Numbered ∧ r.Grows (p.declare r) ∧ ∀ op ∈ p.ops, op.Declared (p.declare r) := by
  unfold declare
  generalize p.ops = ops
  induction ops generalizing r with
  | nil => exact ⟨hn, .refl r, by simp⟩
  | cons op ops ih =>
    obtain ⟨hn', hgrows, hop⟩ := op.declare_spec hn
    obtain ⟨hn'', hgrows', hops⟩ := ih hn'
    exact ⟨hn'', hgrows.trans hgrows', List.forall_mem_cons.2 ⟨hop.mono hgrows', hops⟩⟩

end ShaderRecompiler.Guest
