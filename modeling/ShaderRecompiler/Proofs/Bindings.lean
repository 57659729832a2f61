import Mathlib.Data.List.Nodup
import ShaderRecompiler.Proofs.Provision

/-! Bindings of guest resources. Whatever a program asks for, and in whatever order, the
declarations are those made before it followed by one for each guest resource, and a
guest resource keeps the binding that it was given first. Constant buffers are bound by
their slot, the others by their place among those of their class. -/
namespace ShaderRecompiler

open List Resources DescriptorSet

variable {b : Buffer} {a : GuestResource} {g : Guests}

namespace Buffer

def guestWords (slot binding : Nat) : Buffer := words binding s!"sb{slot}"

end Buffer

namespace Texture

def guest (h : TextureHandle) (binding : Nat) : Texture :=
  ⟨texture, binding, s!"tex{binding}", h.sampler, h.type⟩

def guestImage (h : TextureHandle) (binding : Nat) : Texture :=
  ⟨image, binding, s!"img{binding}", h.sampler, h.type⟩

end Texture

/-- Something that a guest program names and that is declared when it is first asked for. -/
inductive GuestResource where
  | constantBuffer (slot : Nat)
  | storageBuffer (slot : Nat)
  | texture (handle : TextureHandle)
  | image (handle : TextureHandle)
deriving DecidableEq, Repr

namespace GuestResource

def kind : GuestResource → ResourceKind
  | constantBuffer _ => .constantBuffer
  | storageBuffer _ => .storageBuffer
  | texture _ => .texture
  | image _ => .image

/-- The lowest binding that is not reserved. -/
def firstBinding (b : Reservations) : GuestResource → Nat
  | constantBuffer _ => b.constantBuffers
  | storageBuffer _ => b.storageBuffers
  | texture _ => b.textures
  | image _ => b.images

theorem firstBinding_congr {b : Reservations} {g h : GuestResource} (hkind : g.kind = h.kind) :
    g.firstBinding b = h.firstBinding b := by
  cases g <;> cases h <;> first | rfl | cases hkind

/-- The declaration under the binding is the one made for this resource. -/
def FoundAt (r : Resources) (binding : Nat) : GuestResource → Prop
  | constantBuffer slot => r.constantBuffer? binding = some (.guestConstants slot binding)
  | storageBuffer slot => r.storageBuffer? binding = some (.guestWords slot binding)
  | texture h => r.texture? binding = some (.guest h binding)
  | image h => r.image? binding = some (.guestImage h binding)

end GuestResource

namespace Resources

def use (r : Resources) : GuestResource → Nat × Resources
  | .constantBuffer slot => r.useConstantBuffer slot
  | .storageBuffer slot => r.useStorageBuffer slot
  | .texture h => r.useTexture h
  | .image h => r.useImage h

/-- Each resource that was asked for with the binding it was given, and the declarations
in the end. -/
def useAll (r : Resources) : List GuestResource → List (GuestResource × Nat) × Resources
  | [] => ([], r)
  | g :: rest =>
    let used := r.use g
    let others := used.2.useAll rest
    ((g, used.1) :: others.1, others.2)

/-! Declarations of one class. -/

section Class

variable {α : Type} {set binding : α → Nat} {s bound : Nat} {x : α} {items : List α}

/-- All in one set, under bindings of their own. -/
structure Distinct (set binding : α → Nat) (s : Nat) (items : List α) : Prop where
  set_eq : ∀ x ∈ items, set x = s
  nodup : (items.map binding).Nodup

/-- They keep to bindings below the bound, too. -/
structure Reserved (set binding : α → Nat) (s bound : Nat) (items : List α) : Prop extends
    Distinct set binding s items where
  lt : ∀ x ∈ items, binding x < bound

theorem upsert_eq_append (h : ∀ x ∈ items, binding x ≠ binding item) :
    upsert binding item items = items ++ [item] := by
  induction items with
  | nil => rfl
  | cons x xs ih =>
    obtain ⟨hx, hxs⟩ := forall_mem_cons.1 h
    rw [upsert, if_neg hx, ih hxs]
    rfl

theorem map_upsert (binding : α → Nat) (item : α) (items : List α) :
    (upsert binding item items).map binding = items.map binding ∨
      upsert binding item items = items ++ [item] ∧ binding item ∉ items.map binding := by
  induction items with
  | nil => exact .inr ⟨rfl, by simp⟩
  | cons x xs ih =>
    rw [upsert]
    split
    · next hx => exact .inl (by rw [map_cons, map_cons, hx])
    · next hx =>
      obtain heq | ⟨heq, hnew⟩ := ih
      · exact .inl (by rw [map_cons, map_cons, heq])
      · refine .inr ⟨by rw [heq, cons_append], ?_⟩
        rw [map_cons, mem_cons]
        exact fun hmem => hmem.elim (fun hb => hx hb.symm) hnew

theorem Reserved.upsert (h : Reserved set binding s bound items) (hset : set item = s) (hlt : binding item < bound) :
    Reserved set binding s bound (upsert binding item items) where
  set_eq x hx := (mem_upsert hx).elim (fun heq => heq ▸ hset) (h.set_eq x)
  lt x hx := (mem_upsert hx).elim (fun heq => heq ▸ hlt) (h.lt x)
  nodup := by
    obtain heq | ⟨heq, hnew⟩ := map_upsert binding item items
    · rw [heq]
      exact h.nodup
    · rw [heq, map_append]
      exact h.nodup.append (nodup_singleton _) (by simpa using hnew)

theorem reserved_nil : Reserved set binding s bound [] := ⟨⟨by simp, by simp⟩, by simp⟩

theorem Distinct.find?_eq (h : Distinct set binding s items) (hx : x ∈ items) :
    items.find? (binding · == binding x) = some x := by
  obtain ⟨y, hy⟩ : ∃ y, items.find? (binding · == binding x) = some y :=
    Option.isSome_iff_exists.1 (find?_isSome.2 ⟨x, hx, beq_self_eq_true _⟩)
  have hbind : binding y = binding x := by simpa using find?_some hy
  rw [hy, inj_on_of_nodup_map h.nodup (mem_of_find?_eq_some hy) hx hbind]

end Class

/-- One declaration for each key, at the place of the key behind `base`. -/
def declared {κ α : Type} (declare : κ → Nat → α) (base : Nat) (place : κ → Nat) (keys : List κ) : List α :=
  keys.map fun key => declare key (base + place key)

section Keys

variable {κ : Type} {set : α → Nat} {keys : List κ}

theorem Reserved.declared (h : Reserved set binding s base internal) (declare : κ → Nat → α) (place : κ → Nat)
    (hdeclare : ∀ key n, set (declare key n) = s ∧ binding (declare key n) = n) (hkeys : keys.Nodup)
    (hplc : ∀ x ∈ keys, ∀ y ∈ keys, place x = place y → x = y) :
    Distinct set binding s (internal ++ declared declare base place keys) where
  set_eq := by
    refine forall_mem_append.2 ⟨h.set_eq, fun x hx => ?_⟩
    obtain ⟨key, -, rfl⟩ := mem_map.1 hx
    exact (hdeclare _ _).1
  nodup := by
    rw [map_append, Resources.declared, map_map]
    refine h.nodup.append (hkeys.map_on fun x hx y hy heq => ?_) fun n hold hnew => ?_
    · simp only [Function.comp_apply, hdeclare] at heq
      exact hplc x hx y hy (by omega)
    · obtain ⟨x, hx, rfl⟩ := mem_map.1 hold
      obtain ⟨key, -, heq⟩ := mem_map.1 hnew
      simp only [Function.comp_apply, hdeclare] at heq
      have := h.lt x hx
      omega

variable [BEq κ] [LawfulBEq κ]

theorem nodup_remember (h : keys.Nodup) (key : κ) : (remember key keys).Nodup := by
  unfold remember
  split
  · exact h
  · next hkey => exact h.append (nodup_singleton _) (by simpa using hkey)

theorem addNew_declared (declare : κ → Nat → α) (place : κ → Nat) (key : κ)
    (h : ∀ x ∈ internal, binding x < base) (hbind : ∀ key n, binding (declare key n) = n)
    (hplc : ∀ x ∈ keys, place x = place key → x = key) :
    addNew binding (declare key (base + place key)) (internal ++ declared declare base place keys) =
      internal ++ declared declare base place (remember key keys) := by
  have hany : (internal ++ declared declare base place keys).any
      (binding · == binding (declare key (base + place key))) = keys.contains key := by
    rw [Bool.eq_iff_iff]
    simp only [any_append, Bool.or_eq_true, any_eq_true, beq_iff_eq, hbind, contains_iff_mem]
    constructor
    · rintro (⟨x, hx, heq⟩ | ⟨x, hx, heq⟩)
      · have := h x hx
        omega
      · obtain ⟨other, hother, rfl⟩ := mem_map.1 hx
        rw [hbind] at heq
        exact hplc other hother (by omega) ▸ hother
    · exact fun hkey => .inr ⟨_, mem_map_of_mem hkey, hbind _ _⟩
  unfold addNew remember
  rw [hany]
  split
  · rfl
  · rw [append_assoc, declared, declared, map_append, map_singleton]

theorem upsert_declared (declare : κ → Nat → α) (h : ∀ x ∈ internal, binding x < base)
    (hbind : ∀ key n, binding (declare key n) = n) (hkey : key ∉ keys) :
    upsert binding (declare key (base + keys.idxOf key)) (internal ++ declared declare base keys.idxOf keys) =
      internal ++ declared declare base keys.idxOf (keys ++ [key]) := by
  rw [upsert_eq_append, append_assoc, declared, declared, map_append, map_singleton]
  intro x hx
  rw [hbind]
  obtain hx | hx := mem_append.1 hx
  · have := h x hx
    omega
  · obtain ⟨other, hother, rfl⟩ := mem_map.1 hx
    have hlt := idxOf_lt_length_of_mem hother
    rw [hbind, idxOf_eq_length hkey]
    dsimp only
    omega

theorem declared_remember (declare : κ → Nat → α) (base : Nat) (key : κ) (keys : List κ) :
    declared declare base keys.idxOf (remember key keys) =
      declared declare base (remember key keys).idxOf (remember key keys) :=
  map_congr_left fun x hx => congrArg (fun n => declare x (base + n)) (idxOf_remember (mem_remember.1 hx)).symm

end Keys

end Resources

/-- What a guest has asked for, class by class in the order of first use. -/
structure Guests where
  constants : List Nat := []
  storage : List Nat := []
  textures : List TextureHandle := []
  images : List TextureHandle := []

namespace Guests

open Resources (remember mem_remember idxOf_remember nodup_remember)

def add (g : Guests) : GuestResource → Guests
  | .constantBuffer slot => { g with constants := remember slot g.constants }
  | .storageBuffer slot => { g with storage := remember slot g.storage }
  | .texture h => { g with textures := remember h g.textures }
  | .image h => { g with images := remember h g.images }

def Has (g : Guests) : GuestResource → Prop
  | .constantBuffer slot => slot ∈ g.constants
  | .storageBuffer slot => slot ∈ g.storage
  | .texture h => h ∈ g.textures
  | .image h => h ∈ g.images

/-- Counted from the first binding that is not reserved. -/
def place (g : Guests) : GuestResource → Nat
  | .constantBuffer slot => slot
  | .storageBuffer slot => g.storage.idxOf slot
  | .texture h => g.textures.idxOf h
  | .image h => g.images.idxOf h

structure Nodup (g : Guests) : Prop where
  constants : g.constants.Nodup
  storage : g.storage.Nodup
  textures : g.textures.Nodup
  images : g.images.Nodup

variable {b : GuestResource}

theorem has_add (a : GuestResource) : (g.add a).Has a := by
  cases a <;> exact mem_remember.2 (.inr rfl)

theorem Has.add (h : g.Has a) (b : GuestResource) : (g.add b).Has a := by
  cases a <;> cases b <;> first | exact mem_remember.2 (.inl h) | exact h

theorem place_add (h : g.Has a ∨ a = b) : (g.add b).place a = g.place a := by
  cases b <;> cases a <;> first | rfl | exact idxOf_remember (h.imp_right fun heq => by cases heq; rfl)

theorem nodup_empty : Nodup {} := ⟨.nil, .nil, .nil, .nil⟩

theorem Nodup.add (h : g.Nodup) (a : GuestResource) : (g.add a).Nodup := by
  cases a with
  | constantBuffer slot => exact { h with constants := nodup_remember h.constants slot }
  | storageBuffer slot => exact { h with storage := nodup_remember h.storage slot }
  | texture handle => exact { h with textures := nodup_remember h.textures handle }
  | image handle => exact { h with images := nodup_remember h.images handle }

theorem place_inj (ha : g.Has a) (hkind : a.kind = b.kind) : g.place a = g.place b ↔ a = b := by
  refine ⟨fun h => ?_, congrArg g.place⟩
  cases a <;> cases b <;> try cases hkind
  · exact congrArg _ h
  all_goals exact congrArg _ ((idxOf_inj ha).1 h)

theorem nodup_foldl (h : g.Nodup) (asked : List GuestResource) : (asked.foldl add g).Nodup := by
  induction asked generalizing g with
  | nil => exact h
  | cons a asked ih => exact ih (h.add a)

theorem place_foldl (h : g.Has a) (asked : List GuestResource) :
    (asked.foldl add g).Has a ∧ (asked.foldl add g).place a = g.place a := by
  induction asked generalizing g with
  | nil => exact ⟨h, rfl⟩
  | cons b asked ih =>
    obtain ⟨hhas, hplc⟩ := ih (h.add b)
    exact ⟨hhas, hplc.trans (place_add (.inl h))⟩

theorem has_foldl {asked : List GuestResource} (h : a ∈ asked) : (asked.foldl add g).Has a := by
  induction asked generalizing g with
  | nil => cases h
  | cons b asked ih =>
    obtain rfl | h := mem_cons.1 h
    · exact (place_foldl (has_add a) asked).1
    · exact ih h

end Guests

namespace Resources

variable {internal : Resources}

/-- Declared under reserved bindings, before the guest asks for anything. -/
structure Internal (r : Resources) : Prop where
  constantBuffers : Reserved Buffer.set Buffer.binding uniform r.reservations.constantBuffers
    r.constantBuffers
  storageBuffers : Reserved Buffer.set Buffer.binding storage r.reservations.storageBuffers
    r.storageBuffers
  textures : Reserved Texture.set Texture.binding texture r.reservations.textures r.textures
  images : Reserved Texture.set Texture.binding image r.reservations.images r.images
  guestStorage : r.guestStorage = []
  guestTextures : r.guestTextures = []
  guestImages : r.guestImages = []

/-- What was declared before, followed by the declarations for the guest. -/
def serving (internal : Resources) (g : Guests) : Resources :=
  let b := internal.reservations
  { internal with
    constantBuffers := internal.constantBuffers ++
      declared Buffer.guestConstants b.constantBuffers (fun slot => slot) g.constants
    storageBuffers := internal.storageBuffers ++
      declared Buffer.guestWords b.storageBuffers g.storage.idxOf g.storage
    textures := internal.textures ++ declared Texture.guest b.textures g.textures.idxOf g.textures
    images := internal.images ++ declared Texture.guestImage b.images g.images.idxOf g.images
    guestStorage := g.storage
    guestTextures := g.textures
    guestImages := g.images }

namespace Internal

variable (h : internal.Internal)
include h

theorem serving_nil : internal.serving {} = internal := by
  obtain ⟨-, -, -, -, hstor, htexs, himgs⟩ := h
  cases internal
  cases hstor
  cases htexs
  cases himgs
  simp only [serving, declared, map_nil, append_nil]

/-- The step: a resource is declared the first time it is asked for. -/
theorem use_serving (g : Guests) (a : GuestResource) :
    (internal.serving g).use a =
      (a.firstBinding internal.reservations + g.place a, internal.serving (g.add a)) := by
  cases a with
  | constantBuffer slot =>
    have hadd := addNew_declared Buffer.guestConstants (fun slot => slot) slot h.constantBuffers.lt
      (fun _ _ => rfl) fun (x : Nat) (_ : x ∈ g.constants) heq => heq
    exact Prod.ext rfl (congrArg (fun items => { internal.serving g with constantBuffers := items }) hadd)
  | storageBuffer slot =>
    by_cases hslot : slot ∈ g.storage
    · have hcont : g.storage.contains slot := contains_iff_mem.2 hslot
      have hadd : remember slot g.storage = g.storage := if_pos hcont
      refine (if_pos hcont).trans (Prod.ext rfl ?_)
      exact congrArg (fun storage => internal.serving { g with storage }) hadd.symm
    · have hcont : ¬ g.storage.contains slot := hslot ∘ contains_iff_mem.1
      have hadd : remember slot g.storage = g.storage ++ [slot] := if_neg hcont
      have hnew := upsert_declared Buffer.guestWords h.storageBuffers.lt (fun _ _ => rfl) hslot
      rw [← hadd, declared_remember] at hnew
      refine (if_neg hcont).trans (Prod.ext rfl ?_)
      exact congrArg₂ (fun storageBuffers guestStorage => { internal.serving g with storageBuffers, guestStorage })
        hnew hadd.symm
  | texture handle =>
    have hadd := addNew_declared Texture.guest g.textures.idxOf handle h.textures.lt (fun _ _ => rfl)
      fun x hx heq => (idxOf_inj hx).1 heq
    rw [declared_remember] at hadd
    exact Prod.ext rfl
      (congrArg (fun textures => { internal.serving (g.add (.texture handle)) with textures }) hadd)
  | image handle =>
    have hadd := addNew_declared Texture.guestImage g.images.idxOf handle h.images.lt (fun _ _ => rfl)
      fun x hx heq => (idxOf_inj hx).1 heq
    rw [declared_remember] at hadd
    exact Prod.ext rfl (congrArg (fun images => { internal.serving (g.add (.image handle)) with images }) hadd)

/-- The run: a resource has the binding of its place among all that are ever asked for. -/
theorem useAll_serving (g : Guests) (asked : List GuestResource) :
    (internal.serving g).useAll asked =
      (asked.map fun a => (a, a.firstBinding internal.reservations + (asked.foldl Guests.add g).place a),
        internal.serving (asked.foldl Guests.add g)) := by
  induction asked generalizing g with
  | nil => rfl
  | cons a asked ih =>
    obtain ⟨-, hplc⟩ := Guests.place_foldl (Guests.has_add (g := g) a) asked
    simp only [useAll, h.use_serving, ih, map_cons, foldl_cons, hplc, Guests.place_add (.inr rfl)]

theorem distinct_serving (hg : g.Nodup) :
    Distinct Buffer.set Buffer.binding uniform (internal.serving g).constantBuffers ∧
      Distinct Buffer.set Buffer.binding storage (internal.serving g).storageBuffers ∧
      Distinct Texture.set Texture.binding texture (internal.serving g).textures ∧
      Distinct Texture.set Texture.binding image (internal.serving g).images := by
  refine ⟨?_, ?_, ?_, ?_⟩
  · exact h.constantBuffers.declared _ _ (fun _ _ => ⟨rfl, rfl⟩) hg.constants fun _ _ _ _ heq => heq
  · exact h.storageBuffers.declared _ _ (fun _ _ => ⟨rfl, rfl⟩) hg.storage fun _ hx _ _ heq =>
      (idxOf_inj hx).1 heq
  · exact h.textures.declared _ _ (fun _ _ => ⟨rfl, rfl⟩) hg.textures fun _ hx _ _ heq =>
      (idxOf_inj hx).1 heq
  · exact h.images.declared _ _ (fun _ _ => ⟨rfl, rfl⟩) hg.images fun _ hx _ _ heq => (idxOf_inj hx).1 heq

end Internal

theorem Distinct.nodup_pairs {α : Type} {set binding : α → Nat} {items : List α}
    (h : Distinct set binding s items) : (items.map fun x => (set x, binding x)).Nodup :=
  Nodup.of_map Prod.snd (by rw [map_map]; exact h.nodup)

theorem Distinct.fst_eq {α : Type} {set binding : α → Nat} {items : List α}
    (h : Distinct set binding s items) : ∀ pair ∈ items.map fun x => (set x, binding x), pair.1 = s := by
  rw [forall_mem_map]
  exact h.set_eq

theorem Internal.nodup_bindings (h : internal.Internal) (hg : g.Nodup) :
    (internal.serving g).bindings.Nodup := by
  obtain ⟨hconsts, hstor, htexs, himgs⟩ := h.distinct_serving hg
  -- Pairs of different classes differ in the set.
  unfold bindings
  rw [map_append, map_append]
  refine (hconsts.nodup_pairs.append hstor.nodup_pairs fun pair ha hb => ?_).append
    (htexs.nodup_pairs.append himgs.nodup_pairs fun pair ha hb => ?_) fun pair ha hb => ?_
  · exact absurd ((hconsts.fst_eq pair ha).symm.trans (hstor.fst_eq pair hb)) (by decide)
  · exact absurd ((htexs.fst_eq pair ha).symm.trans (himgs.fst_eq pair hb)) (by decide)
  · have hlow := (mem_append.1 ha).imp (hconsts.fst_eq pair) (hstor.fst_eq pair)
    have hhigh := (mem_append.1 hb).imp (htexs.fst_eq pair) (himgs.fst_eq pair)
    simp only [uniform, storage, texture, image] at hlow hhigh
    omega

theorem Internal.foundAt (h : internal.Internal) (hg : g.Nodup) (ha : g.Has a) :
    a.FoundAt (internal.serving g) (a.firstBinding internal.reservations + g.place a) := by
  obtain ⟨hconsts, hstor, htexs, himgs⟩ := h.distinct_serving hg
  cases a with
  | constantBuffer slot => exact hconsts.find?_eq (mem_append_right _ (mem_map.2 ⟨slot, ha, rfl⟩))
  | storageBuffer slot => exact hstor.find?_eq (mem_append_right _ (mem_map.2 ⟨slot, ha, rfl⟩))
  | texture handle => exact htexs.find?_eq (mem_append_right _ (mem_map.2 ⟨handle, ha, rfl⟩))
  | image handle => exact himgs.find?_eq (mem_append_right _ (mem_map.2 ⟨handle, ha, rfl⟩))

/-! What a stage declares before its program is internal. -/

variable {r : Resources}

namespace Internal

variable (h : r.Internal)
include h

theorem addConstantBuffer (hset : b.set = uniform)
    (hlt : b.binding < r.reservations.constantBuffers) : (r.addConstantBuffer b).Internal :=
  { h with constantBuffers := h.constantBuffers.upsert hset hlt }

theorem addStorageBuffer (hset : b.set = storage)
    (hlt : b.binding < r.reservations.storageBuffers) : (r.addStorageBuffer b).Internal :=
  { h with storageBuffers := h.storageBuffers.upsert hset hlt }

theorem addTexture {t : Texture} (hset : t.set = texture)
    (hlt : t.binding < r.reservations.textures) : (r.addTexture t).Internal :=
  { h with textures := h.textures.upsert hset hlt }

theorem beginEmulation (stage : Stage) (topology : InputTopology) :
    (r.beginEmulation stage topology).Internal := by
  cases stage <;> exact { h with }

theorem addFeedback (hf : r.reservations.emulatesFeedback) :
    r.addFeedback.Internal := by
  have hreserved : 5 ≤ r.reservations.storageBuffers := by
    unfold Reservations.storageBuffers Reservations.feedbackStorage
    rw [if_pos hf]
    exact Nat.le_add_right _ _
  rw [addFeedback_eq hf]
  refine ((((h.addStorageBuffer rfl ?_).addStorageBuffer rfl ?_).addStorageBuffer rfl ?_).addStorageBuffer
    rfl ?_).addStorageBuffer rfl ?_
  all_goals exact Nat.lt_of_lt_of_le (by decide) hreserved

theorem foldl_addTexture {added : List Texture}
    (hset : ∀ t ∈ added, t.set = texture) (hlt : ∀ t ∈ added, t.binding < r.reservations.textures) :
    (added.foldl Resources.addTexture r).Internal := by
  induction added generalizing r with
  | nil => exact h
  | cons t added ih =>
    obtain ⟨hset, hrest⟩ := forall_mem_cons.1 hset
    obtain ⟨hlt, hbelow⟩ := forall_mem_cons.1 hlt
    exact ih (h.addTexture hset hlt) hrest hbelow

variable (hr : r.reservations.emulated)
include hr

theorem emulationBase : r.emulationBase.Internal := by
  refine (h.addConstantBuffer rfl ?_).addStorageBuffer rfl ?_
  · change r.reservations.vertexInfo < r.reservations.constantBuffers
    rw [Reservations.vertexInfo, Reservations.constantBuffers, if_pos hr, if_pos hr]
    decide
  · change r.reservations.vertexOutput < r.reservations.storageBuffers
    rw [Reservations.vertexOutput, Reservations.storageBuffers, if_pos hr, if_pos hr]
    omega

theorem addVertexFetch (c : Config) (inputs : UInt32) : (r.addVertexFetch c inputs).Internal := by
  have htexs : r.reservations.textures = 34 := if_pos hr
  rw [addVertexFetch_eq]
  refine h.foldl_addTexture (forall_mem_cons.2 ⟨rfl, forall_mem_map.2 fun _ _ => rfl⟩)
    (forall_mem_cons.2 ⟨?_, forall_mem_map.2 fun location hloc => ?_⟩)
  · change 0 < r.reservations.textures
    omega
  · change r.reservations.vertexBufferBase + location < r.reservations.textures
    have hlt : location < 16 := (Mask.mem_below.1 hloc).1
    rw [Reservations.vertexBufferBase, if_pos hr]
    omega

theorem addGeometryBuffers :
    r.addGeometryBuffers.Internal := by
  have hstor : r.reservations.storageBuffers = r.reservations.feedbackStorage + 3 := by
    rw [Reservations.storageBuffers, if_pos hr]
  refine ((h.addTexture rfl ?_).addStorageBuffer rfl ?_).addStorageBuffer rfl ?_
  · change r.reservations.topologyRemap < r.reservations.textures
    rw [Reservations.topologyRemap, Reservations.textures, if_pos hr, if_pos hr]
    decide
  · change r.reservations.geometryVertexOutput < r.reservations.storageBuffers
    rw [Reservations.geometryVertexOutput, if_pos hr]
    omega
  · change r.reservations.geometryIndexOutput < r.reservations.storageBuffers
    rw [Reservations.geometryIndexOutput, if_pos hr]
    omega

theorem addEmulation (stage : Stage) (c : Config) (inputs : UInt32) : (r.addEmulation stage c inputs).Internal := by
  have hbase := h.emulationBase hr
  cases stage with
  | vertex => exact (hbase.addVertexFetch hr c inputs).beginEmulation .vertex c.inputTopology
  | geometry => exact (hbase.addGeometryBuffers hr).beginEmulation .geometry c.inputTopology
  | compute => exact hbase.beginEmulation .compute c.inputTopology
  | tessControl => exact hbase.beginEmulation .tessControl c.inputTopology
  | tessEvaluation => exact hbase.beginEmulation .tessEvaluation c.inputTopology
  | fragment => exact hbase.beginEmulation .fragment c.inputTopology

end Internal

/-- What requests leave: answers that depend on the key alone, declarations that are
found under the answers, and everything that was there before. -/
structure Serves (r : Resources) (asked : List GuestResource) (answers : List (GuestResource × Nat))
    (last : Resources) : Prop where
  asked_eq : answers.map Prod.fst = asked
  same_iff : ∀ x ∈ answers, ∀ y ∈ answers, x.1.kind = y.1.kind → (x.2 = y.2 ↔ x.1 = y.1)
  unreserved : ∀ x ∈ answers, x.1.firstBinding r.reservations ≤ x.2
  foundAt : ∀ x ∈ answers, x.1.FoundAt last x.2
  nodup_bindings : last.bindings.Nodup
  constantBuffers : r.constantBuffers <+: last.constantBuffers
  storageBuffers : r.storageBuffers <+: last.storageBuffers
  textures : r.textures <+: last.textures
  images : r.images <+: last.images
  memories : last.localMemories = r.localMemories ∧ last.sharedMemories = r.sharedMemories ∧
    last.emulation = r.emulation ∧ last.reservations = r.reservations

theorem Internal.serves (h : r.Internal) (asked : List GuestResource) :
    r.Serves asked (r.useAll asked).1 (r.useAll asked).2 := by
  have hrun := h.useAll_serving {} asked
  rw [h.serving_nil] at hrun
  rw [hrun]
  have hg : (asked.foldl Guests.add {}).Nodup := Guests.nodup_foldl Guests.nodup_empty asked
  have hhas : ∀ a ∈ asked, (asked.foldl Guests.add {}).Has a := fun a ha => Guests.has_foldl ha
  constructor
  case asked_eq => rw [map_map]; exact map_id' asked
  case same_iff =>
    simp only [forall_mem_map]
    intro a ha b _ hkind
    have hfst : a.firstBinding r.reservations = b.firstBinding r.reservations :=
      GuestResource.firstBinding_congr hkind
    rw [hfst, Nat.add_left_cancel_iff]
    exact Guests.place_inj (hhas a ha) hkind
  case unreserved => exact forall_mem_map.2 fun _ _ => Nat.le_add_right _ _
  case foundAt => exact forall_mem_map.2 fun a ha => h.foundAt hg (hhas a ha)
  case nodup_bindings => exact h.nodup_bindings hg
  case memories => exact ⟨rfl, rfl, rfl, rfl⟩
  all_goals exact prefix_append _ _

end Resources

namespace StageContext

variable (s : StageContext) (emulated : Bool)

theorem internal_bareResources : (s.bareResources emulated).Internal := by
  have hfb := (s.reservations_reservationsFor emulated).2
  have hnone : Internal
      { stage := (s.configFor emulated).guestStage, api := s.options.api
        reservations := s.reservationsFor emulated } :=
    ⟨reserved_nil, reserved_nil, reserved_nil, reserved_nil, rfl, rfl, rfl⟩
  unfold bareResources
  dsimp only
  split
  · next hhost => exact hnone.addFeedback (hfb.trans hhost)
  · exact hnone

theorem internal_resources : (s.resources emulated).Internal := by
  rw [resources_eq]
  split
  · next hemu =>
    refine (s.internal_bareResources emulated).addEmulation ?_ _ _ _
    rw [reservations_bareResources, (s.reservations_reservationsFor emulated).1, hemu]
  · exact s.internal_bareResources emulated

/-- Whatever is asked of a stage's resources, bindings are stable, distinct and not
reserved, and what the stage itself declared stays as it is. -/
theorem resources_serve (asked : List GuestResource) : (s.resources emulated).Serves asked
    ((s.resources emulated).useAll asked).1 ((s.resources emulated).useAll asked).2 :=
  (s.internal_resources emulated).serves asked

end StageContext
end ShaderRecompiler
