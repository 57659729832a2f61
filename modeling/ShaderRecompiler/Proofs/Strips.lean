import ShaderRecompiler.Proofs.Handover

/-! Vertices and indices that an emulated geometry stage appends. The code that stands in
the place of an emitted vertex or of the end of a primitive writes to the next places of
the ranges that belong to the primitive, and counts on. -/
namespace ShaderRecompiler

open List Operation GeometryEmulation UInt32

open UInt32 (ofNat)

universe u

variable {e : Emitter} {count indices instanceId primitive vertices : Nat} {op : Operation} {x : PassContext}

/-- No other invocation writes the cell. -/
def Cell.Private (c : Cell) : Prop := c.storage = .localMemory ∨ c.storage = .input ∨ c.storage = .constantBuffer

def counterCell (memory : Nat) : Cell := ⟨.localMemory, [ofNat memory]⟩

namespace Reservations

/-- An element of the buffer of indices that geometry stages fill. -/
def indexCell (r : Reservations) (element : Nat) : Cell :=
  ⟨.storageBuffer, [ofNat r.geometryIndexOutput, 0, ofNat element]⟩

/-- An element of the buffer of vertices that geometry stages fill. -/
def outputCell (r : Reservations) (element : Nat) : Cell :=
  ⟨.storageBuffer, [ofNat r.geometryVertexOutput, 0, ofNat element]⟩

end Reservations

/-- What is appended where a vertex is emitted: its index, and the words of its record. -/
def vertexEntry (c : Config) (r : Reservations) (primitive vertices indices : Nat) (record : Nat → UInt32) :
    List (Cell × UInt32) :=
  (r.indexCell (primitive * c.indexStride + indices), ofNat (primitive * c.maxOutputVertices + vertices)) ::
    (List.range r.outputSize).map fun offset =>
      (r.outputCell ((primitive * c.maxOutputVertices + vertices) * r.outputSize + offset), record offset)

/-- What is appended where a primitive ends: the index that restarts. -/
def restartEntry (c : Config) (r : Reservations) (primitive indices : Nat) : List (Cell × UInt32) :=
  [(r.indexCell (primitive * c.indexStride + indices), 0xffffffff)]

namespace Device

variable {σ : Type u} {w : World} {owns : Cell → Prop} (M : Device σ w owns) {s s' : σ}

/-- The words that code stores to buffers, in order. -/
def written : List Operation → σ → List (Cell × UInt32)
  | [], _ => []
  | op :: ops, s =>
    (if op.isStore .storageBuffer then [(op.target (M.read · s), M.read op.stored s)] else []) ++
      written ops (M.perform op s)

variable {M}

theorem written_append (xs ys : List Operation) (s : σ) :
    M.written (xs ++ ys) s = M.written xs s ++ M.written ys (M.performAll xs s) := by
  induction xs generalizing s with
  | nil => rfl
  | cons x xs ih => rw [cons_append, written, written, ih, append_assoc]; rfl

theorem written_eq_nil (h : ∀ op ∈ code, op.isStore .storageBuffer = false) (s : σ) : M.written code s = [] := by
  induction code generalizing s with
  | nil => rfl
  | cons op code ih =>
    obtain ⟨hop, hcode⟩ := forall_mem_cons.1 h
    rw [written, hop, ih hcode]
    rfl

section Writes

variable {α : Type} {m : Emit α} {Q : α → Emitter → σ → Prop} {log : List (Cell × UInt32)}

/-- What `m` adds to `e`, performed from `s`, writes `log` and ends as `Q` says. -/
def Writes (M : Device σ w owns) (m : Emit α) (e : Emitter) (s : σ) (log : List (Cell × UInt32))
    (Q : α → Emitter → σ → Prop) : Prop :=
  ∃ added, (m.run e).2.ops.toList = e.ops.toList ++ added ∧ M.written added s = log ∧
    Q (m.run e).1 (m.run e).2 (M.performAll added s)

namespace Writes

theorem bind (hm : M.Writes m e s log Q) (hf : ∀ a e' s', Q a e' s' → M.Writes (f a) e' s' log' R) :
    M.Writes (m >>= f) e s (log ++ log') R := by
  obtain ⟨added, hops, hlog, hq⟩ := hm
  obtain ⟨added', hops', hlog', hr⟩ := hf _ _ _ hq
  refine ⟨added ++ added', ?_, ?_, ?_⟩
  · rw [← append_assoc, ← hops]
    exact hops'
  · rw [written_append, hlog, hlog']
  · rw [performAll_append]
    exact hr

theorem of_runs (h : M.Runs m e s Q)
    (hquiet : Emit.Appends 0 (fun op => op.isStore .storageBuffer = false) m S) : M.Writes m e s [] Q := by
  obtain ⟨added, hops, -, hq⟩ := h
  exact ⟨added, hops, written_eq_nil (hquiet.of_append hops) s, hq⟩

theorem after_runs (hm : M.Runs m e s Q) (hquiet : Emit.Appends 0 (fun op => op.isStore .storageBuffer = false) m S)
    (hf : ∀ a e' s', Q a e' s' → M.Writes (f a) e' s' log R) : M.Writes (m >>= f) e s log R :=
  bind (of_runs hm hquiet) hf

theorem mono (h : M.Writes m e s log Q) (hq : ∀ a e' s', Q a e' s' → Q' a e' s') : M.Writes m e s log Q' := by
  obtain ⟨added, hops, hlog, h⟩ := h
  exact ⟨added, hops, hlog, hq _ _ _ h⟩

theorem forM {xs : List α} (logs : α → List (Cell × UInt32))
    (hstart : I e s) (hrnd : ∀ x ∈ xs, ∀ e s, I e s → M.Writes (body x) e s (logs x) fun _ => I) :
    M.Writes (xs.forM body) e s (xs.flatMap logs) fun _ => I := by
  induction xs generalizing e s with
  | nil => exact ⟨[], (append_nil _).symm, rfl, hstart⟩
  | cons x xs ih =>
    apply bind (hrnd x mem_cons_self e s hstart)
    intro _ e' s' h
    exact ih h fun y hy => hrnd y (mem_cons_of_mem _ hy)

theorem store (sources : List Operand) (W : Cell → Prop)
    (hW : W ⟨.storageBuffer, words⟩) (h : Forall₂ (M.Means e s) sources words) (hv : M.Means e s value v) :
    M.Writes (Emit.store .storageBuffer (sources ++ [value])) e s [(⟨.storageBuffer, words⟩, v)] fun _ e' s' =>
      M.Onward W e s e' s' := by
  have htgt : target ⟨.store, .storageBuffer, none, sources ++ [value]⟩ (M.read · s) = ⟨.storageBuffer, words⟩ := by
    rw [target, dropLast_concat, map_read_of_means h]
  refine ⟨[_], Array.toList_push, ?_, Nat.le_refl _, fun o _ => ?_, fun c hc hne => ?_⟩
  · rw [written, if_pos (by simp [isStore]), htgt, ← hv.read]
    simp [written, stored]
  · exact M.read_kept _ o s (by simp)
  · apply M.cell_kept _ c s hc
    rintro - rfl
    exact hne (htgt ▸ hW)

end Writes
end Writes

variable {M : Device σ w Cell.Private} {g : GeometryEmulation} {r : Reservations}

/-- An invocation of an emulated geometry stage works on a primitive of an instance. -/
structure Works (M : Device σ w Cell.Private) (r : Reservations) (count primitive instanceId : Nat) (s : σ) : Prop where
  primitive_eq : M.cell (inputCell .globalInvocationId [0]) s = ofNat primitive
  instance_eq : M.cell (inputCell .globalInvocationId [1]) s = ofNat instanceId
  count_eq : M.cell r.countCell s = ofNat count

theorem Works.congr (h : M.Works r count primitive instanceId s)
    (hcells : ∀ c, c.storage = .input ∨ c.storage = .constantBuffer → M.cell c s' = M.cell c s) :
    M.Works r count primitive instanceId s' where
  primitive_eq := (hcells _ (.inl rfl)).trans h.primitive_eq
  instance_eq := (hcells _ (.inl rfl)).trans h.instance_eq
  count_eq := (hcells _ (.inr rfl)).trans h.count_eq

theorem Works.onward (h : M.Works r count primitive instanceId s)
    (honw : M.Onward W e s e' s') (hW : ∀ c, W c → c.storage ≠ .input ∧ c.storage ≠ .constantBuffer) :
    M.Works r count primitive instanceId s' :=
  h.congr fun c hc => honw.cells c (.inr hc) fun hWc => hc.elim (hW c hWc).1 (hW c hWc).2

theorem runs_primitiveId (h : M.Works g.reservations count primitive instanceId s) :
    M.Runs g.primitiveId e s fun a e' s' => M.Onward (fun _ => False) e s e' s' ∧
      M.Means e' s' a (ofNat (instanceId * count + primitive)) := by
  apply Runs.bind (Runs.load (W := fun _ => False)
    (means_words (.cons (M.means_word ..) .nil)) (.inr (.inr rfl)) h.count_eq)
  rintro n e₁ s₁ ⟨h₁, hn⟩
  have hworks := h.onward h₁ fun _ => False.elim
  apply Runs.bind (Runs.load (W := fun _ => False) (means_words .nil) (.inr (.inl rfl)) hworks.primitive_eq)
  rintro p e₂ s₂ ⟨h₂, hp⟩
  have hworks := hworks.onward h₂ fun _ => False.elim
  apply Runs.bind (Runs.load (W := fun _ => False) (means_words .nil) (.inr (.inl rfl)) hworks.instance_eq)
  rintro i e₃ s₃ ⟨h₃, hi⟩
  refine (Runs.number hi ((hn.mono h₂).mono h₃) (hp.mono h₃)).mono ?_
  rintro a e₄ s₄ ⟨h₄, ha⟩
  refine ⟨((h₁.trans h₂).trans h₃).trans h₄, ?_⟩
  rwa [ofNat_add, ofNat_mul]

theorem runs_nextEntry (h : M.Works g.reservations count primitive instanceId s) (stride : Nat)
    (hn : M.cell (counterCell counter) s = ofNat n) :
    M.Runs (g.nextEntry counter stride) e s fun a e' s' => M.Onward (· = counterCell counter) e s e' s' ∧
      M.Means e' s' a (ofNat ((instanceId * count + primitive) * stride + n)) ∧
      M.cell (counterCell counter) s' = ofNat (n + 1) := by
  have hincr : M.Runs (increment counter) e s fun a e' s' =>
      M.Onward (· = counterCell counter) e s e' s' ∧ M.Means e' s' a (ofNat n) ∧
        M.cell (counterCell counter) s' = ofNat (n + 1) := by
    apply Runs.bind (Runs.load (W := (· = counterCell counter)) (.cons (M.means_word ..) .nil) (.inl rfl) hn)
    rintro old e₁ s₁ ⟨h₁, hold⟩
    apply Runs.bind (Runs.iadd (W := (· = counterCell counter)) hold (M.means_word ..))
    rintro new e₂ s₂ ⟨h₂, hnew⟩
    apply Runs.bind (Runs.store (.cons (M.means_word ..) .nil) hnew (.inl rfl))
    rintro - e₃ s₃ ⟨h₃, hcell⟩
    apply Runs.pure
    refine ⟨(h₁.trans h₂).trans h₃, (hold.mono h₂).mono h₃, hcell.trans ?_⟩
    rw [ofNat_add]
  apply Runs.bind hincr
  rintro old e₁ s₁ ⟨h₁, hold, hcell⟩
  have hworks := h.onward h₁ (by rintro c rfl; simp [counterCell])
  apply Runs.bind (runs_primitiveId hworks)
  rintro p e₂ s₂ ⟨h₂, hp⟩
  refine (Runs.number hp (M.means_word ..) (hold.mono h₂)).mono ?_
  rintro a e₃ s₃ ⟨h₃, ha⟩
  have hrest := h₂.trans h₃
  refine ⟨h₁.trans (hrest.mono fun _ => False.elim), ?_, (hrest.cells _ (.inl rfl) id).trans hcell⟩
  rwa [ofNat_add, ofNat_mul]

/-- Both counters of an invocation, and what it works on. -/
structure Tally (M : Device σ w Cell.Private) (r : Reservations) (count primitive instanceId vertices indices : Nat)
    (s : σ) : Prop extends M.Works r count primitive instanceId s where
  vertices_eq : M.cell (counterCell 2) s = ofNat vertices
  indices_eq : M.cell (counterCell 3) s = ofNat indices

/-- Cells on which an invocation relies. -/
def Watched (c : Cell) : Prop :=
  c.storage = .input ∨ c.storage = .constantBuffer ∨ c = counterCell 2 ∨ c = counterCell 3

theorem Watched.private (h : Watched c) : c.Private := by
  obtain h | h | rfl | rfl := h
  · exact .inr (.inl h)
  · exact .inr (.inr h)
  · exact .inl rfl
  · exact .inl rfl

theorem Tally.congr (h : M.Tally r count primitive instanceId vertices indices s)
    (hcells : ∀ c, Watched c → M.cell c s' = M.cell c s) :
    M.Tally r count primitive instanceId vertices indices s' where
  toWorks := h.toWorks.congr fun c hc => hcells c (hc.imp_right .inl)
  vertices_eq := (hcells _ (.inr (.inr (.inl rfl)))).trans h.vertices_eq
  indices_eq := (hcells _ (.inr (.inr (.inr rfl)))).trans h.indices_eq

theorem Tally.onward (h : M.Tally r count primitive instanceId vertices indices s)
    (honw : M.Onward (fun c => c.storage = .storageBuffer) e s e' s') :
    M.Tally r count primitive instanceId vertices indices s' := by
  refine h.congr fun c hc => honw.cells c hc.private fun hbuf => ?_
  obtain h | h | rfl | rfl := hc
  · cases h.symm.trans hbuf
  · cases h.symm.trans hbuf
  · cases hbuf
  · cases hbuf

end Device

namespace GeometryEmulation

variable (g : GeometryEmulation)

theorem unstored_primitiveId : Emit.Appends 0 (fun op => op.inst ≠ .store) g.primitiveId fun _ => True := by
  refine .bind (.load fun _ _ => by simp) fun _ _ => .bind (.load fun _ _ => by simp) fun _ _ => ?_
  refine .bind (.load fun _ _ => by simp) fun _ _ => .bind (.value fun _ _ => by simp) fun _ _ => ?_
  exact (Emit.Appends.value fun _ _ => by simp).mono fun _ _ => trivial

theorem quiet_nextEntry (counter stride : Nat) :
    Emit.Appends 0 (fun op => op.isStore .storageBuffer = false) (g.nextEntry counter stride) fun _ => True := by
  have hincr : Emit.Appends 0 (fun op => op.isStore .storageBuffer = false) (increment counter) fun _ => True :=
    .bind (.load fun _ _ => rfl) fun _ _ => .bind (.value fun _ _ => rfl) fun _ _ => .bind (.op rfl) fun _ _ =>
      .pure trivial
  refine .bind hincr fun _ _ => .bind (g.unstored_primitiveId.imp fun op hop => ?_) fun _ _ => ?_
  · simp [isStore, hop]
  · exact .bind (.value fun _ _ => rfl) fun _ _ => (Emit.Appends.value fun _ _ => rfl).mono fun _ _ => trivial

end GeometryEmulation

namespace Device

variable {M : Device σ w Cell.Private} {s : σ}

theorem writes_copyWord (g : GeometryEmulation) (hbase : M.Means e s base v) (offset : Nat) :
    M.Writes (g.copyWord base offset) e s
      [(⟨.storageBuffer, [ofNat g.reservations.geometryVertexOutput, 0, v + ofNat offset]⟩,
        M.cell (recordCell g.vertexData offset) s)]
      fun _ e' s' => M.Onward (fun c => c.storage = .storageBuffer) e s e' s' := by
  have hcopy : g.copyWord base offset =
      ((if offset = 0 then pure base else Emit.iadd base (.word offset)) >>= fun place =>
        Emit.load .localMemory [.word g.vertexData, .word offset] >>= fun value =>
        Emit.store .storageBuffer [.word g.reservations.geometryVertexOutput, .word 0, place, value]) := by
    unfold copyWord
    split <;> rfl
  have hplc := Runs.place (W := fun _ => False) hbase offset
  rw [hcopy]
  refine Writes.after_runs hplc (S := fun _ => True) ?_ ?_
  · refine .ite (fun _ => .pure trivial) fun _ => ?_
    exact (Emit.Appends.value fun _ _ => rfl).mono fun _ _ => trivial
  rintro place e₁ s₁ ⟨h₁, hplc⟩
  refine Writes.after_runs (Runs.load (W := fun _ => False) (means_words .nil)
    (.inl rfl) (h₁.cells (recordCell g.vertexData offset) (.inl rfl) id)) (.load fun _ _ => rfl) ?_
  rintro value e₂ s₂ ⟨h₂, hval⟩
  refine (Writes.store [.word g.reservations.geometryVertexOutput, .word 0, place] (·.storage = .storageBuffer) rfl
    (means_words (.cons (hplc.mono h₂) .nil)) hval).mono ?_
  intro _ e₃ s₃ h₃
  exact ((h₁.trans h₂).mono fun _ => False.elim).trans h₃

/-- An emitted vertex is appended. -/
theorem writes_emitVertex (h : M.Tally x.resources.reservations count primitive instanceId vertices indices s) :
    M.Writes (GeometryEmulation.mk x 0 1 2 3).emitVertex e s
      (vertexEntry x.config x.resources.reservations (instanceId * count + primitive) vertices indices
        fun offset => M.cell (recordCell 0 offset) s)
      fun _ _ s' => M.Tally x.resources.reservations count primitive instanceId (vertices + 1) (indices + 1) s' := by
  let g := GeometryEmulation.mk x 0 1 2 3
  refine Writes.after_runs (runs_nextEntry (g := g) h.toWorks _ h.vertices_eq) (g.quiet_nextEntry 2 _) ?_
  rintro vertex e₁ s₁ ⟨h₁, hvtx, hverts⟩
  have hworks := h.toWorks.onward h₁ (by rintro c rfl; simp [counterCell])
  have hidxs := (h₁.cells (counterCell 3) (.inl rfl) (by simp [counterCell])).trans h.indices_eq
  refine Writes.after_runs (runs_nextEntry (g := g) hworks _ hidxs) (g.quiet_nextEntry 3 _) ?_
  rintro index e₂ s₂ ⟨h₂, hidx, hidxs'⟩
  have hworks := hworks.onward h₂ (by rintro c rfl; simp [counterCell])
  have hverts' := (h₂.cells (counterCell 2) (.inl rfl) (by simp [counterCell])).trans hverts
  refine Writes.bind (Writes.store [.word g.reservations.geometryIndexOutput, .word 0, index]
    (·.storage = .storageBuffer) rfl (means_words (.cons hidx .nil)) (hvtx.mono h₂)) ?_
  intro _ e₃ s₃ h₃
  refine Writes.after_runs (Runs.imul (W := fun _ => False) ((hvtx.mono h₂).mono h₃) (M.means_word ..))
    (.value fun _ _ => rfl) ?_
  rintro base e₄ s₄ ⟨h₄, hbase⟩
  have hrec : ∀ offset, M.cell (recordCell 0 offset) s₄ = M.cell (recordCell 0 offset) s := by
    intro offset
    rw [h₄.cells _ (.inl rfl) id, h₃.cells _ (.inl rfl) (by simp [recordCell]),
      h₂.cells _ (.inl rfl) (by simp [recordCell, counterCell]),
      h₁.cells _ (.inl rfl) (by simp [recordCell, counterCell])]
  have htally : M.Tally x.resources.reservations count primitive instanceId (vertices + 1) (indices + 1) s₄ :=
    (Tally.onward ⟨hworks, hverts', hidxs'⟩ h₃).onward (h₄.mono fun _ => False.elim)
  have hrnd : ∀ offset ∈ List.range g.reservations.outputSize, ∀ e' s',
      M.Onward (fun c => c.storage = .storageBuffer) e₄ s₄ e' s' → M.Writes (g.copyWord base offset) e' s'
        [(x.resources.reservations.outputCell
          (((instanceId * count + primitive) * x.config.maxOutputVertices + vertices) * g.reservations.outputSize + offset),
          M.cell (recordCell 0 offset) s)]
        fun _ => M.Onward (fun c => c.storage = .storageBuffer) e₄ s₄ := by
    intro offset _ e' s' honw
    have hwrites := writes_copyWord g (hbase.mono honw) offset
    rw [← UInt32.ofNat_mul, ← UInt32.ofNat_add, honw.cells _ (.inl rfl) (by simp [recordCell])] at hwrites
    rw [← hrec]
    exact hwrites.mono fun _ _ _ h => honw.trans h
  rw [List.map_eq_flatMap]
  exact (Writes.forM _ (.refl e₄ s₄) hrnd).mono fun _ e' s' honw => htally.onward honw

theorem writes_endPrimitive (h : M.Tally x.resources.reservations count primitive instanceId vertices indices s) :
    M.Writes (GeometryEmulation.mk x 0 1 2 3).endPrimitive e s
      (restartEntry x.config x.resources.reservations (instanceId * count + primitive) indices)
      fun _ _ s' => M.Tally x.resources.reservations count primitive instanceId vertices (indices + 1) s' := by
  let g := GeometryEmulation.mk x 0 1 2 3
  refine Writes.after_runs (runs_nextEntry (g := g) h.toWorks _ h.indices_eq) (g.quiet_nextEntry 3 _) ?_
  rintro index e₁ s₁ ⟨h₁, hidx, hidxs⟩
  have hworks := h.toWorks.onward h₁ (by rintro c rfl; simp [counterCell])
  have hverts := (h₁.cells (counterCell 2) (.inl rfl) (by simp [counterCell])).trans h.vertices_eq
  refine (Writes.store [.word g.reservations.geometryIndexOutput, .word 0, index] (·.storage = .storageBuffer) rfl
    (means_words (.cons hidx .nil)) (M.means_constant ..)).mono ?_
  intro _ e₂ s₂ h₂
  exact Tally.onward ⟨hworks, hverts, hidxs⟩ h₂

end Device

/-! Everything else stores elsewhere. -/

/-- Stores go to blocks of local memory in `L`, to buffers in `G` or to outputs. -/
structure Operation.Elsewhere (L G : Nat → Prop) (op : Operation) : Prop where
  block : op.isStore .localMemory → ∃ n rest, rest ≠ [] ∧ op.sources = .word n :: rest ∧ L n
  buffer : op.isStore .storageBuffer → ∃ n rest, rest ≠ [] ∧ op.sources = .word n :: rest ∧ G n
  input : op.isStore .input = false
  constant : op.isStore .constantBuffer = false

namespace Operation.Elsewhere

theorem of_ne (h : op.inst ≠ .store) : op.Elsewhere L G := by
  refine ⟨fun hstore => ?_, fun hstore => ?_, ?_, ?_⟩
  · simp [isStore, h] at hstore
  · simp [isStore, h] at hstore
  · simp [isStore, h]
  · simp [isStore, h]

theorem output {dest : Option Operand} {sources : List Operand} {storage : Storage}
    (h : storage = .output ∨ storage = .outputPerPatch ∨ storage = .sharedMemory) :
    Elsewhere L G ⟨.store, storage, dest, sources⟩ := by
  obtain rfl | rfl | rfl := h <;> exact ⟨fun h => (by cases h), fun h => (by cases h), rfl, rfl⟩

theorem memory (h : L n) (a : Operand) (rest : List Operand) :
    Elsewhere L G ⟨.store, .localMemory, none, .word n :: a :: rest⟩ :=
  ⟨fun _ => ⟨n, _, cons_ne_nil a rest, rfl, h⟩, fun h => (by cases h), rfl, rfl⟩

theorem storage (h : G n) (a : Operand) (rest : List Operand) :
    Elsewhere L G ⟨.store, .storageBuffer, none, .word n :: a :: rest⟩ :=
  ⟨fun h => (by cases h), fun _ => ⟨n, _, cons_ne_nil a rest, rfl, h⟩, rfl, rfl⟩

theorem mono (h : op.Elsewhere L G) (hL : ∀ n, L n → L' n) (hG : ∀ n, G n → G' n) : op.Elsewhere L' G' where
  block hstore := by
    obtain ⟨n, rest, hrest, hsrc, hn⟩ := h.block hstore
    exact ⟨n, rest, hrest, hsrc, hL n hn⟩
  buffer hstore := by
    obtain ⟨n, rest, hrest, hsrc, hn⟩ := h.buffer hstore
    exact ⟨n, rest, hrest, hsrc, hG n hn⟩
  input := h.input
  constant := h.constant

end Operation.Elsewhere

namespace Device

variable {M : Device σ w owns}

theorem target_eq_cons (hrest : rest ≠ []) (h : op.sources = .word n :: rest) (s : σ) :
    ∃ words, op.target (M.read · s) = ⟨op.storage, ofNat n :: words⟩ := by
  obtain ⟨a, rest, rfl⟩ := exists_cons_of_ne_nil hrest
  exact ⟨_, by rw [target, h, dropLast_cons_cons, map_cons, (M.means_word {} s n).read]⟩

theorem cell_input (h : op.Elsewhere L G) (howns : owns c)
    (hc : c.storage = .input ∨ c.storage = .constantBuffer) (s : σ) : M.cell c (M.perform op s) = M.cell c s := by
  refine M.cell_kept op c s howns ?_
  rintro hstore rfl
  have hc : op.storage = .input ∨ op.storage = .constantBuffer := hc
  have hinp := h.input
  have hconst := h.constant
  obtain hc | hc := hc <;> simp [isStore, hstore, hc] at hinp hconst

theorem cell_watched {M : Device σ w Cell.Private} (hL : ∀ n, L n → ofNat n ≠ 2 ∧ ofNat n ≠ 3)
    (h : op.Elsewhere L G) (hc : Watched c) (s : σ) : M.cell c (M.perform op s) = M.cell c s := by
  obtain hc | hc | hctr := hc
  · exact cell_input h (.inr (.inl hc)) (.inl hc) s
  · exact cell_input h (.inr (.inr hc)) (.inr hc) s
  · refine M.cell_kept op c s (by obtain rfl | rfl := hctr <;> exact .inl rfl) ?_
    rintro hstore rfl
    have hstor : op.storage = .localMemory := by obtain h | h := hctr <;> exact congrArg Cell.storage h
    obtain ⟨n, rest, hrest, hsrc, hn⟩ := h.block (by simp [isStore, hstore, hstor])
    obtain ⟨words, htgt⟩ := target_eq_cons (M := M) hrest hsrc s
    rw [htgt] at hctr
    obtain hword | hword := hctr
    · exact (hL n hn).1 (cons.inj (congrArg Cell.address hword)).1
    · exact (hL n hn).2 (cons.inj (congrArg Cell.address hword)).1

theorem performAll_congr {W : Cell → Prop}
    (h : ∀ op ∈ code, ∀ c, W c → ∀ s, M.cell c (M.perform op s) = M.cell c s) (hc : W c) (s : σ) :
    M.cell c (M.performAll code s) = M.cell c s := by
  induction code generalizing s with
  | nil => rfl
  | cons op code ih =>
    obtain ⟨hop, hcode⟩ := forall_mem_cons.1 h
    exact (ih hcode (M.perform op s)).trans (hop c hc s)

theorem written_elsewhere (h : ∀ op ∈ code, op.Elsewhere L G) (s : σ) :
    ∀ entry ∈ M.written code s, ∃ n, G n ∧ entry.1.address.head? = some (ofNat n) := by
  induction code generalizing s with
  | nil => simp [written]
  | cons op code ih =>
    obtain ⟨hop, hcode⟩ := forall_mem_cons.1 h
    rw [written]
    refine forall_mem_append.2 ⟨?_, ih hcode _⟩
    split
    · next hstore =>
      obtain ⟨n, rest, hrest, hsrc, hn⟩ := hop.buffer hstore
      obtain ⟨words, htgt⟩ := target_eq_cons (M := M) hrest hsrc s
      rw [forall_mem_singleton, htgt]
      exact ⟨n, hn, rfl⟩
    · simp

end Device

namespace GeometryEmulation

variable (hmemory : x.resources.emulation = some (.geometry 0 1 2 3))

include hmemory

theorem quiet_expandInput (hload : op.isLoad .input) :
    Emit.Appends 0 (fun o => o.inst ≠ .store) ((mk x 0 1 2 3).expandInput op) fun v => v.Passes op := by
  have hdecides := @decides_expandInput ⟨x, 0, 1, 2, 3⟩ (.memories fun _ => False) op hmemory hload
  exact hdecides.appends.imp fun _ ho => ho.beside.stores

/-- The pass moves stores into the record at most. -/
theorem elsewhere_piece (hL : L 0) (hop : op.Elsewhere L G) (hemit : op.inst ≠ .emitVertex)
    (hend : op.inst ≠ .endPrimitive) (ids : Ids) : ∀ o ∈ (expansion x).piece ids op, o.Elsewhere L G := by
  have hems := emulates_aside hmemory (by decide) (by decide)
  by_cases haway : op.isAway
  · have hload := (isAway_iff.1 haway).resolve_right fun h => h.elim hemit hend
    have happends := quiet_expandInput hmemory hload
    rw [← expansion_of_load hmemory hload] at happends
    obtain ⟨added, verdict, hpiece, hadd, hver⟩ := happends.piece (Nat.zero_le ids.temps)
    rw [hpiece]
    refine forall_mem_append.2 ⟨fun o ho => .of_ne (hadd o ho), fun o ho => ?_⟩
    obtain rfl | hleaves := hver
    · cases ho
    · obtain rfl : o = op := by simpa [hleaves.kept] using ho
      exact hop
  · have haway : op.isAway = false := by simpa using haway
    by_cases hacc : op.accessesOutput
    · rw [Expansion.piece, hems.output op hacc]
      cases hoff : op.recordOffset? x.resources.reservations .output with
      | none =>
        rw [expandOutput_none hmemory hoff]
        exact forall_mem_singleton.2 hop
      | some offset =>
        rw [expandOutput_some hmemory rfl hoff]
        refine forall_mem_singleton.2 ?_
        unfold recorded
        split
        · exact .memory hL _ _
        · exact .of_ne (by simp)
    · rw [Expansion.piece, hems.other op haway (by simpa using hacc)]
      exact forall_mem_singleton.2 hop

end GeometryEmulation

namespace Device

variable {M : Device σ w Cell.Private} {s : σ}

theorem written_dropped {expand : Expansion} (hcode : code = expand.piece ids op)
    (hm : M.Writes m { ids } s log fun _ _ => Q)
    (hexp : expand op = m >>= fun _ => pure .drop) : M.written code s = log ∧ Q (M.performAll code s) := by
  obtain ⟨added, hadd, h⟩ := hm
  obtain rfl : code = added := by
    rw [hcode, Expansion.piece, hexp]
    exact (append_nil _).trans hadd
  exact h

variable (hmemory : x.resources.emulation = some (.geometry 0 1 2 3))
  (h : M.Tally x.resources.reservations count primitive instanceId vertices indices s)
include hmemory h

theorem tally_elsewhere {code : List Operation} (hcode : code = (expansion x).piece ids op)
    (hL : ∀ n, L n → ofNat n ≠ 2 ∧ ofNat n ≠ 3) (hzero : L 0) (hop : op.Elsewhere L G)
    (hemit : op.inst ≠ .emitVertex) (hend : op.inst ≠ .endPrimitive) :
    (∀ entry ∈ M.written code s, ∃ n, G n ∧ entry.1.address.head? = some (ofNat n)) ∧
      M.Tally x.resources.reservations count primitive instanceId vertices indices (M.performAll code s) := by
  have hpiece := elsewhere_piece hmemory hzero hop hemit hend ids
  rw [← hcode] at hpiece
  refine ⟨written_elsewhere hpiece s, h.congr fun c hc => ?_⟩
  exact performAll_congr (fun o ho c hc s => cell_watched hL (hpiece o ho) hc s) hc s

end Device
end ShaderRecompiler
