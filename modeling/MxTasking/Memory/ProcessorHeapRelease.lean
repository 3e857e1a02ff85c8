import MxTasking.Memory.ProcessorHeap

/-!
# The memory of a processor heap and its release

The lifetime of a `ProcessorHeap` of `fixed_size_allocator.h`: it is default-constructed as an
entry of `_processor_heaps`, `Allocator` assigns a constructed heap to it and destroys the one it
was moved from, cores allocate from it, and its destructor gives the memory back.

A region of `GlobalHeap` is cut into 128 chunks of which the first one is flagged; a refill moves
the chunks of the buffer to `_allocated_chunks`, and the destructor frees the flagged chunks
of both.  So every region is freed once, at its base and on its node, whatever the cores did; but it
is freed as a single chunk, with a size of `Chunk::size()`.

## Main results

* `Owned.step` — a refill loses no region and keeps none twice.
* `Lifetime.regions_of_run` — the bases and nodes that are freed are those that were allocated.
* `Lifetime.returns_iff` — the sizes are right only where there is no region.
-/

namespace MxTasking.Memory.Fixed

namespace Chunk

/-- `operator bool`. -/
def toBool (c : Chunk) : Bool := c.memory != 0 && c.isAllocated

/-- `Chunk{}`. -/
def null : Chunk := ⟨0, true⟩

end Chunk

namespace ProcessorHeap

/-! ## Regions in the buffer and in the list -/

/-- The memory of the chunks that the destructor frees. -/
def flagged (cs : List Chunk) : List Nat := (cs.filter Chunk.toBool).map Chunk.memory

/-- The buffer has the chunks of the memory at `base`. -/
def BufferIs (s : State) (base : Nat) : Prop := ∀ j < chunks, s.freeChunkBuffer j = chunkAt base j

/-- What a core knows that refills the buffer. -/
def CoreOwns (s : State) : Core → Prop
  | .moving i => i ≤ chunks ∧ ∃ base, 0 < base ∧ BufferIs s base ∧
      ((if i = 0 then [base] else []) ++ flagged s.allocatedChunks).Perm s.bases
  | .writing base i => i ≤ chunks ∧ 0 < base ∧ (∀ j < i, s.freeChunkBuffer j = chunkAt base j) ∧
      (base :: flagged s.allocatedChunks).Perm s.bases
  | .filled => ∃ base, 0 < base ∧ BufferIs s base ∧
      (base :: flagged s.allocatedChunks).Perm s.bases
  | _ => True

/-- Every region is in the list or in the buffer, or a core is about to put it there. -/
structure Owned (s : State) : Prop where
  flag : ∀ c, (s.cores c).Filling → s.fillBufferFlag = true
  filling : ∀ c c', (s.cores c).Filling → (s.cores c').Filling → c = c'
  core : ∀ c, CoreOwns s (s.cores c)
  idle : (∀ c, ¬ (s.cores c).Filling) → CoreOwns s .filled
  apart : s.bases.Pairwise Apart

theorem coreOwns_of_not_filling {s : State} {q : Core} (h : ¬ q.Filling) : CoreOwns s q := by
  cases q with
  | moving i => exact absurd trivial h
  | writing base i => exact absurd trivial h
  | filled => exact absurd trivial h
  | _ => trivial

theorem flagged_append (cs : List Chunk) (c : Chunk) :
    flagged (cs ++ [c]) = flagged cs ++ if c.toBool then [c.memory] else [] := by
  unfold flagged
  rw [List.filter_append, List.map_append]
  by_cases hFlag : c.toBool = true
  · simp [hFlag]
  · simp [hFlag]

theorem toBool_chunkAt {base : Nat} (hBase : 0 < base) (i : Nat) :
    (chunkAt base i).toBool = decide (i = 0) := by
  by_cases hi : i = 0
  · subst hi
    simp [chunkAt, Chunk.toBool, address]
    omega
  · simp [chunkAt, Chunk.toBool, hi]

namespace Owned

variable {s s' : State} {c base : Nat} {q : Core}

theorem initial (hFresh : Fresh [] base) : Owned (State.initial base) where
  flag := fun _ h => absurd h id
  filling := fun _ _ h => absurd h id
  core := fun _ => trivial
  idle := fun _ => ⟨base, hFresh.1, fun _ _ => rfl, List.Perm.refl _⟩
  apart := List.pairwise_singleton _ _

/-- A core that is not refilling goes on, and does not start to. -/
theorem other (h : Owned s) (hCores : s'.cores = Function.update s.cores c q)
    (hFlag : s'.fillBufferFlag = s.fillBufferFlag)
    (hBuffer : s'.freeChunkBuffer = s.freeChunkBuffer)
    (hAllocated : s'.allocatedChunks = s.allocatedChunks) (hBases : s'.bases = s.bases)
    (hOld : ¬ (s.cores c).Filling) (hNew : ¬ q.Filling) : Owned s' := by
  have hFilling (c' : Nat) : (s'.cores c').Filling ↔ (s.cores c').Filling := by
    rw [hCores]
    by_cases hEq : c' = c
    · subst hEq
      rw [Function.update_self]
      exact iff_of_false hNew hOld
    · rw [Function.update_of_ne hEq]
  have hSame (q' : Core) (hOwns : CoreOwns s q') : CoreOwns s' q' := by
    cases q' with
    | moving i =>
        unfold CoreOwns BufferIs at *
        rwa [hBuffer, hAllocated, hBases]
    | writing b i =>
        unfold CoreOwns at *
        rwa [hBuffer, hAllocated, hBases]
    | filled =>
        unfold CoreOwns BufferIs at *
        rwa [hBuffer, hAllocated, hBases]
    | _ => trivial
  refine ⟨fun c' hc' => ?_, fun c₁ c₂ h₁ h₂ => ?_, fun c' => ?_, fun hIdle => ?_, ?_⟩
  · rw [hFlag]
    exact h.flag c' ((hFilling c').mp hc')
  · exact h.filling c₁ c₂ ((hFilling c₁).mp h₁) ((hFilling c₂).mp h₂)
  · by_cases hc' : (s'.cores c').Filling
    · have hne : c' ≠ c := by
        rintro rfl
        exact hOld ((hFilling c').mp hc')
      rw [hCores, Function.update_of_ne hne]
      exact hSame _ (h.core c')
    · exact coreOwns_of_not_filling hc'
  · exact hSame _ (h.idle fun c' hc' => hIdle c' ((hFilling c').mpr hc'))
  · rw [hBases]
    exact h.apart

/-- The core that is refilling goes on with it, or one starts to. -/
theorem refill (hCores : s'.cores = Function.update s.cores c q)
    (hOthers : ∀ c', c' ≠ c → ¬ (s.cores c').Filling) (hFlag : s'.fillBufferFlag = true)
    (hFilling : q.Filling) (hOwns : CoreOwns s' q) (hApart : s'.bases.Pairwise Apart) :
    Owned s' := by
  have hOnly (c' : Nat) (hc' : (s'.cores c').Filling) : c' = c := by
    by_contra hne
    rw [hCores, Function.update_of_ne hne] at hc'
    exact hOthers c' hne hc'
  refine ⟨fun _ _ => hFlag, fun c₁ c₂ h₁ h₂ => (hOnly c₁ h₁).trans (hOnly c₂ h₂).symm,
    fun c' => ?_, fun hIdle => ?_, hApart⟩
  · by_cases hEq : c' = c
    · subst hEq
      rw [hCores, Function.update_self]
      exact hOwns
    · refine coreOwns_of_not_filling fun hc' => hEq (hOnly c' hc')
  · refine absurd ?_ (hIdle c)
    rw [hCores, Function.update_self]
    exact hFilling

/-- One step of a core. -/
theorem step {ev : Event} (h : Owned s) (hStep : Step s ev s') : Owned s' := by
  have hOthers {c : Nat} (hc : (s.cores c).Filling) (c' : Nat) (hne : c' ≠ c) :
      ¬ (s.cores c').Filling := fun hc' => hne (h.filling c' c hc' hc)
  cases hStep with
  | fetch c hCore hAt => exact h.other rfl rfl rfl rfl rfl (by rw [hAt]; exact id) id
  | read c i hAt hi => exact h.other rfl rfl rfl rfl rfl (by rw [hAt]; exact id) id
  | loseFlag c i hAt hi hFlag => exact h.other rfl rfl rfl rfl rfl (by rw [hAt]; exact id) id
  | wait c hAt hFlag => exact h.other rfl rfl rfl rfl rfl (by rw [hAt]; exact id) id
  | winFlag c i hAt hi hFlag =>
      have hNone (c' : Nat) : ¬ (s.cores c').Filling := by
        intro hc'
        rw [h.flag c' hc'] at hFlag
        cases hFlag
      obtain ⟨base, hBase, hBuffer, hPerm⟩ := h.idle hNone
      exact refill rfl (fun c' _ => hNone c') rfl trivial
        ⟨Nat.zero_le _, base, hBase, hBuffer, hPerm⟩ h.apart
  | move c i hAt hi =>
      have hc : (s.cores c).Filling := by rw [hAt]; trivial
      have hOwns := h.core c
      rw [hAt] at hOwns
      obtain ⟨-, base, hBase, hBuffer, hPerm⟩ := hOwns
      refine refill rfl (hOthers hc) (h.flag c hc) trivial ⟨hi, base, hBase, hBuffer, ?_⟩ h.apart
      show ((if i + 1 = 0 then [base] else []) ++
        flagged (s.allocatedChunks ++ [s.freeChunkBuffer i])).Perm s.bases
      rw [if_neg (Nat.succ_ne_zero i), List.nil_append, flagged_append, hBuffer i hi,
        toBool_chunkAt hBase]
      by_cases hZero : i = 0
      · subst hZero
        have hMemory : (chunkAt base 0).memory = base := by simp [chunkAt, address]
        rw [if_pos rfl] at hPerm
        rw [if_pos (decide_eq_true rfl), hMemory]
        exact List.perm_append_comm.trans hPerm
      · rw [if_neg hZero] at hPerm
        rw [if_neg (by simpa using hZero), List.append_nil]
        exact hPerm
  | globalAllocate c base hAt hFresh =>
      have hc : (s.cores c).Filling := by rw [hAt]; trivial
      have hOwns := h.core c
      rw [hAt] at hOwns
      obtain ⟨-, old, -, -, hPerm⟩ := hOwns
      rw [if_neg (by decide), List.nil_append] at hPerm
      exact refill rfl (hOthers hc) (h.flag c hc) trivial
        ⟨Nat.zero_le _, hFresh.1, fun j hj => absurd hj (Nat.not_lt_zero j), hPerm.cons base⟩
        (List.pairwise_cons.mpr ⟨hFresh.2.2, h.apart⟩)
  | write c base i hAt hi =>
      have hc : (s.cores c).Filling := by rw [hAt]; trivial
      have hOwns := h.core c
      rw [hAt] at hOwns
      obtain ⟨-, hBase, hWritten, hPerm⟩ := hOwns
      refine refill rfl (hOthers hc) (h.flag c hc) trivial ⟨hi, hBase, fun j hj => ?_, hPerm⟩
        h.apart
      show Function.update s.freeChunkBuffer i (chunkAt base i) j = chunkAt base j
      by_cases hEq : j = i
      · rw [hEq, Function.update_self]
      · rw [Function.update_of_ne hEq]
        exact hWritten j (by omega)
  | reset c base hAt =>
      have hc : (s.cores c).Filling := by rw [hAt]; trivial
      have hOwns := h.core c
      rw [hAt] at hOwns
      obtain ⟨-, hBase, hWritten, hPerm⟩ := hOwns
      exact refill rfl (hOthers hc) (h.flag c hc) trivial ⟨base, hBase, hWritten, hPerm⟩ h.apart
  | clearFlag c hAt =>
      have hc : (s.cores c).Filling := by rw [hAt]; trivial
      have hOwns := h.core c
      rw [hAt] at hOwns
      have hNone (c' : Nat) : ¬ (Function.update s.cores c .ready c').Filling := by
        by_cases hEq : c' = c
        · subst hEq
          rw [Function.update_self]
          exact id
        · rw [Function.update_of_ne hEq]
          exact hOthers hc c' hEq
      exact ⟨fun c' hc' => absurd hc' (hNone c'), fun c₁ _ h₁ => absurd h₁ (hNone c₁),
        fun c' => coreOwns_of_not_filling (hNone c'), fun _ => hOwns, h.apart⟩

end Owned

/-! ## The lifetime of a heap -/

/-- Memory of `GlobalHeap`. -/
structure Region where
  base : Nat
  numaNodeId : Nat
  size : Nat
  deriving DecidableEq, Repr

/-- A heap, and the calls of `GlobalHeap::allocate` and `GlobalHeap::free` that were made for it. -/
structure Lifetime where
  numaNodeId : Nat
  heap : State
  allocations : List Region
  frees : List Region
  destroyed : Bool

inductive LifetimeEvent where
  | assign (numaNodeId base : Nat)
  | core (event : Event)
  | destroy
  deriving DecidableEq, Repr

/-- `std::numeric_limits<std::uint8_t>::max()`. -/
def noNode : Nat := 255

/-- `memory::config::max_numa_nodes()`, the number of processor heaps. -/
def countHeaps : Nat := 8

/-- `fill_buffer` allocates a region for all chunks of the buffer. -/
def allocated (numaNodeId base : Nat) : Region := ⟨base, numaNodeId, Chunk.size * chunks⟩

/-- `GlobalHeap::free(allocated_chunk, Chunk::size(), _numa_node_id)`. -/
def freed (numaNodeId base : Nat) : Region := ⟨base, numaNodeId, Chunk.size⟩

/-- The calls of `GlobalHeap::free` in `~ProcessorHeap()`. -/
def destructor (maxNodeId numaNodeId : Nat) (allocatedChunks : List Chunk)
    (freeChunkBuffer : Nat → Chunk) : List Region :=
  if maxNodeId < numaNodeId then []
  else
    (flagged allocatedChunks ++ flagged ((List.range chunks).map freeChunkBuffer)).map
      (freed numaNodeId)

/-- The call of `GlobalHeap::allocate` that a step of a core makes. -/
def obtained (numaNodeId : Nat) (s' : State) : Event → List Region
  | .globalAllocate _ => s'.bases.head?.toList.map (allocated numaNodeId)
  | _ => []

namespace Lifetime

/-- `ProcessorHeap()`. -/
def initial : Lifetime where
  numaNodeId := noNode
  heap := { State.initial 0 with freeChunkBuffer := fun _ => Chunk.null, bases := [] }
  allocations := []
  frees := []
  destroyed := false

/-- `_processor_heaps[node_id] = ProcessorHeap{node_id}`: a heap is constructed, moved and, without
its node and its chunks, destroyed. -/
def assign (maxNodeId : Nat) (l : Lifetime) (numaNodeId base : Nat) : Lifetime :=
  { l with
    numaNodeId := numaNodeId
    heap := State.initial base
    allocations := l.allocations ++ [allocated numaNodeId base]
    frees := l.frees ++ destructor maxNodeId noNode [] fun _ => Chunk.null }

def destroy (maxNodeId : Nat) (l : Lifetime) : Lifetime :=
  { l with
    frees := l.frees ++
      destructor maxNodeId l.numaNodeId l.heap.allocatedChunks l.heap.freeChunkBuffer
    destroyed := true }

end Lifetime

/-- What is done with one of the heaps of an `Allocator`. -/
inductive LifetimeStep (maxNodeId : Nat) : Lifetime → LifetimeEvent → Lifetime → Prop where
  | assign {l : Lifetime} {numaNodeId base : Nat} (hAlive : l.destroyed = false)
      (hDefault : l.numaNodeId = noNode) (hNode : numaNodeId ≤ maxNodeId)
      (hIndex : numaNodeId < countHeaps) (hFresh : Fresh [] base) :
      LifetimeStep maxNodeId l (.assign numaNodeId base) (l.assign maxNodeId numaNodeId base)
  | core {l : Lifetime} {event : Event} {s' : State} (hAlive : l.destroyed = false)
      (hAssigned : l.numaNodeId ≠ noNode) (hStep : Step l.heap event s') :
      LifetimeStep maxNodeId l (.core event)
        { l with heap := s', allocations := l.allocations ++ obtained l.numaNodeId s' event }
  /-- No core is in `allocate` any more. -/
  | destroy {l : Lifetime} (hAlive : l.destroyed = false)
      (hReady : ∀ c, l.heap.cores c = .ready) :
      LifetimeStep maxNodeId l .destroy (l.destroy maxNodeId)

namespace Lifetime

/-- Every region is freed once with its base, its node and its size, and nothing else is. -/
def Returns (l : Lifetime) : Prop :=
  l.frees.Perm l.allocations ∧ (l.allocations.map Region.base).Nodup

/-- The same without the size. -/
def ReturnsBases (l : Lifetime) : Prop :=
  (l.frees.map fun r => (r.base, r.numaNodeId)).Perm
      (l.allocations.map fun r => (r.base, r.numaNodeId)) ∧
    (l.allocations.map Region.base).Nodup

/-- No heap has been assigned: the node has no core in the core set. -/
def NeverAssigned (es : List LifetimeEvent) : Prop :=
  ∀ numaNodeId base, .assign numaNodeId base ∉ es

/-- Before the destructor: nothing is freed, and the regions are those of the heap. -/
inductive Alive (maxNodeId : Nat) (es : List LifetimeEvent) (l : Lifetime) : Prop where
  | default (hSame : l = initial) (hNever : NeverAssigned es)
  | assigned (hFrees : l.frees = []) (hNode : l.numaNodeId ≠ noNode)
      (hMax : l.numaNodeId ≤ maxNodeId) (hOwned : Owned l.heap)
      (hRegions : l.allocations.Perm (l.heap.bases.map (allocated l.numaNodeId)))
      (hSome : ¬ NeverAssigned es)

/-- After it. -/
inductive Dead (es : List LifetimeEvent) (l : Lifetime) : Prop where
  | default (hFrees : l.frees = []) (hAllocations : l.allocations = []) (hNever : NeverAssigned es)
  | assigned (node : Nat) (bases : List Nat) (hNodup : bases.Nodup) (hPos : bases ≠ [])
      (hFrees : l.frees.Perm (bases.map (freed node)))
      (hAllocations : l.allocations.Perm (bases.map (allocated node)))
      (hSome : ¬ NeverAssigned es)

theorem NeverAssigned.snoc {es : List LifetimeEvent} {e : LifetimeEvent} (h : NeverAssigned es)
    (he : ∀ numaNodeId base, e ≠ .assign numaNodeId base) : NeverAssigned (es ++ [e]) := by
  intro numaNodeId base hMem
  rcases List.mem_append.mp hMem with hOld | hNew
  · exact h numaNodeId base hOld
  · exact he numaNodeId base (List.mem_singleton.mp hNew).symm

theorem not_neverAssigned_snoc {es : List LifetimeEvent} {e : LifetimeEvent}
    (h : ¬ NeverAssigned es) : ¬ NeverAssigned (es ++ [e]) :=
  fun hNever => h fun numaNodeId base hMem => hNever numaNodeId base (List.mem_append_left _ hMem)

/-- A heap that has no chunks frees nothing. -/
theorem destructor_default (maxNodeId : Nat) :
    destructor maxNodeId noNode [] (fun _ => Chunk.null) = [] := by
  unfold destructor
  split
  · rfl
  · have hNone : flagged ((List.range chunks).map fun _ => Chunk.null) = [] := by
      unfold flagged
      rw [List.map_eq_nil_iff, List.filter_eq_nil_iff]
      intro c hc
      obtain ⟨-, -, rfl⟩ := List.mem_map.mp hc
      decide
    rw [hNone]
    rfl

/-- The flagged chunk of the buffer is its first one. -/
theorem flagged_buffer {s : State} {base : Nat} (hBase : 0 < base) (hBuffer : BufferIs s base) :
    flagged ((List.range chunks).map s.freeChunkBuffer) = [base] := by
  have hMap : (List.range chunks).map s.freeChunkBuffer = (List.range chunks).map (chunkAt base) :=
    List.map_congr_left fun j hj => hBuffer j (List.mem_range.mp hj)
  have hRange : List.range chunks = 0 :: (List.range 127).map (· + 1) := by decide
  have hRest : ((List.range 127).map (· + 1)).filter (fun j => (chunkAt base j).toBool) = [] := by
    rw [List.filter_eq_nil_iff]
    intro j hj
    obtain ⟨k, -, rfl⟩ := List.mem_map.mp hj
    rw [toBool_chunkAt hBase]
    simp
  have hFirst : (chunkAt base 0).toBool = true := by
    rw [toBool_chunkAt hBase]
    rfl
  unfold flagged
  rw [hMap, List.filter_map, hRange]
  show (List.map (chunkAt base) (List.filter (fun j => (chunkAt base j).toBool) _)).map _ = _
  rw [List.filter_cons_of_pos (p := fun j => (chunkAt base j).toBool) hFirst, hRest]
  simp [chunkAt, address]

/-- The new region of a refill. -/
theorem obtained_perm {s s' : State} {ev : Event} (node : Nat) (hStep : Step s ev s') :
    (s'.bases.map (allocated node)).Perm (s.bases.map (allocated node) ++ obtained node s' ev) := by
  cases hStep with
  | globalAllocate c base hAt hFresh =>
      show (allocated node base :: s.bases.map (allocated node)).Perm
        (s.bases.map (allocated node) ++ [allocated node base])
      exact (List.perm_append_singleton _ _).symm
  | _ => exact List.Perm.of_eq (List.append_nil _).symm

section Run

variable {maxNodeId : Nat} {es : List LifetimeEvent} {l l' : Lifetime}

theorem Alive.core {ev : Event} {s' : State} (h : Alive maxNodeId es l)
    (hAssigned : l.numaNodeId ≠ noNode) (hStep : Step l.heap ev s') :
    Alive maxNodeId (es ++ [.core ev])
      { l with heap := s', allocations := l.allocations ++ obtained l.numaNodeId s' ev } := by
  cases h with
  | default hSame hNever =>
      subst hSame
      exact absurd rfl hAssigned
  | assigned hFrees hNode hMax hOwned hRegions hSome =>
      exact .assigned hFrees hNode hMax (hOwned.step hStep)
        ((hRegions.append_right _).trans (obtained_perm l.numaNodeId hStep).symm)
        (not_neverAssigned_snoc hSome)

theorem Alive.assign {numaNodeId base : Nat} (h : Alive maxNodeId es l)
    (hDefault : l.numaNodeId = noNode) (hNode : numaNodeId ≤ maxNodeId)
    (hIndex : numaNodeId < countHeaps) (hFresh : Fresh [] base) :
    Alive maxNodeId (es ++ [.assign numaNodeId base]) (l.assign maxNodeId numaNodeId base) := by
  cases h with
  | assigned hFrees hNot => exact absurd hDefault hNot
  | default hSame hNever =>
      subst hSame
      refine .assigned ?_ ?_ hNode (Owned.initial hFresh) (List.Perm.refl _) fun hNone => ?_
      · show [] ++ destructor maxNodeId noNode [] _ = []
        rw [destructor_default, List.append_nil]
      · show numaNodeId ≠ noNode
        simp only [countHeaps, noNode] at *
        omega
      · exact hNone numaNodeId base (List.mem_append_right _ (List.mem_singleton_self _))

theorem Alive.destroy (h : Alive maxNodeId es l) (hReady : ∀ c, l.heap.cores c = .ready) :
    Dead (es ++ [.destroy]) (l.destroy maxNodeId) := by
  cases h with
  | default hSame hNever =>
      subst hSame
      refine .default ?_ rfl (hNever.snoc fun _ _ => nofun)
      show [] ++ destructor maxNodeId noNode [] _ = []
      exact (List.nil_append _).trans (destructor_default maxNodeId)
  | assigned hFrees hNode hMax hOwned hRegions hSome =>
      obtain ⟨base, hBase, hBuffer, hPerm⟩ := hOwned.idle fun c => by rw [hReady c]; exact id
      have hNodup : l.heap.bases.Nodup := hOwned.apart.imp Apart.ne
      refine .assigned l.numaNodeId l.heap.bases hNodup ?_ ?_ hRegions
        (not_neverAssigned_snoc hSome)
      · intro hNil
        rw [hNil] at hPerm
        exact absurd hPerm.length_eq (by simp)
      · show (l.frees ++ destructor maxNodeId l.numaNodeId _ _).Perm _
        rw [hFrees, List.nil_append, destructor, if_neg (Nat.not_lt.mpr hMax),
          flagged_buffer hBase hBuffer]
        exact ((List.perm_append_singleton _ _).trans hPerm).map _

/-- A lifetime up to some point. -/
theorem alive_or_dead (hRun : Verified.Run (LifetimeStep maxNodeId) initial es l) :
    (l.destroyed = false → Alive maxNodeId es l) ∧ (l.destroyed = true → Dead es l) := by
  refine hRun.log_invariant (P := fun es l => (l.destroyed = false → Alive maxNodeId es l) ∧
    (l.destroyed = true → Dead es l)) ⟨fun _ => .default rfl nofun, nofun⟩ ?_
  rintro es e mid fin ⟨hAlive, -⟩ hStep
  cases hStep with
  | assign hLives hDefault hNode hIndex hFresh =>
      refine ⟨fun _ => (hAlive hLives).assign hDefault hNode hIndex hFresh, fun hDead => ?_⟩
      exact absurd (hLives.symm.trans hDead) nofun
  | core hLives hAssigned hStep =>
      refine ⟨fun _ => (hAlive hLives).core hAssigned hStep, fun hDead => ?_⟩
      exact absurd (hLives.symm.trans hDead) nofun
  | destroy hLives hReady => exact ⟨nofun, fun _ => (hAlive hLives).destroy hReady⟩

theorem nodup_of_perm {bases : List Nat} {node : Nat} {regions : List Region}
    (hNodup : bases.Nodup) (hPerm : regions.Perm (bases.map (allocated node))) :
    (regions.map Region.base).Nodup := by
  have hBases : (bases.map (allocated node)).map Region.base = bases := by
    rw [List.map_map]
    exact List.map_id bases
  rw [(hPerm.map Region.base).nodup_iff, hBases]
  exact hNodup

/-- Whatever the cores have done, the bases and nodes of the regions are freed, each once. -/
theorem regions_of_run (hRun : Verified.Run (LifetimeStep maxNodeId) initial es l)
    (hDestroyed : l.destroyed = true) : ReturnsBases l := by
  cases (alive_or_dead hRun).2 hDestroyed with
  | default hFrees hAllocations =>
      unfold ReturnsBases
      rw [hFrees, hAllocations]
      exact ⟨List.Perm.refl _, List.nodup_nil⟩
  | assigned node bases hNodup hPos hFrees hAllocations =>
      refine ⟨?_, nodup_of_perm hNodup hAllocations⟩
      have hFreed := hFrees.map fun r => (r.base, r.numaNodeId)
      have hAllocated := hAllocations.map fun r => (r.base, r.numaNodeId)
      rw [List.map_map] at hFreed hAllocated
      exact hFreed.trans hAllocated.symm

/-- A heap returns what it took exactly if it took nothing, since it was never assigned;
in any case the bases and nodes are right. -/
theorem returns_iff (hRun : Verified.Run (LifetimeStep maxNodeId) initial es l)
    (hDestroyed : l.destroyed = true) : (Returns l ↔ NeverAssigned es) ∧ ReturnsBases l := by
  refine ⟨?_, regions_of_run hRun hDestroyed⟩
  cases (alive_or_dead hRun).2 hDestroyed with
  | default hFrees hAllocations hNever =>
      refine iff_of_true ?_ hNever
      unfold Returns
      rw [hFrees, hAllocations]
      exact ⟨List.Perm.refl _, List.nodup_nil⟩
  | assigned node bases hNodup hPos hFrees hAllocations hSome =>
      refine iff_of_false (fun hReturns => ?_) hSome
      obtain ⟨base, hBase⟩ := List.exists_mem_of_ne_nil bases hPos
      have hMem : allocated node base ∈ bases.map (freed node) :=
        (hAllocations.symm.trans (hReturns.1.symm.trans hFrees)).mem_iff.mp
          (List.mem_map_of_mem hBase)
      obtain ⟨other, -, hEq⟩ := List.mem_map.mp hMem
      have hSize : Chunk.size = Chunk.size * chunks := congrArg Region.size hEq
      exact absurd hSize (by decide)

end Run

/-- The heap of a node without cores. -/
theorem returns_iff_unused : ∃ l, Verified.Run (LifetimeStep 1) initial [.destroy] l ∧
    l.destroyed = true ∧ Returns l ∧ ReturnsBases l := by
  have hRun : Verified.Run (LifetimeStep 1) initial [.destroy] _ :=
    Verified.Run.single (LifetimeStep.destroy rfl fun _ => rfl)
  obtain ⟨hIff, hBases⟩ := returns_iff hRun rfl
  refine ⟨_, hRun, rfl, hIff.mpr fun node base hMem => ?_, hBases⟩
  exact absurd (List.mem_singleton.mp hMem) nofun

/-- A heap is assigned and destroyed: 2 GiB are allocated, and 16 MiB of them are freed. -/
theorem region_freed_as_chunk : ∃ l,
    Verified.Run (LifetimeStep 1) initial [.assign 0 (2 ^ 31), .destroy] l ∧ l.destroyed = true ∧
    l.allocations = [⟨2 ^ 31, 0, 2 ^ 31⟩] ∧ l.frees = [⟨2 ^ 31, 0, 2 ^ 24⟩] ∧ ¬ Returns l := by
  have hAssign : LifetimeStep 1 initial (.assign 0 (2 ^ 31)) _ :=
    LifetimeStep.assign rfl rfl (by decide) (by decide) ⟨by decide, by decide, nofun⟩
  have hRun := (Verified.Run.single hAssign).snoc (LifetimeStep.destroy rfl fun _ => rfl)
  have hBuffer : flagged ((List.range chunks).map (State.initial (2 ^ 31)).freeChunkBuffer) =
      [2 ^ 31] := flagged_buffer (by decide) fun _ _ => rfl
  have hFrees : ((initial.assign 1 0 (2 ^ 31)).destroy 1).frees = [⟨2 ^ 31, 0, 2 ^ 24⟩] := by
    show ([] ++ destructor 1 noNode [] _) ++ destructor 1 0 [] _ = _
    rw [destructor_default, destructor, if_neg (by decide)]
    show (flagged ((List.range chunks).map (State.initial (2 ^ 31)).freeChunkBuffer)).map _ = _
    rw [hBuffer]
    rfl
  refine ⟨_, hRun, rfl, rfl, hFrees, fun hReturns => ?_⟩
  have hPerm := hReturns.1
  rw [hFrees] at hPerm
  have hEq := List.singleton_perm_singleton.mp hPerm
  exact absurd (congrArg Region.size hEq) (by decide)

end Lifetime

end ProcessorHeap

end MxTasking.Memory.Fixed
