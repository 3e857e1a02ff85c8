import MxTasking.Util.CoreSet
import MxTasking.Verified.ByteMemory

/-!
# Objects of fixed size

`CoreHeap` and `Allocator` of `fixed_size_allocator.h`.  Every core has a list of free objects of
`S` bytes; the link to the next one is the first word of the free object itself.  A core
whose list is empty takes a chunk from the processor heap of its socket and links the objects
in it.  An object may be freed to the list of another core than the one it came from.

The chunks are what the processor heaps return: disjoint, aligned to `S` and not null.  Between
the calls the program writes what it likes into the objects it has, and anywhere outside of
the chunks.

## Main results

* `Inv.step` — one call keeps the lists and the live objects apart.
* `objects_of_run` — objects are conserved across cores.
-/

namespace MxTasking.Memory.Fixed

open MxTasking.Util (CoreSet Order)
open MxTasking.Verified.ByteMemory

/-! ## The program -/

/-- `sizeof(FreeHeader)`: a pointer and a byte, padded. -/
def sizeofFreeHeader : Nat := 16

/-- `count_objects`. -/
def countObjects (S : Nat) : Nat := Chunk.size / S

/-- The cores of an allocator: a `core_set`, in which no core is twice. -/
structure Cores extends CoreSet where
  distinct : toCoreSet.identifiers.Nodup

/-- The cores that `core_set::build` has chosen. -/
def Cores.build (countCores : Nat) (nodeId : Nat → Nat) (cores : Nat) (order : Order) : Cores :=
  ⟨.build countCores nodeId cores order, CoreSet.nodup_build ..⟩

/-- The allocator: the memory, `_first` of the core heaps and which of them are constructed; the
chunks that were handed to cores and the objects that are in use. -/
structure State where
  memory : Memory
  first : Nat → Nat
  constructed : List Nat
  chunks : List Nat
  live : List Nat

/-- The loop of `fill_buffer`, with `n` rounds to go. -/
def linkObjects (S chunk : Nat) : Nat → Nat → Nat → Memory → Memory
  | 0, _, _, m => m
  | n + 1, i, currentFree, m =>
      let next := chunk + (i + 1) * S
      linkObjects S chunk n (i + 1) next (store64 m currentFree next)

namespace State

/-- Before the constructor. -/
def initial (memory : Memory) : State where
  memory := memory
  first _ := 0
  constructed := []
  chunks := []
  live := []

/-- `CoreHeap::fill_buffer()`, where `_processor_heap->allocate()` returns `chunk`. -/
def fillBuffer (S : Nat) (s : State) (core chunk : Nat) : State :=
  let lastFree := chunk + (countObjects S - 1) * S
  { s with
    memory := store64 (linkObjects S chunk (countObjects S - 1) 0 chunk s.memory) lastFree 0
    first := Function.update s.first core chunk
    chunks := chunk :: s.chunks }

/-- `allocate(core_id)`; `chunk` is used if the list is empty. -/
def allocate (S : Nat) (s : State) (core chunk : Nat) : State × Nat :=
  let s := if s.first core = 0 then s.fillBuffer S core chunk else s
  let freeElement := s.first core
  ({ s with
     first := Function.update s.first core (load64 s.memory freeElement)
     live := freeElement :: s.live }, freeElement)

/-- `free(core_id, address)`. -/
def free (s : State) (core address : Nat) : State :=
  { s with
    memory := store64 s.memory address (s.first core)
    first := Function.update s.first core address
    live := s.live.erase address }

end State

inductive Event where
  | construct (core : Nat)
  | allocate (core result : Nat)
  | free (core address : Nat)
  | write
  deriving DecidableEq, Repr

/-- The memory of two chunks is disjoint. -/
def ChunksApart (c c' : Nat) : Prop := c + Chunk.size ≤ c' ∨ c' + Chunk.size ≤ c

/-- What a processor heap returns. -/
def IsChunk (S chunk : Nat) : Prop := 0 < chunk ∧ chunk + Chunk.size ≤ 2 ^ 64 ∧ S ∣ chunk

/-- The byte at `x` belongs to an object in use. -/
def InUse (S : Nat) (live : List Nat) (x : Nat) : Prop := ∃ p ∈ live, p ≤ x ∧ x < p + S

inductive Step (S : Nat) (cores : Cores) : State → Event → State → Prop where
  -- the loop of the constructor
  | construct {s} (core chunk : Nat) : s.constructed ++ [core] <+: cores.identifiers →
      IsChunk S chunk → (∀ c ∈ s.chunks, ChunksApart chunk c) →
      Step S cores s (.construct core)
        { s.fillBuffer S core chunk with constructed := s.constructed ++ [core] }
  | allocate {s} (core chunk : Nat) : s.constructed = cores.identifiers →
      core ∈ cores.identifiers →
      (s.first core = 0 → IsChunk S chunk ∧ ∀ c ∈ s.chunks, ChunksApart chunk c) →
      Step S cores s (.allocate core (s.allocate S core chunk).2) (s.allocate S core chunk).1
  | free {s} (core address : Nat) : s.constructed = cores.identifiers →
      core ∈ cores.identifiers → address ∈ s.live →
      Step S cores s (.free core address) (s.free core address)
  -- the program uses its objects and the memory outside of the chunks
  | write {s} (memory : Memory) :
      (∀ c ∈ s.chunks, ∀ x, c ≤ x → x < c + Chunk.size → ¬ InUse S s.live x →
        memory x = s.memory x) →
      Step S cores s .write { s with memory := memory }

/-- `x` is one of the objects in a chunk. -/
def IsObject (S : Nat) (chunks : List Nat) (x : Nat) : Prop :=
  ∃ c ∈ chunks, ∃ k < countObjects S, x = c + k * S

/-! ## Objects in chunks -/

section Objects

variable {S : Nat} {chunks : List Nat} {c x y k : Nat}

/-- An object lies inside its chunk. -/
theorem object_end (hk : k < countObjects S) : k * S + S ≤ Chunk.size := by
  have hMul : (k + 1) * S ≤ countObjects S * S := Nat.mul_le_mul_right S hk
  rw [Nat.add_mul, Nat.one_mul] at hMul
  exact Nat.le_trans hMul (Nat.div_mul_le_self _ _)

/-- Two objects of one chunk do not overlap. -/
theorem objects_apart {j : Nat} (h : j < k) : c + j * S + S ≤ c + k * S := by
  have hMul : (j + 1) * S ≤ k * S := Nat.mul_le_mul_right S h
  rw [Nat.add_mul, Nat.one_mul] at hMul
  omega

/-- Two objects do not overlap. -/
theorem IsObject.apart (hx : IsObject S chunks x) (hy : IsObject S chunks y)
    (hApart : chunks.Pairwise ChunksApart) (hne : x ≠ y) : x + S ≤ y ∨ y + S ≤ x := by
  obtain ⟨c, hc, j, hj, rfl⟩ := hx
  obtain ⟨c', hc', k, hk, rfl⟩ := hy
  have hEnd := object_end hj
  have hEnd' := object_end hk
  by_cases hEq : c = c'
  · subst hEq
    rcases Nat.lt_trichotomy j k with hlt | rfl | hlt
    · exact Or.inl (objects_apart hlt)
    · exact absurd rfl hne
    · exact Or.inr (objects_apart hlt)
  · have hSymm : Std.Symm ChunksApart := ⟨fun _ _ h => Or.symm h⟩
    rcases hApart.forall hc hc' hEq with h | h <;> omega

theorem IsObject.cons (h : IsObject S chunks x) : IsObject S (c :: chunks) x := by
  obtain ⟨c', hc', hObject⟩ := h
  exact ⟨c', List.mem_cons_of_mem _ hc', hObject⟩

end Objects

/-! ## Filling the buffer -/

section Fill

variable {S chunk : Nat}

theorem linkObjects_of_disjoint (n i b : Nat) (m : Memory)
    (h : ∀ j, i ≤ j → j < i + n → chunk + j * S + 8 ≤ b ∨ b + 8 ≤ chunk + j * S) :
    load64 (linkObjects S chunk n i (chunk + i * S) m) b = load64 m b := by
  induction n generalizing i m with
  | zero => rfl
  | succ n ih =>
      rw [linkObjects, ih (i + 1) _ fun j hj hlt => h j (by omega) (by omega)]
      exact load64_store64_of_disjoint (h i (by omega) (by omega))

/-- After the loop every object but the last one is linked to the one behind it. -/
theorem load64_linkObjects (hS : 8 ≤ S) (n i j : Nat) (m : Memory) (hi : i ≤ j) (hj : j < i + n)
    (hEnd : chunk + (i + n) * S < 2 ^ 64) :
    load64 (linkObjects S chunk n i (chunk + i * S) m) (chunk + j * S) = chunk + (j + 1) * S := by
  induction n generalizing i m with
  | zero => omega
  | succ n ih =>
      rw [linkObjects]
      by_cases hEq : j = i
      · subst hEq
        rw [linkObjects_of_disjoint n (j + 1) (chunk + j * S) _ fun k hk _ => Or.inr ?_]
        · refine load64_store64 (Nat.lt_of_le_of_lt ?_ hEnd)
          exact Nat.add_le_add_left (Nat.mul_le_mul_right S (by omega)) _
        · have := objects_apart (c := chunk) (S := S) hk
          omega
      · refine ih (i + 1) _ (by omega) (by omega) ?_
        rwa [show i + 1 + n = i + (n + 1) by omega]

/-- The memory after `fill_buffer`. -/
def filledMemory (S chunk : Nat) (m : Memory) : Memory :=
  store64 (linkObjects S chunk (countObjects S - 1) 0 chunk m)
    (chunk + (countObjects S - 1) * S) 0

/-- Words outside of the chunk are as before. -/
theorem filledMemory_of_disjoint (hS : 8 ≤ S) (hS' : S ≤ Chunk.size) {b : Nat} (m : Memory)
    (hb : b + 8 ≤ chunk ∨ chunk + Chunk.size ≤ b) :
    load64 (filledMemory S chunk m) b = load64 m b := by
  have hPos : 0 < countObjects S := Nat.div_pos hS' (by omega)
  have hOut : ∀ k < countObjects S, chunk + k * S + 8 ≤ b ∨ b + 8 ≤ chunk + k * S := by
    intro k hk
    have := object_end hk
    omega
  rw [filledMemory, load64_store64_of_disjoint (hOut _ (by omega))]
  have hLoop := linkObjects_of_disjoint (S := S) (countObjects S - 1) 0 b m
    fun j _ hj => hOut j (by omega)
  rwa [Nat.zero_mul, Nat.add_zero] at hLoop

/-- The objects of the chunk are linked in a row. -/
theorem linked_filledMemory (hS : 8 ≤ S) (hS' : S ≤ Chunk.size) (hChunk : IsChunk S chunk)
    (m : Memory) :
    Linked (filledMemory S chunk m) chunk
      ((List.range' 0 (countObjects S)).map fun k => chunk + k * S) := by
  obtain ⟨hne, hEnd, _⟩ := hChunk
  have hPos : 0 < countObjects S := Nat.div_pos hS' (by omega)
  have hRow := Linked.of_row (m := filledMemory S chunk m) (fun k => chunk + k * S)
    (countObjects S) (fun j _ => by simp; omega) (fun j hj => ?_) (countObjects S) 0 (by omega)
  · rwa [if_pos hPos, Nat.zero_mul, Nat.add_zero] at hRow
  · by_cases hLast : j + 1 < countObjects S
    · have hLess : j < countObjects S - 1 := by omega
      rw [if_pos hLast, filledMemory, load64_store64_of_disjoint]
      · have hLoop : load64 (linkObjects S chunk _ 0 (chunk + 0 * S) m) _ = _ :=
          load64_linkObjects hS (countObjects S - 1) 0 j m (by omega) (by omega) ?_
        · rwa [Nat.zero_mul, Nat.add_zero] at hLoop
        · have := object_end (S := S) (k := countObjects S - 1) (by omega)
          rw [Nat.zero_add]
          omega
      · have := objects_apart (c := chunk) (S := S) hLess
        omega
    · obtain rfl : j = countObjects S - 1 := by omega
      rw [if_neg hLast, filledMemory, load64_store64 (by decide)]

end Fill

/-! ## The invariant -/

/-- `lists` are the free lists of the cores. -/
structure Inv (S : Nat) (cores : Cores) (s : State) (lists : Nat → List Nat) : Prop where
  linked : ∀ core, Linked s.memory (s.first core) (lists core)
  objects : ∀ x, IsObject S s.chunks x ↔ x ∈ s.live ∨ ∃ core, x ∈ lists core
  disjoint : ∀ core core' x, x ∈ lists core → x ∈ lists core' → core = core'
  free : ∀ core x, x ∈ lists core → x ∉ s.live
  live : s.live.Nodup
  apart : s.chunks.Pairwise ChunksApart
  chunks : ∀ c ∈ s.chunks, IsChunk S c
  constructed : s.constructed <+: cores.identifiers
  empty : ∀ core, core ∉ s.constructed → lists core = []

namespace Inv

variable {S : Nat} {cores : Cores} {s s' : State} {lists : Nat → List Nat} {core x y : Nat}

theorem initial (memory : Memory) : Inv S cores (State.initial memory) fun _ => [] := by
  refine ⟨fun _ => rfl, ?_, ?_, ?_, List.nodup_nil, List.Pairwise.nil, ?_, List.nil_prefix,
    fun _ _ => rfl⟩
  · simp [IsObject, State.initial]
  · simp
  · simp
  · simp [State.initial]

theorem mem_update {l : List Nat} {c : Nat} :
    x ∈ Function.update lists core l c ↔ (c = core ∧ x ∈ l) ∨ (c ≠ core ∧ x ∈ lists c) := by
  by_cases hEq : c = core
  · subst hEq
    simp
  · simp [hEq]

theorem isObject_of_free (h : Inv S cores s lists) (hx : x ∈ lists core) :
    IsObject S s.chunks x :=
  (h.objects x).mpr (Or.inr ⟨core, hx⟩)

/-- The word of a free object is not touched by a write inside of another object. -/
theorem load64_store64_of_ne (h : Inv S cores s lists) (hS : 8 ≤ S) {v : Nat}
    (hx : IsObject S s.chunks x) (hy : IsObject S s.chunks y) (hne : x ≠ y) :
    load64 (store64 s.memory x v) y = load64 s.memory y := by
  refine load64_store64_of_disjoint ?_
  have := hx.apart hy h.apart hne
  omega

/-- A core without free objects gets those of a new chunk. -/
theorem fillBuffer (h : Inv S cores s lists) (hS : 8 ≤ S) (hS' : S ≤ Chunk.size) {chunk : Nat}
    (hChunk : IsChunk S chunk) (hFresh : ∀ c ∈ s.chunks, ChunksApart chunk c)
    (hEmpty : lists core = []) (hCore : core ∈ s.constructed) :
    Inv S cores (s.fillBuffer S core chunk) (Function.update lists core
      ((List.range' 0 (countObjects S)).map fun k => chunk + k * S)) := by
  have hNew : ∀ x, x ∈ ((List.range' 0 (countObjects S)).map fun k => chunk + k * S) ↔
      ∃ k < countObjects S, x = chunk + k * S := by
    intro x
    simp [List.mem_map, eq_comm]
  -- an object that was there before is not in the new chunk
  have hOld : ∀ x, IsObject S s.chunks x → x + S ≤ chunk ∨ chunk + Chunk.size ≤ x := by
    rintro x ⟨c, hc, k, hk, rfl⟩
    have := object_end hk
    rcases hFresh c hc with hApart | hApart <;> omega
  have hOut : ∀ x, IsObject S s.chunks x → ∀ k < countObjects S, x ≠ chunk + k * S := by
    intro x hx k hk hEq
    have := object_end hk
    rcases hOld x hx with hApart | hApart <;> omega
  refine ⟨fun c => ?_, fun x => ?_, ?_, ?_, h.live, ?_, ?_, h.constructed, ?_⟩
  · by_cases hEq : c = core
    · subst hEq
      simp only [State.fillBuffer, Function.update_self]
      exact linked_filledMemory hS hS' hChunk s.memory
    · simp only [State.fillBuffer, Function.update_of_ne hEq]
      refine (h.linked c).congr fun x hx => filledMemory_of_disjoint hS hS' _ ?_
      rcases hOld x (h.isObject_of_free hx) with hApart | hApart <;> omega
  · constructor
    · rintro ⟨c, hc, hObject⟩
      rcases List.mem_cons.mp hc with rfl | hc
      · exact Or.inr ⟨core, mem_update.mpr (Or.inl ⟨rfl, (hNew x).mpr hObject⟩)⟩
      · rcases (h.objects x).mp ⟨c, hc, hObject⟩ with hLive | ⟨c', hc'⟩
        · exact Or.inl hLive
        · have hne : c' ≠ core := by
            rintro rfl
            rw [hEmpty] at hc'
            exact List.not_mem_nil hc'
          exact Or.inr ⟨c', mem_update.mpr (Or.inr ⟨hne, hc'⟩)⟩
    · rintro (hLive | ⟨c, hc⟩)
      · exact ((h.objects x).mpr (Or.inl hLive)).cons
      · rcases mem_update.mp hc with ⟨_, hIn⟩ | ⟨_, hIn⟩
        · exact ⟨chunk, List.mem_cons_self .., (hNew x).mp hIn⟩
        · exact (h.isObject_of_free hIn).cons
  · intro c c' x hc hc'
    rcases mem_update.mp hc with ⟨rfl, hIn⟩ | ⟨_, hIn⟩
    · rcases mem_update.mp hc' with ⟨rfl, _⟩ | ⟨_, hIn'⟩
      · rfl
      · obtain ⟨k, hk, hEq⟩ := (hNew x).mp hIn
        exact absurd hEq (hOut x (h.isObject_of_free hIn') k hk)
    · rcases mem_update.mp hc' with ⟨rfl, hIn'⟩ | ⟨_, hIn'⟩
      · obtain ⟨k, hk, hEq⟩ := (hNew x).mp hIn'
        exact absurd hEq (hOut x (h.isObject_of_free hIn) k hk)
      · exact h.disjoint c c' x hIn hIn'
  · intro c x hc hLive
    rcases mem_update.mp hc with ⟨_, hIn⟩ | ⟨_, hIn⟩
    · obtain ⟨k, hk, hEq⟩ := (hNew x).mp hIn
      exact hOut x ((h.objects x).mpr (Or.inl hLive)) k hk hEq
    · exact h.free c x hIn hLive
  · exact List.pairwise_cons.mpr ⟨hFresh, h.apart⟩
  · intro c hc
    rcases List.mem_cons.mp hc with rfl | hc
    · exact hChunk
    · exact h.chunks c hc
  · intro c hc
    have hne : c ≠ core := by
      rintro rfl
      exact hc hCore
    rw [Function.update_of_ne hne]
    exact h.empty c hc

/-- A core heap is about to be constructed. -/
theorem addCore (h : Inv S cores s lists) (hNext : s.constructed ++ [core] <+: cores.identifiers) :
    Inv S cores { s with constructed := s.constructed ++ [core] } lists ∧ lists core = [] := by
  have hNodup := hNext.sublist.nodup cores.distinct
  have hNew : core ∉ s.constructed := by
    intro hIn
    exact (List.nodup_append.mp hNodup).2.2 core hIn core (List.mem_singleton.mpr rfl) rfl
  refine ⟨⟨h.linked, h.objects, h.disjoint, h.free, h.live, h.apart, h.chunks, hNext, ?_⟩,
    h.empty core hNew⟩
  intro c hc
  exact h.empty c fun hIn => hc (List.mem_append.mpr (Or.inl hIn))

/-- The first object of a list is taken. -/
theorem take (h : Inv S cores s lists) (hFirst : s.first core ≠ 0) :
    ∃ rest, lists core = s.first core :: rest ∧
      Inv S cores
        { s with
          first := Function.update s.first core (load64 s.memory (s.first core))
          live := s.first core :: s.live }
        (Function.update lists core rest) := by
  obtain ⟨rest, hList, hRest⟩ := (h.linked core).cons_of_ne_zero hFirst
  have hIn : s.first core ∈ lists core := by rw [hList]; exact List.mem_cons_self ..
  have hNodup := (h.linked core).nodup
  rw [hList, List.nodup_cons] at hNodup
  -- what is in a list now was in it before, and is not the object taken
  have hWas : ∀ c x, x ∈ Function.update lists core rest c → x ∈ lists c ∧ x ≠ s.first core := by
    intro c x hc
    rcases mem_update.mp hc with ⟨rfl, hx⟩ | ⟨hne, hx⟩
    · refine ⟨by rw [hList]; exact List.mem_cons_of_mem _ hx, ?_⟩
      rintro rfl
      exact hNodup.1 hx
    · refine ⟨hx, ?_⟩
      rintro rfl
      exact hne (h.disjoint c core _ hx hIn)
  refine ⟨rest, hList, fun c => ?_, fun x => ?_, ?_, ?_, ?_, h.apart, h.chunks, h.constructed, ?_⟩
  · by_cases hEq : c = core
    · subst hEq
      simp only [Function.update_self]
      exact hRest
    · simp only [Function.update_of_ne hEq]
      exact h.linked c
  · rw [h.objects x]
    constructor
    · rintro (hLive | ⟨c, hc⟩)
      · exact Or.inl (List.mem_cons_of_mem _ hLive)
      · by_cases hEq : c = core
        · subst hEq
          rw [hList] at hc
          rcases List.mem_cons.mp hc with rfl | hc
          · exact Or.inl (List.mem_cons_self ..)
          · exact Or.inr ⟨c, mem_update.mpr (Or.inl ⟨rfl, hc⟩)⟩
        · exact Or.inr ⟨c, mem_update.mpr (Or.inr ⟨hEq, hc⟩)⟩
    · rintro (hLive | ⟨c, hc⟩)
      · rcases List.mem_cons.mp hLive with rfl | hLive
        · exact Or.inr ⟨core, hIn⟩
        · exact Or.inl hLive
      · exact Or.inr ⟨c, (hWas c x hc).1⟩
  · intro c c' x hc hc'
    exact h.disjoint c c' x (hWas c x hc).1 (hWas c' x hc').1
  · intro c x hc hLive
    rcases List.mem_cons.mp hLive with hEq | hLive
    · exact (hWas c x hc).2 hEq
    · exact h.free c x (hWas c x hc).1 hLive
  · exact List.nodup_cons.mpr ⟨h.free core _ hIn, h.live⟩
  · intro c hc
    refine List.eq_nil_iff_forall_not_mem.mpr fun x hx => ?_
    have hOld := (hWas c x hx).1
    rw [h.empty c hc] at hOld
    exact List.not_mem_nil hOld

/-- An object is not null, and its last byte has an address. -/
theorem object_bounds (h : Inv S cores s lists) (hx : IsObject S s.chunks x) :
    0 < x ∧ x + S ≤ 2 ^ 64 := by
  obtain ⟨c, hc, k, hk, rfl⟩ := hx
  obtain ⟨hPos, hEnd, _⟩ := h.chunks c hc
  have := object_end hk
  omega

theorem first_lt (h : Inv S cores s lists) (hS : 8 ≤ S) : s.first core < 2 ^ 64 := by
  by_cases hFirst : s.first core = 0
  · rw [hFirst]
    decide
  · obtain ⟨rest, hList, _⟩ := (h.linked core).cons_of_ne_zero hFirst
    have hIn : s.first core ∈ lists core := by rw [hList]; exact List.mem_cons_self ..
    have := (h.object_bounds (h.isObject_of_free hIn)).2
    omega

/-- An object in use is put in front of the list of a core. -/
theorem put (h : Inv S cores s lists) (hS : 8 ≤ S) (hCore : core ∈ s.constructed)
    (hx : x ∈ s.live) :
    Inv S cores (s.free core x) (Function.update lists core (x :: lists core)) := by
  have hObject : IsObject S s.chunks x := (h.objects x).mpr (Or.inl hx)
  have hNot : ∀ c, x ∉ lists c := fun c hc => h.free c x hc hx
  have hLinked : ∀ c, Linked (store64 s.memory x (s.first core)) (s.first c) (lists c) := by
    intro c
    refine (h.linked c).congr fun y hy =>
      h.load64_store64_of_ne hS hObject (h.isObject_of_free hy) ?_
    rintro rfl
    exact hNot c hy
  have hMem : ∀ c y, y ∈ Function.update lists core (x :: lists core) c ↔
      (c = core ∧ y = x) ∨ y ∈ lists c := by
    intro c y
    rw [mem_update]
    by_cases hEq : c = core
    · subst hEq
      simp
    · simp [hEq]
  refine ⟨fun c => ?_, fun y => ?_, ?_, ?_, h.live.erase x, h.apart, h.chunks, h.constructed, ?_⟩
  · by_cases hEq : c = core
    · subst hEq
      simp only [State.free, Function.update_self]
      refine ⟨rfl, Nat.ne_of_gt (h.object_bounds hObject).1, ?_⟩
      rw [load64_store64 (h.first_lt hS)]
      exact hLinked c
    · simp only [State.free, Function.update_of_ne hEq]
      exact hLinked c
  · rw [show (s.free core x).chunks = s.chunks from rfl, h.objects y]
    constructor
    · rintro (hLive | ⟨c, hc⟩)
      · by_cases hEq : y = x
        · exact Or.inr ⟨core, (hMem core y).mpr (Or.inl ⟨rfl, hEq⟩)⟩
        · exact Or.inl ((List.mem_erase_of_ne hEq).mpr hLive)
      · exact Or.inr ⟨c, (hMem c y).mpr (Or.inr hc)⟩
    · rintro (hLive | ⟨c, hc⟩)
      · exact Or.inl (List.mem_of_mem_erase hLive)
      · rcases (hMem c y).mp hc with ⟨_, rfl⟩ | hIn
        · exact Or.inl hx
        · exact Or.inr ⟨c, hIn⟩
  · intro c c' y hc hc'
    rcases (hMem c y).mp hc with ⟨rfl, rfl⟩ | hIn
    · rcases (hMem c' y).mp hc' with ⟨rfl, _⟩ | hIn'
      · rfl
      · exact absurd hIn' (hNot c')
    · rcases (hMem c' y).mp hc' with ⟨_, rfl⟩ | hIn'
      · exact absurd hIn (hNot c)
      · exact h.disjoint c c' y hIn hIn'
  · intro c y hc hLive
    rcases (hMem c y).mp hc with ⟨_, rfl⟩ | hIn
    · exact h.live.not_mem_erase hLive
    · exact h.free c y hIn (List.mem_of_mem_erase hLive)
  · intro c hc
    have hne : c ≠ core := by
      rintro rfl
      exact hc hCore
    rw [Function.update_of_ne hne]
    exact h.empty c hc

/-- The program writes into its objects and outside of the chunks. -/
theorem write (h : Inv S cores s lists) (hS : 8 ≤ S) (memory : Memory)
    (hSame : ∀ c ∈ s.chunks, ∀ x, c ≤ x → x < c + Chunk.size → ¬ InUse S s.live x →
      memory x = s.memory x) :
    Inv S cores { s with memory := memory } lists := by
  refine ⟨fun c => (h.linked c).congr fun y hy => load64_congr fun x hle hlt => ?_, h.objects,
    h.disjoint, h.free, h.live, h.apart, h.chunks, h.constructed, h.empty⟩
  have hFree := h.isObject_of_free hy
  obtain ⟨chunk, hChunk, k, hk, rfl⟩ := h.isObject_of_free hy
  have hEnd := object_end hk
  refine hSame chunk hChunk x (by omega) (by omega) ?_
  rintro ⟨p, hp, hpx⟩
  have hne : chunk + k * S ≠ p := by
    rintro rfl
    exact h.free c _ hy hp
  have := hFree.apart ((h.objects p).mpr (Or.inl hp)) h.apart hne
  omega

/-- The list of the core is not empty, or a chunk was taken. -/
theorem refill (h : Inv S cores s lists) (hS : 8 ≤ S) (hS' : S ≤ Chunk.size) {chunk : Nat}
    (hCore : core ∈ s.constructed)
    (hChunk : s.first core = 0 → IsChunk S chunk ∧ ∀ c ∈ s.chunks, ChunksApart chunk c) :
    ∃ lists', Inv S cores (if s.first core = 0 then s.fillBuffer S core chunk else s) lists' ∧
      (if s.first core = 0 then s.fillBuffer S core chunk else s).first core ≠ 0 ∧
      (if s.first core = 0 then s.fillBuffer S core chunk else s).live = s.live := by
  by_cases hFirst : s.first core = 0
  · rw [if_pos hFirst]
    obtain ⟨hIs, hFresh⟩ := hChunk hFirst
    have hEmpty : lists core = [] := (h.linked core).unique hFirst
    refine ⟨_, h.fillBuffer hS hS' hIs hFresh hEmpty hCore, ?_, rfl⟩
    simp only [State.fillBuffer, Function.update_self]
    exact Nat.ne_of_gt hIs.1
  · rw [if_neg hFirst]
    exact ⟨lists, h, hFirst, rfl⟩

/-- `allocate` takes the first object of the list, which is not in use. -/
theorem allocate (h : Inv S cores s lists) (hS : 8 ≤ S) (hS' : S ≤ Chunk.size) {chunk : Nat}
    (hCore : core ∈ s.constructed)
    (hChunk : s.first core = 0 → IsChunk S chunk ∧ ∀ c ∈ s.chunks, ChunksApart chunk c) :
    (∃ lists', Inv S cores (s.allocate S core chunk).1 lists') ∧
      (s.allocate S core chunk).1.live = (s.allocate S core chunk).2 :: s.live := by
  obtain ⟨lists', hFull, hFirst, hLive⟩ := h.refill hS hS' hCore hChunk
  obtain ⟨rest, _, hTaken⟩ := hFull.take hFirst
  exact ⟨⟨_, hTaken⟩, congrArg (List.cons _) hLive⟩

/-- One step. -/
theorem step {e : Event} (h : Inv S cores s lists) (hS : 8 ≤ S) (hS' : S ≤ Chunk.size)
    (hStep : Step S cores s e s') : ∃ lists', Inv S cores s' lists' := by
  cases hStep with
  | construct core chunk hNext hChunk hFresh =>
      obtain ⟨hAdded, hEmpty⟩ := h.addCore hNext
      exact ⟨_, hAdded.fillBuffer hS hS' hChunk hFresh hEmpty (by simp)⟩
  | allocate core chunk hDone hCore hChunk =>
      exact (h.allocate hS hS' (hDone ▸ hCore) hChunk).1
  | free core address hDone hCore hLive => exact ⟨_, h.put hS (hDone ▸ hCore) hLive⟩
  | write memory hSame => exact ⟨lists, h.write hS memory hSame⟩

theorem run {memory : Memory} {log : List Event} (hS : 8 ≤ S) (hS' : S ≤ Chunk.size)
    (hRun : Verified.Run (Step S cores) (State.initial memory) log s) :
    ∃ lists, Inv S cores s lists :=
  hRun.invariant (P := fun s => ∃ lists, Inv S cores s lists) ⟨_, initial memory⟩
    fun _ _ _ ⟨_, h⟩ hStep => h.step hS hS' hStep

/-- An object that is not in use is on the list of exactly one core of the set. -/
theorem owner (h : Inv S cores s lists) (hx : IsObject S s.chunks x) :
    (x ∈ s.live ∧ ∀ core, x ∉ lists core) ∨
      (x ∉ s.live ∧ ∃! core, core ∈ cores.identifiers ∧ x ∈ lists core) := by
  rcases (h.objects x).mp hx with hLive | ⟨core, hIn⟩
  · exact Or.inl ⟨hLive, fun core hIn => h.free core x hIn hLive⟩
  · refine Or.inr ⟨h.free core x hIn, core, ⟨?_, hIn⟩, fun c hc => h.disjoint c core x hc.2 hIn⟩
    by_contra hNot
    have hEmpty := h.empty core fun hCore => hNot (h.constructed.subset hCore)
    rw [hEmpty] at hIn
    exact List.not_mem_nil hIn

end Inv

/-! ## Objects are conserved -/

/-- Writes of the program leave the heads of the lists alone. -/
theorem first_of_writes {S : Nat} {cores : Cores} {s s' : State} {es : List Event}
    (hRun : Verified.Run (Step S cores) s es s') (hWrites : ∀ e ∈ es, e = .write) :
    s'.first = s.first := by
  induction hRun with
  | nil => rfl
  | snoc _ hStep ih =>
      have hEvent := hWrites _ (List.mem_append.mpr (Or.inr (List.mem_singleton.mpr rfl)))
      subst hEvent
      have hBefore := ih fun e he => hWrites e (List.mem_append.mpr (Or.inl he))
      cases hStep with
      | write memory _ => exact hBefore

/-- After every run of calls on the cores of the set: there are free lists of the cores, without a
cycle and disjoint, such that every object of every chunk is in use or on exactly
one of them.  A call of `allocate` returns a multiple of `S` with `S` bytes inside of a chunk that
do not overlap an object in use, and right after `free(core, p)` it returns `p`. -/
theorem objects_of_run (S : Nat) (hS : sizeofFreeHeader ≤ S) (hS' : S ≤ Chunk.size)
    (cores : Cores) (memory : Memory) (log : List Event) (s : State)
    (hRun : Verified.Run (Step S cores) (State.initial memory) log s) :
    (∃ lists : Nat → List Nat,
      (∀ core, Linked s.memory (s.first core) (lists core) ∧ (lists core).Nodup) ∧
      (∀ core core', core ≠ core' → (lists core).Disjoint (lists core')) ∧
      ∀ x, IsObject S s.chunks x → (x ∈ s.live ∧ ∀ core, x ∉ lists core) ∨
        (x ∉ s.live ∧ ∃! core, core ∈ cores.identifiers ∧ x ∈ lists core)) ∧
    (∀ core p s', Step S cores s (.allocate core p) s' →
      (∃ c ∈ s'.chunks, ∃ k, p = c + k * S ∧ k * S + S ≤ Chunk.size) ∧ S ∣ p ∧ p ∈ s'.live ∧
      ∀ q ∈ s.live, p + S ≤ q ∨ q + S ≤ p) ∧
    (∀ core p s₁ es s₂ p' s₃, Step S cores s (.free core p) s₁ →
      Verified.Run (Step S cores) s₁ es s₂ → (∀ e ∈ es, e = .write) →
      Step S cores s₂ (.allocate core p') s₃ → p' = p) := by
  have hWord : 8 ≤ S := Nat.le_trans (by decide) hS
  obtain ⟨lists, h⟩ := Inv.run hWord hS' hRun
  refine ⟨⟨lists, fun core => ⟨h.linked core, (h.linked core).nodup⟩,
    fun core core' hne x hx hx' => hne (h.disjoint core core' x hx hx'), fun x hx => h.owner hx⟩,
    ?_, ?_⟩
  · intro core p s' hStep
    obtain ⟨lists', h'⟩ := h.step hWord hS' hStep
    cases hStep with
    | allocate core chunk hDone hCore hChunk =>
        have hLive := (h.allocate hWord hS' (hDone ▸ hCore) hChunk).2
        have hIn : (s.allocate S core chunk).2 ∈ (s.allocate S core chunk).1.live := by
          rw [hLive]
          exact List.mem_cons_self ..
        have hObject := (h'.objects _).mpr (Or.inl hIn)
        refine ⟨?_, ?_, hIn, fun q hq => ?_⟩
        · obtain ⟨c, hc, k, hk, hEq⟩ := hObject
          exact ⟨c, hc, k, hEq, object_end hk⟩
        · obtain ⟨c, hc, k, hk, hEq⟩ := hObject
          rw [hEq]
          exact Nat.dvd_add (h'.chunks c hc).2.2 (Nat.dvd_mul_left S k)
        · have hNodup := h'.live
          rw [hLive, List.nodup_cons] at hNodup
          have hOld : q ∈ (s.allocate S core chunk).1.live := by
            rw [hLive]
            exact List.mem_cons_of_mem _ hq
          refine hObject.apart ((h'.objects q).mpr (Or.inl hOld)) h'.apart ?_
          rintro rfl
          exact hNodup.1 hq
  · intro core p s₁ es s₂ p' s₃ hFree hWrites hAll hAllocate
    have hSame := first_of_writes hWrites hAll
    cases hFree with
    | free core p _ _ hLive =>
        have hFirst : s₂.first core = p := by
          rw [hSame]
          exact Function.update_self ..
        have hne : p ≠ 0 :=
          Nat.ne_of_gt (h.object_bounds ((h.objects p).mpr (Or.inl hLive))).1
        cases hAllocate with
        | allocate core chunk _ _ _ =>
            simp only [State.allocate, hFirst, if_neg hne]

/-- Two cores: an object that was allocated on one of them is freed on the other one and allocated
there again, and does not overlap what the first one gets next. -/
theorem objects_of_run_migrating :
    ∃ s, Verified.Run (Step 64 (.build 2 (fun _ => 0) 2 .ascending)) (State.initial fun _ => 0)
        [.construct 0, .construct 1, .allocate 0 (2 ^ 24), .free 1 (2 ^ 24),
          .allocate 1 (2 ^ 24)] s ∧
      s.live = [2 ^ 24] ∧
      ∀ p s', Step 64 (.build 2 (fun _ => 0) 2 .ascending) s (.allocate 0 p) s' →
        64 ∣ p ∧ (p + 64 ≤ 2 ^ 24 ∨ 2 ^ 24 + 64 ≤ p) := by
  have hCores : (Cores.build 2 (fun _ => 0) 2 .ascending).identifiers = [0, 1] :=
    CoreSet.identifiers_build 2 (fun _ => 0) 2 .ascending
  have hFirst : Step 64 (.build 2 (fun _ => 0) 2 .ascending) (State.initial fun _ => 0)
      (.construct 0) _ :=
    .construct 0 (2 ^ 24) (by rw [hCores]; exact ⟨[1], rfl⟩) ⟨by decide, by decide, by decide⟩ nofun
  have hConstructed := (Verified.Run.single hFirst).snoc (.construct 1 (2 ^ 25)
    (by rw [hCores]; exact ⟨[], rfl⟩) ⟨by decide, by decide, by decide⟩
    (by simp [State.fillBuffer, State.initial, ChunksApart, Chunk.size]))
  have hAllocated := hConstructed.snoc (.allocate 0 0 hCores.symm (by simp [hCores])
    fun h => absurd h (by decide))
  have hFreed := hAllocated.snoc (.free 1 (2 ^ 24) hCores.symm (by simp [hCores]) (.head _))
  have hAgain := hFreed.snoc (.allocate 1 0 hCores.symm (by simp [hCores])
    fun h => absurd h (by decide))
  refine ⟨_, hAgain, rfl, fun p s' hAllocate => ?_⟩
  obtain ⟨-, hDvd, -, hApart⟩ :=
    (objects_of_run 64 (by decide) (by decide) _ _ _ _ hAgain).2.1 0 p s' hAllocate
  exact ⟨hDvd, hApart (2 ^ 24) (.head _)⟩

end MxTasking.Memory.Fixed
