import MxTasking.Verified.TransitionSystem
import Mathlib.Data.List.Nodup
import Mathlib.Data.List.Pairwise
import Mathlib.Algebra.Ring.Nat

/-!
# The chunks of a processor heap

`ProcessorHeap` of `fixed_size_allocator.h`.  The heap of a socket keeps 128 chunks in a
buffer.  A core takes an index with `fetch_add` and reads that slot afterwards; a core whose
index is behind the buffer refills it when it wins the flag, and waits for the flag otherwise;
in both cases it tries again.  Every access of the counter, the flag and a slot is a step of
its own, and the cores take theirs in any order.

Nothing keeps a refill from overwriting a slot that a core has fetched and not read yet,
and a core that has seen the counter behind the buffer may win the flag when the buffer is new
already.  The same chunk is then handed out twice.

## Main results

* `Inv.step` — one careful step keeps every chunk with at most one core.
* `returned_nodup_of_run` — no chunk is handed out twice in a run of careful steps.
-/

namespace MxTasking.Memory.Fixed

open MxTasking.Verified (update_cases update_elsewhere)

/-- `Chunk`: an address, and whether the address is one that `GlobalHeap` has returned. -/
structure Chunk where
  memory : Nat
  isAllocated : Bool
  deriving DecidableEq, Repr

/-- `Chunk::size()`. -/
def Chunk.size : Nat := 4096 * 4096

namespace ProcessorHeap

/-! ## The program -/

/-- `CHUNKS`. -/
def chunks : Nat := 128

/-- `tasking::config::max_cores()`. -/
def maxCores : Nat := 128

/-- How far a core has come in `allocate`. -/
inductive Core where
  /-- Not in `allocate`, or at its beginning. -/
  | ready
  /-- `next_free_chunk` is fetched. -/
  | fetched (nextFreeChunk : Nat)
  /-- `_fill_buffer_flag` was set by another core. -/
  | waiting
  /-- In `fill_buffer`, in front of slot `i` of the loop over the old chunks. -/
  | moving (i : Nat)
  /-- In `fill_buffer`, in front of slot `i` of the loop that writes the new chunks. -/
  | writing (heapMemory i : Nat)
  /-- The counter is reset, the flag still set. -/
  | filled
  deriving DecidableEq, Repr

/-- The core has won the flag and not cleared it yet. -/
def Core.Filling : Core → Prop
  | .moving _ | .writing _ _ | .filled => True
  | _ => False

/-- The heap, the cores, and what has happened: the memory `GlobalHeap` has returned, the chunks
`allocate` has returned, and the number of fetches since the counter was 0. -/
structure State where
  freeChunkBuffer : Nat → Chunk
  nextFreeChunk : Nat
  fillBufferFlag : Bool
  allocatedChunks : List Chunk
  cores : Nat → Core
  bases : List Nat
  returned : List Chunk
  fetches : Nat

inductive Event where
  | fetch (core : Nat)
  | read (core : Nat)
  | exchangeFlag (core : Nat)
  | move (core : Nat)
  | globalAllocate (core : Nat)
  | write (core : Nat)
  | reset (core : Nat)
  | clearFlag (core : Nat)
  | wait (core : Nat)
  deriving DecidableEq, Repr

/-- The address of slot `i` in the memory at `base`. -/
def address (base i : Nat) : Nat := base + i * Chunk.size

/-- `Chunk(heap_memory_address + i * Chunk::size(), i == 0)`. -/
def chunkAt (base i : Nat) : Chunk := ⟨address base i, i == 0⟩

/-- The memory at `b` and at `b'` for all slots of a buffer is disjoint. -/
def Apart (b b' : Nat) : Prop := address b chunks ≤ b' ∨ address b' chunks ≤ b

/-- `GlobalHeap::allocate` returns memory that is not in use. -/
def Fresh (bases : List Nat) (base : Nat) : Prop :=
  0 < base ∧ address base chunks ≤ 2 ^ 64 ∧ ∀ b ∈ bases, Apart base b

namespace State

/-- A core goes on. -/
def set (s : State) (core : Nat) (q : Core) : State :=
  { s with cores := Function.update s.cores core q }

/-- The heap after its constructor: the first buffer is filled before a core sees the heap. -/
def initial (base : Nat) : State where
  freeChunkBuffer := chunkAt base
  nextFreeChunk := 0
  fillBufferFlag := false
  allocatedChunks := []
  cores _ := .ready
  bases := [base]
  returned := []
  fetches := 0

/-- The memory of the chunks that were handed out. -/
def handedOut (s : State) : List Nat := s.returned.map Chunk.memory

end State

inductive Step : State → Event → State → Prop where
  | fetch {s} (core : Nat) : core < maxCores → s.cores core = .ready →
      Step s (.fetch core)
        { s.set core (.fetched s.nextFreeChunk) with
          nextFreeChunk := (s.nextFreeChunk + 1) % 2 ^ 8, fetches := s.fetches + 1 }
  | read {s} (core i : Nat) : s.cores core = .fetched i → i < chunks →
      Step s (.read core)
        { s.set core .ready with returned := s.returned ++ [s.freeChunkBuffer i] }
  | winFlag {s} (core i : Nat) : s.cores core = .fetched i → chunks ≤ i →
      s.fillBufferFlag = false →
      Step s (.exchangeFlag core) { s.set core (.moving 0) with fillBufferFlag := true }
  | loseFlag {s} (core i : Nat) : s.cores core = .fetched i → chunks ≤ i →
      s.fillBufferFlag = true → Step s (.exchangeFlag core) (s.set core .waiting)
  -- `fill_buffer<false>`
  | move {s} (core i : Nat) : s.cores core = .moving i → i < chunks →
      Step s (.move core)
        { s.set core (.moving (i + 1)) with
          allocatedChunks := s.allocatedChunks ++ [s.freeChunkBuffer i] }
  | globalAllocate {s} (core base : Nat) : s.cores core = .moving chunks → Fresh s.bases base →
      Step s (.globalAllocate core) { s.set core (.writing base 0) with bases := base :: s.bases }
  | write {s} (core base i : Nat) : s.cores core = .writing base i → i < chunks →
      Step s (.write core)
        { s.set core (.writing base (i + 1)) with
          freeChunkBuffer := Function.update s.freeChunkBuffer i (chunkAt base i) }
  | reset {s} (core base : Nat) : s.cores core = .writing base chunks →
      Step s (.reset core) { s.set core .filled with nextFreeChunk := 0, fetches := 0 }
  | clearFlag {s} (core : Nat) : s.cores core = .filled →
      Step s (.clearFlag core) { s.set core .ready with fillBufferFlag := false }
  | wait {s} (core : Nat) : s.cores core = .waiting → s.fillBufferFlag = false →
      Step s (.wait core) (s.set core .ready)

/-- A step that does not run into a refill: a slot of the buffer is fetched only while the counter
has not wrapped around and no refill that is under way has written the slot, and a refill
writes a slot only while no core has fetched it without having read it. -/
def Careful (s : State) : Event → Prop
  | .fetch _ => s.nextFreeChunk < chunks → s.fetches < 2 ^ 8 ∧
      ∀ c base i, s.cores c = .writing base i → i ≤ s.nextFreeChunk
  | .write core => ∀ base i, s.cores core = .writing base i → ∀ c, s.cores c ≠ .fetched i
  | _ => True

/-! ## Addresses -/

theorem address_inj {b i j : Nat} (h : address b i = address b j) : i = j := by
  simp only [address, Chunk.size] at h
  omega

/-- Slots of disjoint memory have different addresses. -/
theorem Apart.address_ne {b b' i j : Nat} (h : Apart b b') (hi : i < chunks) (hj : j < chunks) :
    address b i ≠ address b' j := by
  simp only [Apart, address, chunks, Chunk.size] at h hi hj ⊢
  omega

theorem Apart.ne {b b' : Nat} (h : Apart b b') : b ≠ b' := by
  simp only [Apart, address, chunks, Chunk.size] at h
  omega

instance : Std.Symm Apart := ⟨fun _ _ h => Or.symm h⟩

theorem apart_of_mem {bases : List Nat} (h : bases.Pairwise Apart) {b b' : Nat} (hb : b ∈ bases)
    (hb' : b' ∈ bases) (hne : b ≠ b') : Apart b b' :=
  h.forall hb hb' hne

/-! ## The invariant -/

/-- A refill that has written slots `0, …, i − 1`: none of the new chunks has been handed out, and
no core has fetched one of these slots. -/
structure WritingOK (old : Nat) (s : State) (base i : Nat) : Prop where
  mem : base ∈ s.bases
  ne : base ≠ old
  le : i ≤ chunks
  written : ∀ j < i, (s.freeChunkBuffer j).memory = address base j
  unused : ∀ j < chunks, address base j ∉ s.handedOut
  behind : ∀ c j, s.cores c = .fetched j → i ≤ j

/-- `old` is the memory of the chunks that the counter hands out. -/
structure Inv (old : Nat) (s : State) : Prop where
  mem : old ∈ s.bases
  apart : s.bases.Pairwise Apart
  flag : ∀ c, (s.cores c).Filling → s.fillBufferFlag = true
  filling : ∀ c c', (s.cores c).Filling → (s.cores c').Filling → c = c'
  counter : s.nextFreeChunk = s.fetches % 2 ^ 8
  slot : ∀ j < chunks, (∀ c base i, s.cores c = .writing base i → i ≤ j) →
    (s.freeChunkBuffer j).memory = address old j
  writing : ∀ c base i, s.cores c = .writing base i → WritingOK old s base i
  claimed : ∀ c j, s.cores c = .fetched j → j < chunks →
    j < s.fetches ∧ address old j ∉ s.handedOut
  unique : ∀ c c' j, s.cores c = .fetched j → s.cores c' = .fetched j → j < chunks → c = c'
  passed : ∀ j < chunks, address old j ∈ s.handedOut → j < s.fetches
  known : ∀ a ∈ s.handedOut, ∃ b ∈ s.bases, ∃ j < chunks, a = address b j
  nodup : s.handedOut.Nodup

namespace Inv

variable {old base i core : Nat} {s s' : State}

theorem initial (base : Nat) : Inv base (State.initial base) := by
  refine ⟨List.mem_singleton.mpr rfl, List.pairwise_singleton _ _, ?_, ?_, rfl, ?_, ?_, ?_, ?_, ?_,
    ?_, List.nodup_nil⟩
  · intro c h; exact absurd h not_false
  · intro c c' h; exact absurd h not_false
  · intro j _ _; rfl
  · intro c b i h; exact absurd h (by simp [State.initial])
  · intro c j h; exact absurd h (by simp [State.initial])
  · intro c c' j h; exact absurd h (by simp [State.initial])
  · intro j _ h; exact absurd h (by simp [State.initial, State.handedOut])
  · intro a h; exact absurd h (by simp [State.initial, State.handedOut])

/-- A core goes on without fetching, and neither was nor is writing the buffer. -/
theorem set (h : Inv old s) (q : Core) (flag : Bool) (hFrom : ∀ b i, s.cores core ≠ .writing b i)
    (hWriting : ∀ b i, q ≠ .writing b i) (hFetched : ∀ j, q ≠ .fetched j)
    (hFlag : ∀ c, (Function.update s.cores core q c).Filling → flag = true)
    (hFilling : q.Filling → ∀ c, (s.cores c).Filling → c = core) :
    Inv old { s.set core q with fillBufferFlag := flag } := by
  have hWas : ∀ c b i, Function.update s.cores core q c = .writing b i →
      s.cores c = .writing b i := by
    intro c b i hc
    rcases update_cases hc with ⟨_, hEq⟩ | ⟨_, hOld⟩
    · exact absurd hEq.symm (hWriting b i)
    · exact hOld
  have hWasFetched : ∀ c j, Function.update s.cores core q c = .fetched j →
      s.cores c = .fetched j := by
    intro c j hc
    rcases update_cases hc with ⟨_, hEq⟩ | ⟨_, hOld⟩
    · exact absurd hEq.symm (hFetched j)
    · exact hOld
  have hWasFilling : ∀ c, (Function.update s.cores core q c).Filling →
      (c = core ∧ q.Filling) ∨ (s.cores c).Filling := by
    intro c hc
    by_cases hEq : c = core
    · subst hEq
      exact Or.inl ⟨rfl, by simpa using hc⟩
    · exact Or.inr (by simpa [hEq] using hc)
  refine ⟨h.mem, h.apart, hFlag, ?_, h.counter, ?_, ?_, ?_, ?_, h.passed, h.known, h.nodup⟩
  · intro c c' hc hc'
    rcases hWasFilling c hc with ⟨rfl, hq⟩ | hOld
    · rcases hWasFilling c' hc' with ⟨rfl, _⟩ | hOld'
      · rfl
      · exact (hFilling hq c' hOld').symm
    · rcases hWasFilling c' hc' with ⟨rfl, hq⟩ | hOld'
      · exact hFilling hq c hOld
      · exact h.filling c c' hOld hOld'
  · intro j hj hBehind
    refine h.slot j hj fun c b i hc => hBehind c b i ?_
    have hne : c ≠ core := by
      rintro rfl
      exact hFrom b i hc
    exact (Function.update_of_ne hne _ _).trans hc
  · intro c b i hc
    obtain ⟨hMem, hne, hle, hWritten, hUnused, hBehind⟩ := h.writing c b i (hWas c b i hc)
    exact ⟨hMem, hne, hle, hWritten, hUnused, fun c' j hc' => hBehind c' j (hWasFetched c' j hc')⟩
  · intro c j hc hj
    exact h.claimed c j (hWasFetched c j hc) hj
  · intro c c' j hc hc' hj
    exact h.unique c c' j (hWasFetched c j hc) (hWasFetched c' j hc') hj

/-- A core fetches an index. -/
theorem fetch (h : Inv old s) (hCase : s.cores core = .ready)
    (hCareful : Careful s (.fetch core)) :
    Inv old { s.set core (.fetched s.nextFreeChunk) with
      nextFreeChunk := (s.nextFreeChunk + 1) % 2 ^ 8, fetches := s.fetches + 1 } := by
  have hWas : ∀ c q, Function.update s.cores core (.fetched s.nextFreeChunk) c = q →
      (∀ j, q ≠ .fetched j) → s.cores c = q := by
    intro c q hc hq
    rcases update_cases hc with ⟨_, hEq⟩ | ⟨_, hOld⟩
    · exact absurd hEq (hq _)
    · exact hOld
  have hWasFilling : ∀ c, (Function.update s.cores core (.fetched s.nextFreeChunk) c).Filling →
      (s.cores c).Filling := by
    intro c hc
    have hOld := hWas c _ rfl fun j hEq => by rw [hEq] at hc; exact hc
    rw [hOld]
    exact hc
  -- while the counter has not wrapped around, it is the number of fetches
  have hNew : s.nextFreeChunk < chunks → s.nextFreeChunk = s.fetches := by
    intro hlt
    rw [h.counter, Nat.mod_eq_of_lt (hCareful hlt).1]
  refine ⟨h.mem, h.apart, fun c hc => h.flag c (hWasFilling c hc),
    fun c c' hc hc' => h.filling c c' (hWasFilling c hc) (hWasFilling c' hc'), ?_, ?_, ?_, ?_, ?_,
    ?_, h.known, h.nodup⟩
  · show (s.nextFreeChunk + 1) % 2 ^ 8 = (s.fetches + 1) % 2 ^ 8
    rw [h.counter]
    omega
  · intro j hj hBehind
    refine h.slot j hj fun c b i hc => hBehind c b i ?_
    have hne : c ≠ core := by
      rintro rfl
      exact absurd (hCase.symm.trans hc) (by simp)
    exact (Function.update_of_ne hne _ _).trans hc
  · intro c b i hc
    have hOld := hWas c _ hc (by simp)
    obtain ⟨hMem, hne, hle, hWritten, hUnused, hBehind⟩ := h.writing c b i hOld
    refine ⟨hMem, hne, hle, hWritten, hUnused, fun c' j hc' => ?_⟩
    rcases update_cases hc' with ⟨_, hEq⟩ | ⟨_, hOld'⟩
    · obtain rfl : j = s.nextFreeChunk := Core.fetched.inj hEq
      by_cases hlt : s.nextFreeChunk < chunks
      · exact (hCareful hlt).2 c b i hOld
      · omega
    · exact hBehind c' j hOld'
  · intro c j hc hj
    rcases update_cases hc with ⟨_, hEq⟩ | ⟨_, hOld⟩
    · obtain rfl : j = s.nextFreeChunk := Core.fetched.inj hEq
      refine ⟨by rw [hNew hj]; exact Nat.lt_succ_self _, fun hIn => ?_⟩
      exact absurd (h.passed _ hj hIn) (by rw [hNew hj]; exact Nat.lt_irrefl _)
    · obtain ⟨hlt, hOut⟩ := h.claimed c j hOld hj
      exact ⟨Nat.lt_succ_of_lt hlt, hOut⟩
  · intro c c' j hc hc' hj
    rcases update_cases hc with ⟨rfl, hEq⟩ | ⟨_, hOld⟩
    · rcases update_cases hc' with ⟨rfl, _⟩ | ⟨_, hOld'⟩
      · rfl
      · obtain rfl : j = s.nextFreeChunk := Core.fetched.inj hEq
        exact absurd (h.claimed c' _ hOld' hj).1 (by rw [hNew hj]; exact Nat.lt_irrefl _)
    · rcases update_cases hc' with ⟨rfl, hEq⟩ | ⟨_, hOld'⟩
      · obtain rfl : j = s.nextFreeChunk := Core.fetched.inj hEq
        exact absurd (h.claimed c _ hOld hj).1 (by rw [hNew hj]; exact Nat.lt_irrefl _)
      · exact h.unique c c' j hOld hOld' hj
  · intro j hj hIn
    exact Nat.lt_succ_of_lt (h.passed j hj hIn)

/-- A core leaves `allocate`, waits, or starts again. -/
theorem pause (h : Inv old s) (q : Core) (hFrom : ∀ b i, s.cores core ≠ .writing b i)
    (hq : q = .ready ∨ q = .waiting) : Inv old (s.set core q) := by
  refine h.set q s.fillBufferFlag hFrom ?_ ?_ ?_ ?_
  · rcases hq with rfl | rfl <;> simp
  · rcases hq with rfl | rfl <;> simp
  · intro c hc
    refine h.flag c ?_
    by_cases hEq : c = core
    · subst hEq
      rcases hq with rfl | rfl <;> simp [Core.Filling] at hc
    · simpa [hEq] using hc
  · rcases hq with rfl | rfl <;> simp [Core.Filling]

/-- A chunk that no core has any more is handed out. -/
theorem handOut (h : Inv old s) (chunk : Chunk) (hChunk : chunk.memory = address old i)
    (hi : i < chunks) (hlt : i < s.fetches) (hOut : address old i ∉ s.handedOut)
    (hNone : ∀ c, s.cores c ≠ .fetched i) :
    Inv old { s with returned := s.returned ++ [chunk] } := by
  have hMem : ∀ a, a ∈ (s.returned ++ [chunk]).map Chunk.memory ↔
      a ∈ s.handedOut ∨ a = address old i := by
    intro a
    rw [List.map_append, List.mem_append, List.map_singleton, List.mem_singleton, hChunk]
    rfl
  refine ⟨h.mem, h.apart, h.flag, h.filling, h.counter, h.slot, ?_, ?_, h.unique, ?_, ?_, ?_⟩
  · intro c b k hc
    have hOk := h.writing c b k hc
    refine ⟨hOk.mem, hOk.ne, hOk.le, hOk.written, fun j hj hIn => ?_, hOk.behind⟩
    rcases (hMem _).mp hIn with hOld | hEq
    · exact hOk.unused j hj hOld
    · exact (apart_of_mem h.apart hOk.mem h.mem hOk.ne).address_ne hj hi hEq
  · intro c j hc hj
    obtain ⟨hlt', hOut'⟩ := h.claimed c j hc hj
    refine ⟨hlt', fun hIn => ?_⟩
    rcases (hMem _).mp hIn with hOld | hEq
    · exact hOut' hOld
    · obtain rfl := address_inj hEq
      exact hNone c hc
  · intro j hj hIn
    rcases (hMem _).mp hIn with hOld | hEq
    · exact h.passed j hj hOld
    · obtain rfl := address_inj hEq
      exact hlt
  · intro a hIn
    rcases (hMem _).mp hIn with hOld | rfl
    · exact h.known a hOld
    · exact ⟨old, h.mem, i, hi, rfl⟩
  · show ((s.returned ++ [chunk]).map Chunk.memory).Nodup
    rw [List.map_append, List.map_singleton, hChunk]
    refine List.nodup_append.mpr ⟨h.nodup, List.nodup_singleton _, fun a ha b hb => ?_⟩
    rintro rfl
    exact hOut (List.mem_singleton.mp hb ▸ ha)

/-- A core reads the slot it has fetched. -/
theorem read (h : Inv old s) (hCase : s.cores core = .fetched i) (hi : i < chunks) :
    Inv old { s.set core .ready with returned := s.returned ++ [s.freeChunkBuffer i] } := by
  obtain ⟨hlt, hOut⟩ := h.claimed core i hCase hi
  have hSlot : (s.freeChunkBuffer i).memory = address old i :=
    h.slot i hi fun c b k hc => (h.writing c b k hc).behind core i hCase
  refine (h.pause .ready (by simp [hCase]) (Or.inl rfl)).handOut _ hSlot hi hlt hOut fun c hc => ?_
  obtain ⟨hne, hOld⟩ := update_elsewhere hc (by simp)
  exact hne (h.unique c core i hOld hCase hi)

/-- A core wins the flag. -/
theorem winFlag (h : Inv old s) (hCase : s.cores core = .fetched i)
    (hFlag : s.fillBufferFlag = false) :
    Inv old { s.set core (.moving 0) with fillBufferFlag := true } := by
  refine h.set _ true (by simp [hCase]) (by simp) (by simp) (fun _ _ => rfl) fun _ c hc => ?_
  exact absurd (h.flag c hc) (by simp [hFlag])

/-- What is in `_allocated_chunks` does not matter. -/
theorem setAllocatedChunks (h : Inv old s) (moved : List Chunk) :
    Inv old { s with allocatedChunks := moved } := by
  refine ⟨h.mem, h.apart, h.flag, h.filling, h.counter, h.slot, fun c b k hc => ?_, h.claimed,
    h.unique, h.passed, h.known, h.nodup⟩
  have hOk := h.writing c b k hc
  exact ⟨hOk.mem, hOk.ne, hOk.le, hOk.written, hOk.unused, hOk.behind⟩

/-- An old chunk is kept to be freed later. -/
theorem move (h : Inv old s) (hCase : s.cores core = .moving i) (moved : List Chunk) :
    Inv old { s.set core (.moving (i + 1)) with allocatedChunks := moved } := by
  have hCore : (s.cores core).Filling := by rw [hCase]; trivial
  have hFlag := h.flag core hCore
  have hSet : Inv old (s.set core (.moving (i + 1))) :=
    h.set _ s.fillBufferFlag (by simp [hCase]) (by simp) (by simp) (fun _ _ => hFlag)
      fun _ c hc => h.filling c core hc hCore
  exact hSet.setAllocatedChunks moved

/-- The flag is cleared. -/
theorem clearFlag (h : Inv old s) (hCase : s.cores core = .filled) :
    Inv old { s.set core .ready with fillBufferFlag := false } := by
  have hCore : (s.cores core).Filling := by rw [hCase]; trivial
  refine h.set _ false (by simp [hCase]) (by simp) (by simp) (fun c hc => ?_)
    fun hq => absurd hq not_false
  by_cases hEq : c = core
  · subst hEq
    exact absurd hc (by simp [Core.Filling])
  · rw [Function.update_of_ne hEq] at hc
    exact absurd (h.filling c core hc hCore) hEq

/-- The core that fills the buffer is the only one. -/
theorem alone (h : Inv old s) (hCore : (s.cores core).Filling) {q : Core} :
    (∀ c, (Function.update s.cores core q c).Filling → c = core) ∧
      ∀ c b k, Function.update s.cores core q c = .writing b k → c = core ∧ q = .writing b k := by
  have hOnly : ∀ c, (Function.update s.cores core q c).Filling → c = core := by
    intro c hc
    by_cases hEq : c = core
    · exact hEq
    · rw [Function.update_of_ne hEq] at hc
      exact h.filling c core hc hCore
  refine ⟨hOnly, fun c b k hc => ?_⟩
  obtain rfl := hOnly c (by rw [hc]; trivial)
  exact ⟨rfl, by simpa using hc⟩

/-- A core that fills the buffer goes on: what the others have fetched is as before. -/
theorem fetched_of_update {q : Core} (hq : ∀ j, q ≠ .fetched j) {c j : Nat}
    (hc : Function.update s.cores core q c = .fetched j) : s.cores c = .fetched j := by
  rcases update_cases hc with ⟨_, hEq⟩ | ⟨_, hOld⟩
  · exact absurd hEq.symm (hq j)
  · exact hOld

/-- The memory for the new chunks is there. -/
theorem globalAllocate (h : Inv old s) (hCase : s.cores core = .moving chunks)
    (hFresh : Fresh s.bases base) :
    Inv old { s.set core (.writing base 0) with bases := base :: s.bases } := by
  have hCore : (s.cores core).Filling := by rw [hCase]; trivial
  obtain ⟨hOnly, hWriting⟩ := h.alone hCore (q := .writing base 0)
  refine ⟨List.mem_cons_of_mem _ h.mem, List.pairwise_cons.mpr ⟨hFresh.2.2, h.apart⟩,
    fun _ _ => h.flag core hCore, fun c c' hc hc' => (hOnly c hc).trans (hOnly c' hc').symm,
    h.counter, ?_, ?_, ?_, ?_, h.passed, ?_, h.nodup⟩
  · intro j hj _
    refine h.slot j hj fun c b k hc => ?_
    obtain rfl := h.filling c core (by rw [hc]; trivial) hCore
    exact absurd (hCase.symm.trans hc) (by simp)
  · intro c b k hc
    obtain ⟨rfl, rfl⟩ := Core.writing.inj (hWriting c b k hc).2
    refine ⟨List.mem_cons_self .., (hFresh.2.2 old h.mem).ne, Nat.zero_le _,
      fun j hj => absurd hj (Nat.not_lt_zero _), fun j hj hIn => ?_, fun _ _ _ => Nat.zero_le _⟩
    obtain ⟨b', hb', j', hj', hEq⟩ := h.known _ hIn
    exact (hFresh.2.2 b' hb').address_ne hj hj' hEq
  · intro c j hc hj
    exact h.claimed c j (fetched_of_update (by simp) hc) hj
  · intro c c' j hc hc' hj
    exact h.unique c c' j (fetched_of_update (by simp) hc) (fetched_of_update (by simp) hc') hj
  · intro a ha
    obtain ⟨b, hb, hj⟩ := h.known a ha
    exact ⟨b, List.mem_cons_of_mem _ hb, hj⟩

/-- A slot is written that no core has fetched. -/
theorem write (h : Inv old s) (hCase : s.cores core = .writing base i) (hi : i < chunks)
    (hCareful : Careful s (.write core)) :
    Inv old { s.set core (.writing base (i + 1)) with
      freeChunkBuffer := Function.update s.freeChunkBuffer i (chunkAt base i) } := by
  have hCore : (s.cores core).Filling := by rw [hCase]; trivial
  obtain ⟨hOnly, hWriting⟩ := h.alone hCore (q := .writing base (i + 1))
  have hOk := h.writing core base i hCase
  refine ⟨h.mem, h.apart, fun _ _ => h.flag core hCore,
    fun c c' hc hc' => (hOnly c hc).trans (hOnly c' hc').symm, h.counter, ?_, ?_, ?_, ?_, h.passed,
    h.known, h.nodup⟩
  · intro j hj hBehind
    have hlt : i + 1 ≤ j := hBehind core base (i + 1) (Function.update_self ..)
    show (Function.update s.freeChunkBuffer i (chunkAt base i) j).memory = address old j
    rw [Function.update_of_ne (by omega)]
    refine h.slot j hj fun c b k hc => ?_
    obtain rfl := h.filling c core (by rw [hc]; trivial) hCore
    obtain ⟨_, rfl⟩ := Core.writing.inj (hCase.symm.trans hc)
    omega
  · intro c b k hc
    obtain ⟨rfl, rfl⟩ := Core.writing.inj (hWriting c b k hc).2
    refine ⟨hOk.mem, hOk.ne, hi, fun j hj => ?_, hOk.unused, fun c' j hc' => ?_⟩
    · show (Function.update s.freeChunkBuffer i (chunkAt base i) j).memory = address base j
      by_cases hEq : j = i
      · subst hEq
        rw [Function.update_self]
        rfl
      · rw [Function.update_of_ne hEq]
        exact hOk.written j (by omega)
    · have hOld := fetched_of_update (by simp) hc'
      have hle := hOk.behind c' j hOld
      have hne : j ≠ i := by
        rintro rfl
        exact hCareful base j hCase c' hOld
      omega
  · intro c j hc hj
    exact h.claimed c j (fetched_of_update (by simp) hc) hj
  · intro c c' j hc hc' hj
    exact h.unique c c' j (fetched_of_update (by simp) hc) (fetched_of_update (by simp) hc') hj

/-- The counter is reset: from now on the new chunks are handed out. -/
theorem reset (h : Inv old s) (hCase : s.cores core = .writing base chunks) :
    Inv base { s.set core .filled with nextFreeChunk := 0, fetches := 0 } := by
  have hCore : (s.cores core).Filling := by rw [hCase]; trivial
  obtain ⟨hOnly, hWriting⟩ := h.alone hCore (q := .filled)
  have hOk := h.writing core base chunks hCase
  have hFetched : ∀ c j, Function.update s.cores core .filled c = .fetched j → ¬ j < chunks := by
    intro c j hc
    exact Nat.not_lt.mpr (hOk.behind c j (fetched_of_update (by simp) hc))
  refine ⟨hOk.mem, h.apart, fun _ _ => h.flag core hCore,
    fun c c' hc hc' => (hOnly c hc).trans (hOnly c' hc').symm, rfl, ?_, ?_, ?_, ?_, ?_, h.known,
    h.nodup⟩
  · intro j hj _
    exact hOk.written j hj
  · intro c b k hc
    exact absurd (hWriting c b k hc).2 (by simp)
  · intro c j hc hj
    exact absurd hj (hFetched c j hc)
  · intro c c' j hc _ hj
    exact absurd hj (hFetched c j hc)
  · intro j hj hIn
    exact absurd hIn (hOk.unused j hj)

/-- One careful step. -/
theorem step {e : Event} (h : Inv old s) (hCareful : Careful s e) (hStep : Step s e s') :
    ∃ old', Inv old' s' := by
  cases hStep with
  | fetch core _ hCase => exact ⟨old, h.fetch hCase hCareful⟩
  | read core i hCase hi => exact ⟨old, h.read hCase hi⟩
  | winFlag core i hCase _ hFlag => exact ⟨old, h.winFlag hCase hFlag⟩
  | loseFlag core i hCase _ _ => exact ⟨old, h.pause _ (by simp [hCase]) (Or.inr rfl)⟩
  | move core i hCase _ => exact ⟨old, h.move hCase _⟩
  | globalAllocate core base hCase hFresh => exact ⟨old, h.globalAllocate hCase hFresh⟩
  | write core base i hCase hi => exact ⟨old, h.write hCase hi hCareful⟩
  | reset core base hCase => exact ⟨base, h.reset hCase⟩
  | clearFlag core hCase => exact ⟨old, h.clearFlag hCase⟩
  | wait core hCase _ => exact ⟨old, h.pause _ (by simp [hCase]) (Or.inl rfl)⟩

end Inv

/-! ## One core after the other -/

namespace State

/-- `n` chunks of the buffer are handed out. -/
def drained (s : State) (n : Nat) : State :=
  { s with
    nextFreeChunk := s.nextFreeChunk + n
    fetches := s.fetches + n
    returned := s.returned ++ (List.range' s.nextFreeChunk n).map s.freeChunkBuffer }

/-- The first `n` old chunks are moved. -/
def moved (s : State) (core n : Nat) : State :=
  { s.set core (.moving n) with
    allocatedChunks := s.allocatedChunks ++ (List.range n).map s.freeChunkBuffer }

/-- The first `n` new chunks are written. -/
def written (s : State) (core base n : Nat) : State :=
  { s.set core (.writing base n) with
    freeChunkBuffer := fun j => if j < n then chunkAt base j else s.freeChunkBuffer j }

end State

section Alone

variable {s : State} (good : State → Event → Prop) (core : Nat)

/-- A core that nobody gets in the way of takes the chunks one after the other. -/
theorem run_drained (hCore : core < maxCores) (hReady : s.cores core = .ready)
    (hRead : ∀ s', good s' (.read core)) (n : Nat) (hn : s.nextFreeChunk + n ≤ chunks)
    (hFetch : ∀ k < n, good (s.drained k) (.fetch core)) :
    ∃ log, Verified.Run (Verified.Guarded Step good) s log (s.drained n) := by
  induction n with
  | zero =>
      refine ⟨[], ?_⟩
      rw [show s.drained 0 = s by simp [State.drained]]
      exact Verified.Run.nil
  | succ n ih =>
      obtain ⟨log, hRun⟩ := ih (by omega) fun k hk => hFetch k (by omega)
      have hFetched := hRun.snoc ⟨hFetch n (by omega),
        Step.fetch (s := s.drained n) core hCore hReady⟩
      have hTaken := hFetched.snoc ⟨hRead _,
        Step.read core (s.nextFreeChunk + n) (Function.update_self ..) (by omega)⟩
      have hMod : (s.nextFreeChunk + (n + 1)) % 256 = s.nextFreeChunk + (n + 1) :=
        Nat.mod_eq_of_lt (by simp only [chunks] at hn; omega)
      have hSame : Function.update s.cores core .ready = s.cores := by
        rw [← hReady, Function.update_eq_self]
      refine ⟨_, hTaken.cast ?_⟩
      simp [State.drained, State.set, hMod, hSame, List.range'_concat, Nat.add_assoc]

theorem run_moved (hMove : ∀ s', good s' (.move core)) (n : Nat) (hn : n ≤ chunks) :
    ∃ log, Verified.Run (Verified.Guarded Step good) (s.moved core 0) log (s.moved core n) := by
  induction n with
  | zero => exact ⟨[], Verified.Run.nil⟩
  | succ n ih =>
      obtain ⟨log, hRun⟩ := ih (by omega)
      have hMoved := hRun.snoc ⟨hMove _, Step.move core n (Function.update_self ..) (by omega)⟩
      refine ⟨_, hMoved.cast ?_⟩
      simp [State.moved, State.set, List.range_succ]

theorem run_written (base n : Nat) (hn : n ≤ chunks)
    (hWrite : ∀ k < n, good (s.written core base k) (.write core)) :
    ∃ log, Verified.Run (Verified.Guarded Step good) (s.written core base 0) log
      (s.written core base n) := by
  induction n with
  | zero => exact ⟨[], Verified.Run.nil⟩
  | succ n ih =>
      obtain ⟨log, hRun⟩ := ih (by omega) fun k hk => hWrite k (by omega)
      have hWritten := hRun.snoc ⟨hWrite n (by omega),
        Step.write core base n (Function.update_self ..) (by omega)⟩
      refine ⟨_, hWritten.cast ?_⟩
      have hBuffer : Function.update (s.written core base n).freeChunkBuffer n (chunkAt base n) =
          (s.written core base (n + 1)).freeChunkBuffer := by
        funext j
        by_cases hEq : j = n
        · subst hEq
          simp [State.written]
        · have hIff : j < n ↔ j < n + 1 := by omega
          simp [State.written, Function.update_of_ne hEq, hIff]
      rw [hBuffer]
      simp [State.written, State.set]

/-- A core that nobody gets in the way of fills the buffer. -/
theorem run_refilled (i base : Nat) (hCase : s.cores core = .fetched i) (hi : chunks ≤ i)
    (hFlag : s.fillBufferFlag = false) (hFresh : Fresh s.bases base)
    (hOther : ∀ s' e, (∀ c, e ≠ .fetch c) → (∀ c, e ≠ .write c) → good s' e)
    (hWrite : ∀ s' k, s'.cores = Function.update s.cores core (.writing base k) →
      good s' (.write core)) :
    ∃ log s', Verified.Run (Verified.Guarded Step good) s log s' ∧
      s'.cores = Function.update s.cores core .ready ∧
      (∀ j < chunks, s'.freeChunkBuffer j = chunkAt base j) ∧ s'.nextFreeChunk = 0 ∧
      s'.fetches = 0 ∧ s'.returned = s.returned := by
  have hWin := Verified.Run.single (show Verified.Guarded Step good s (.exchangeFlag core) _ from
    ⟨hOther _ _ (fun _ => nofun) fun _ => nofun, Step.winFlag core i hCase hi hFlag⟩)
  obtain ⟨_, hMoved⟩ := run_moved (s := { s with fillBufferFlag := true }) good core
    (fun s' => hOther s' _ (fun _ => nofun) fun _ => nofun) chunks le_rfl
  have hBase := ((hWin.cast (by simp [State.moved, State.set])).append hMoved).snoc
    (e := .globalAllocate core) ⟨hOther _ _ (fun _ => nofun) fun _ => nofun,
      Step.globalAllocate core base (Function.update_self ..) hFresh⟩
  obtain ⟨_, hWritten⟩ := run_written
    (s := { (State.moved { s with fillBufferFlag := true } core chunks) with
      bases := base :: s.bases }) good core base chunks le_rfl
    fun k _ => hWrite _ k (by simp [State.moved, State.written, State.set])
  have hReset := ((hBase.cast (by simp [State.moved, State.written, State.set])).append
    hWritten).snoc (e := .reset core) ⟨hOther _ _ (fun _ => nofun) fun _ => nofun,
      Step.reset core base (Function.update_self ..)⟩
  have hClear := hReset.snoc (e := .clearFlag core)
    ⟨hOther _ _ (fun _ => nofun) fun _ => nofun, Step.clearFlag core (Function.update_self ..)⟩
  refine ⟨_, _, hClear, ?_, fun j hj => if_pos hj, rfl, rfl, rfl⟩
  simp [State.moved, State.written, State.set]

end Alone

/-! ## No chunk twice -/

/-- In every run of careful steps, no two completed calls return the same chunk. -/
theorem returned_nodup_of_run (base : Nat) (log : List Event) (s : State)
    (hRun : Verified.Run (Verified.Guarded Step Careful) (State.initial base) log s) :
    s.handedOut.Nodup := by
  have hInv : ∃ old, Inv old s :=
    hRun.invariant (P := fun s => ∃ old, Inv old s) ⟨base, Inv.initial base⟩
      fun _ _ _ ⟨_, h⟩ hStep => h.step hStep.1 hStep.2
  obtain ⟨old, h⟩ := hInv
  exact h.nodup

/-- As long as all cores are in front of `allocate`, a core may fetch. -/
theorem careful_drained {s : State} (hReady : s.cores = fun _ => .ready)
    (hCounter : s.fetches = s.nextFreeChunk) (core k : Nat) :
    Careful (s.drained k) (.fetch core) := by
  intro hNext
  refine ⟨?_, fun c base i hc => ?_⟩
  · have hLess : s.nextFreeChunk + k < 128 := hNext
    show s.fetches + k < 256
    omega
  · have hWas : s.cores c = .writing base i := hc
    rw [hReady] at hWas
    cases hWas

theorem careful_other {s : State} {e : Event} (hFetch : ∀ c, e ≠ .fetch c)
    (hWrite : ∀ c, e ≠ .write c) : Careful s e := by
  cases e with
  | fetch core => exact absurd rfl (hFetch core)
  | write core => exact absurd rfl (hWrite core)
  | _ => trivial

/-- As long as all other cores are in front of `allocate`, a core may write. -/
theorem careful_written {s s' : State} {core base k : Nat}
    (hReady : ∀ c ≠ core, s.cores c = .ready)
    (hCores : s'.cores = Function.update s.cores core (.writing base k)) :
    Careful s' (.write core) := by
  intro _ i _ c hc
  rw [hCores] at hc
  rcases update_cases hc with ⟨_, hEq⟩ | ⟨hne, hWas⟩
  · cases hEq
  · rw [hReady c hne] at hWas
    cases hWas

/-- One core takes all chunks, finds the counter behind the buffer and fills it; another core takes
the first new chunk. -/
theorem returned_nodup_of_run_refilled :
    ∃ log s, Verified.Run (Verified.Guarded Step Careful) (State.initial (2 ^ 31)) log s ∧
      s.returned.length = 129 ∧ s.returned.getLast? = some ⟨2 ^ 32, true⟩ ∧
      s.handedOut.Nodup := by
  obtain ⟨_, hFirst⟩ := run_drained (s := State.initial (2 ^ 31)) Careful 0 (by decide)
    rfl (fun _ => trivial) 128 (by decide) fun k _ => careful_drained rfl rfl 0 k
  have hFull : Careful ((State.initial (2 ^ 31)).drained 128) (.fetch 0) :=
    fun hNext => absurd hNext (by decide)
  have hBehind := hFirst.snoc ⟨hFull, Step.fetch 0 (by decide) rfl⟩
  obtain ⟨_, s, hRefill, hCores, hBuffer, hNext, hFetches, hReturned⟩ := run_refilled
    (s := { ((State.initial (2 ^ 31)).drained 128).set 0 (.fetched 128) with
      nextFreeChunk := 129, fetches := 129 }) Careful 0 128 (2 ^ 32) rfl le_rfl rfl
    ⟨by decide, by decide, by
      simp [State.initial, State.drained, State.set, Apart, address, chunks, Chunk.size]⟩
    (fun _ _ => careful_other)
    fun _ _ => careful_written fun c hne => Function.update_of_ne hne _ _
  have hReady : s.cores = fun _ => .ready := by
    rw [hCores]
    simp [State.set, State.drained, State.initial]
  obtain ⟨_, hLast⟩ := run_drained (s := s) Careful 1 (by decide) (by rw [hReady])
    (fun _ => trivial) 1 (by rw [hNext]; decide) fun k _ =>
      careful_drained hReady (hFetches.trans hNext.symm) 1 k
  have hEnd := (hBehind.append hRefill).append hLast
  refine ⟨_, _, hEnd, ?_, ?_, returned_nodup_of_run _ _ _ hEnd⟩
  · simp [State.drained, State.set, State.initial, hReturned]
  · simp [State.drained, hNext, hBuffer 0 (by decide), chunkAt, address]

/-! ## A chunk twice -/

/-- A core has fetched the last slot and not read it when another core fills the buffer; the new
chunk is then returned to it, and once more when its turn comes. -/
theorem refill_under_reader :
    ∃ log s, Verified.Run Step (State.initial (2 ^ 31)) log s ∧ ¬ s.handedOut.Nodup := by
  obtain ⟨_, hFirst⟩ := run_drained (s := State.initial (2 ^ 31)) (fun _ _ => True) 0
    (by decide) rfl (fun _ => trivial) 127 (by decide) fun _ _ => trivial
  -- core 1 fetches index 127, core 0 finds the counter behind the buffer
  have hFetch := hFirst.of_guarded.snoc (Step.fetch 1 (by decide) rfl)
  have hBehind := hFetch.snoc (Step.fetch 0 (by decide) rfl)
  obtain ⟨_, s, hRefill, hCores, _, hCounter, _⟩ := run_refilled
    (s := { ({ ((State.initial (2 ^ 31)).drained 127).set 1 (.fetched 127) with
      nextFreeChunk := 128, fetches := 128 } : State).set 0 (.fetched 128) with
      nextFreeChunk := 129, fetches := 129 }) (fun _ _ => True) 0 128 (2 ^ 32) rfl
    (by decide) rfl
    ⟨by decide, by decide, by simp [State.initial, State.drained, State.set, Apart, address, chunks,
      Chunk.size]⟩ (fun _ _ _ _ => trivial) fun _ _ _ => trivial
  have hRead := (hBehind.append hRefill.of_guarded).snoc
    (Step.read 1 127 (by rw [hCores]; rfl) (by decide))
  obtain ⟨_, hAgain⟩ := run_drained
    (s := { s.set 1 .ready with returned := s.returned ++ [s.freeChunkBuffer 127] })
    (fun _ _ => True) 0 (by decide) (by simp [State.set, hCores]) (fun _ => trivial) 128
    (by simp [State.set, hCounter, chunks]) fun _ _ => trivial
  refine ⟨_, _, hRead.append hAgain.of_guarded, fun hNodup => ?_⟩
  simp only [State.handedOut, State.drained, State.set, hCounter, List.map_append] at hNodup
  refine (List.nodup_append.mp hNodup).2.2 (s.freeChunkBuffer 127).memory (by simp)
    (s.freeChunkBuffer 127).memory ?_ rfl
  exact List.mem_map_of_mem (List.mem_map_of_mem (by simp))

end ProcessorHeap

end MxTasking.Memory.Fixed
