import MxTasking.Memory.AllocatorSafety

/-!
# When the allocator finds memory

`Allocator::allocate` makes new blocks until one of them serves the request.  The size of a new
block is fixed before the loop: the default of `2 ^ 28` bytes, or the request rounded up to a
multiple of 64 where that is more.  Neither has the header of 16 bytes in it, nor what may be lost
to start aligned, so a request at or above the default size may find every new block too small,
and the loop then makes block after block.

Whether one block is enough depends on where the heap places it: there must be an aligned
address with 16 bytes in front and the request behind it (`Room`).

## Main results

* `construct_allocate_iff` — when a new block serves a request.
* `allocateLoop_ends_iff` — the loop ends with the first block that has room.
* `allocate_ends_iff` — which requests one new block is enough for.
-/

namespace MxTasking.Memory

open MxTasking.Verified.Tiling

/-- A block of `blockSize` bytes at `base` has an aligned address with room for the header in front
and for the request behind. -/
def Room (alignment size blockSize base : Nat) : Prop :=
  ∃ p, alignment ∣ p ∧ base + sizeofAllocatedHeader ≤ p ∧ p + size ≤ base + blockSize

/-- Wherever the block is placed, there is room exactly if it is larger than the request by a
header and the largest loss to the alignment. -/
theorem room_iff {alignment size blockSize : Nat} (hPos : 0 < alignment) :
    (∀ base, Room alignment size blockSize base) ↔
      size + sizeofAllocatedHeader + (alignment - 1) ≤ blockSize := by
  constructor
  · intro hRoom
    -- right behind this address, with the header, a multiple of the alignment has just passed
    obtain ⟨p, ⟨k, rfl⟩, hHeader, hSize⟩ := hRoom (15 * (alignment - 1))
    unfold sizeofAllocatedHeader at *
    have hFactor : 16 ≤ k := by
      by_contra hLess
      have hMul : alignment * k ≤ alignment * 15 := Nat.mul_le_mul_left _ (by omega)
      omega
    have hMul : alignment * 16 ≤ alignment * k := Nat.mul_le_mul_left _ hFactor
    omega
  · intro hSlack base
    have hMod := Nat.mod_lt (base + sizeofAllocatedHeader + (alignment - 1)) hPos
    have hLe := Nat.mod_le (base + sizeofAllocatedHeader + (alignment - 1)) alignment
    exact ⟨_, Nat.dvd_sub_mod (base + sizeofAllocatedHeader + (alignment - 1)), by omega, by omega⟩

/-- An alignment and a size as `std::size_t` has them. -/
structure Request (alignment size : Nat) : Prop where
  power : ∃ n, alignment = 2 ^ n
  alignment_lt : alignment < 2 ^ 64
  size_lt : size < 2 ^ 64

theorem Request.pos {alignment size : Nat} (h : Request alignment size) : 0 < alignment := by
  obtain ⟨n, rfl⟩ := h.power
  exact Nat.two_pow_pos n

namespace AllocationBlock

/-- When a block serves a request. -/
theorem allocate_ne_none_iff (b : AllocationBlock) (alignment size : Nat) :
    (b.allocate alignment size).2 ≠ none ↔
      size ≤ b.availableSize ∧ b.findBlock alignment size ≠ none := by
  unfold allocate
  by_cases hAvailable : b.availableSize < size
  · rw [if_pos hAvailable]
    simp [hAvailable]
  rw [if_neg hAvailable]
  cases b.findBlock alignment size with
  | none => simp
  | some found =>
      have hSize := not_lt.mp hAvailable
      dsimp only
      split
      · simp [hSize]
      · simp [hSize]

/-- A new block serves a request exactly if there is room for it. -/
theorem construct_allocate_iff {alignment size blockSize base : Nat} (h : Request alignment size)
    (hBase : base + blockSize + sizeofAllocatedHeader < 2 ^ 64) (id : UInt32) (numaNodeId : UInt8) :
    ((construct id numaNodeId blockSize base).allocate alignment size).2 ≠ none ↔
      Room alignment size blockSize base := by
  have hFind : (construct id numaNodeId blockSize base).findBlock alignment size ≠ none ↔
      canHold alignment size ⟨base, blockSize⟩ = true := by
    by_cases hCase : canHold alignment size ⟨base, blockSize⟩ = true
    · simp [findBlock, construct, findBlockFrom, hCase]
    · simp [findBlock, construct, findBlockFrom, hCase]
  rw [allocate_ne_none_iff, hFind]
  have hMod := Nat.mod_le (base + blockSize - size) alignment
  constructor
  · rintro ⟨hSize, hHold⟩
    have hSize : size ≤ blockSize := hSize
    -- no sum overflows, since the block ends a header before the end of the address space
    have hTaken := alignedSizeIncludingHeader_of_lt (e := ⟨base, blockSize⟩) h.power
      h.alignment_lt (show base + blockSize < 2 ^ 64 by omega) hSize
      (show size + (base + blockSize - size) % alignment + _ < 2 ^ 64 by omega)
    rw [canHold, decide_eq_true_iff, hTaken] at hHold
    exact fits_iff.mp hHold.2
  · intro hRoom
    have hLe : size + (base + blockSize - size) % alignment + sizeofAllocatedHeader ≤ blockSize :=
      fits_iff (e := ⟨base, blockSize⟩).mpr hRoom
    have hSize : size ≤ blockSize := by omega
    have hTaken := alignedSizeIncludingHeader_of_lt (e := ⟨base, blockSize⟩) h.power
      h.alignment_lt (show base + blockSize < 2 ^ 64 by omega) hSize
      (show size + (base + blockSize - size) % alignment + _ < 2 ^ 64 by omega)
    refine ⟨hSize, ?_⟩
    rw [canHold, decide_eq_true_iff, hTaken, add64_eq (by omega)]
    exact ⟨show size + sizeofAllocatedHeader ≤ blockSize by omega, hLe⟩

end AllocationBlock

namespace Allocator

/-- The last block of the node has just been made. -/
theorem allocateNewBlock_allocateBack (a : Allocator) (numaNodeId : UInt8)
    (alignment size blockSize base : Nat) :
    ((a.allocateNewBlock numaNodeId blockSize base).allocateBack numaNodeId alignment size).2 =
      ((AllocationBlock.construct (a.nextAllocationId numaNodeId) numaNodeId blockSize
        base).allocate alignment size).2 := by
  have hBack : (a.allocateNewBlock numaNodeId blockSize base).blocks numaNodeId =
      a.blocks numaNodeId ++ [AllocationBlock.construct (a.nextAllocationId numaNodeId) numaNodeId
        blockSize base] := Function.update_self ..
  rw [allocateBack_eq hBack]

/-- One round of the loop: it ends if the new block has room, or goes on with one block more. -/
theorem allocateLoop_cons {alignment size base : Nat} (h : Request alignment size)
    (hBase : base + sizeToAlloc size + sizeofAllocatedHeader < 2 ^ 64) (a : Allocator)
    (numaNodeId : UInt8) (bases : List Nat) :
    (a.allocateLoop numaNodeId alignment size (base :: bases)).2 ≠ none ↔
      Room alignment size (sizeToAlloc size) base ∨
        ((a.allocateNewBlock numaNodeId (sizeToAlloc size) base).allocateLoop numaNodeId alignment
          size bases).2 ≠ none := by
  have hFirst := AllocationBlock.construct_allocate_iff h hBase (a.nextAllocationId numaNodeId)
    numaNodeId
  rw [← allocateNewBlock_allocateBack] at hFirst
  rw [← hFirst, allocateLoop]
  generalize hCall : (a.allocateNewBlock numaNodeId (sizeToAlloc size) base).allocateBack numaNodeId
    alignment size = result
  obtain ⟨a', _ | memory⟩ := result
  · rw [allocateBack_null hCall]
    simp
  · simp

/-- The loop ends with the first block that has room for the request, and goes on while none has. -/
theorem allocateLoop_ends_iff {alignment size : Nat} (h : Request alignment size)
    (numaNodeId : UInt8) (bases : List Nat)
    (hBases : ∀ base ∈ bases, base + sizeToAlloc size + sizeofAllocatedHeader < 2 ^ 64)
    (a : Allocator) :
    (a.allocateLoop numaNodeId alignment size bases).2 ≠ none ↔
      ∃ base ∈ bases, Room alignment size (sizeToAlloc size) base := by
  induction bases generalizing a with
  | nil => simp [allocateLoop]
  | cons base bases ih =>
      have hRest := ih fun b hb => hBases b (List.mem_cons_of_mem base hb)
      rw [allocateLoop_cons h (hBases base List.mem_cons_self), hRest, List.exists_mem_cons_iff]

/-- The heap can place a block of `size` bytes at `base`: it overlaps no other block, and does not
reach the last bytes of the address space. -/
def Supplies (a : Allocator) (base size : Nat) : Prop :=
  Fresh a.blocks base size ∧ base + size + sizeofAllocatedHeader < 2 ^ 64

/-- Once the heap has placed a block, the call returns memory. -/
def Ends (a : Allocator) (numaNodeId : UInt8) (alignment size : Nat) : Prop :=
  ∀ base bases, a.Supplies base (sizeToAlloc size) →
    (a.allocate numaNodeId alignment size (base :: bases)).2 ≠ none

/-- One new block is enough for a request exactly if the last block of the node serves it or there
is room in the new one wherever the heap can place it.  For arbitrary places this means that the
size of the new block leaves room for the header and for the largest loss to the alignment. -/
theorem allocate_ends_iff (a : Allocator) (numaNodeId : UInt8) {alignment size : Nat}
    (h : Request alignment size) :
    (a.Ends numaNodeId alignment size ↔
      (a.allocateBack numaNodeId alignment size).2 ≠ none ∨
        ∀ base, a.Supplies base (sizeToAlloc size) →
          Room alignment size (sizeToAlloc size) base) ∧
    ((∀ base, Room alignment size (sizeToAlloc size) base) ↔
      size + sizeofAllocatedHeader + (alignment - 1) ≤ sizeToAlloc size) := by
  refine ⟨?_, room_iff h.pos⟩
  unfold Ends Allocator.allocate
  generalize hCall : a.allocateBack numaNodeId alignment size = result
  obtain ⟨a', _ | memory⟩ := result
  · obtain rfl := allocateBack_null hCall
    constructor
    · intro hEnds
      refine Or.inr fun base hBase => ?_
      have hOne := (allocateLoop_cons h hBase.2 a' numaNodeId []).mp (hEnds base [] hBase)
      exact hOne.resolve_right fun hNone => hNone rfl
    · rintro (hSome | hRoom) base bases hBase
      · exact absurd rfl hSome
      · exact (allocateLoop_cons h hBase.2 a' numaNodeId bases).mpr (Or.inl (hRoom base hBase))
  · exact ⟨fun _ => Or.inl (by simp), fun _ _ _ _ => by simp⟩

/-- A kilobyte, aligned to a cache line. -/
theorem allocate_ends_kilobyte :
    (Allocator.construct 0 fun _ => 65536).Ends 0 64 1024 := by
  have hRequest : Request 64 1024 := ⟨⟨6, rfl⟩, by decide, by decide⟩
  obtain ⟨hEnds, hRoom⟩ := allocate_ends_iff (Allocator.construct 0 fun _ => 65536) 0 hRequest
  exact hEnds.mpr (Or.inr fun base _ => hRoom.mpr (by decide) base)

/-- A request of the default block size: the first block is too small, and so is every block that
is made for the request. -/
theorem not_ends_default_size :
    ¬ (Allocator.construct 0 fun _ => 65536).Ends 0 64 (2 ^ 28) ∧
      ∀ bases : List Nat, (∀ base ∈ bases, base < 2 ^ 63) →
        ((Allocator.construct 0 fun _ => 65536).allocate 0 64 (2 ^ 28) bases).2 = none := by
  have hRequest : Request 64 (2 ^ 28) := ⟨⟨6, rfl⟩, by decide, by decide⟩
  have hBack : ((Allocator.construct 0 fun _ => 65536).allocateBack 0 64 (2 ^ 28)).2 = none := by
    decide
  have hSize : sizeToAlloc (2 ^ 28) = 2 ^ 28 := by decide
  have hNoRoom : ∀ base, ¬ Room 64 (2 ^ 28) (sizeToAlloc (2 ^ 28)) base := by
    rintro base ⟨p, _, hHeader, hRoom⟩
    rw [hSize] at hRoom
    unfold sizeofAllocatedHeader at hHeader
    omega
  have hNever : ∀ bases : List Nat, (∀ base ∈ bases, base < 2 ^ 63) →
      ((Allocator.construct 0 fun _ => 65536).allocate 0 64 (2 ^ 28) bases).2 = none := by
    intro bases hBases
    have hLoop := (allocateLoop_ends_iff hRequest 0 bases (fun base hBase => ?_)
      (Allocator.construct 0 fun _ => 65536)).not.mpr fun ⟨base, _, hRoom⟩ => hNoRoom base hRoom
    · rw [not_not] at hLoop
      unfold Allocator.allocate
      generalize hCall : (Allocator.construct 0 fun _ => 65536).allocateBack 0 64 (2 ^ 28) = result
        at hBack
      obtain ⟨a, _ | memory⟩ := result
      · rw [allocateBack_null hCall]
        exact hLoop
      · exact absurd hBack (by simp)
    · have := hBases base hBase
      rw [hSize]
      unfold sizeofAllocatedHeader
      omega
  refine ⟨fun hEnds => ?_, hNever⟩
  refine hEnds (2 ^ 32) [] ⟨⟨by decide, fun i b hb => ?_⟩, by decide⟩ (hNever _ (by simp))
  by_cases hi : i = 0
  · subst hi
    obtain rfl : b = AllocationBlock.construct 0 0 initialSize 65536 := by
      simpa [Allocator.construct, initializeEmpty] using hb
    exact Or.inr (by decide)
  · simp [Allocator.construct, initializeEmpty, hi] at hb

end Allocator

end MxTasking.Memory
