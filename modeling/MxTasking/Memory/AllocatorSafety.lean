import MxTasking.Memory.Allocator

/-!
# No block with a live allocation is given back

`AllocationBlock::is_free()` reads off the list of free elements whether a block is
free, and it also says so when that list is empty.  In a block whose list is never
empty the answer is right: then the block is free exactly when it has no live allocation.  A
request that takes the only free element of a block as a whole (`takesLast`) empties the list.

The invariant keeps a tiling for each block, over one memory, with the live allocations
sorted by the block they lie in.  Blocks of one node have different ids as long as the
32-bit counter does not come back to the id of a block that is still there.

## Main results

* `BlockOk.isFree_iff` — what `is_free()` says of a block.
* `Inv.replace`, `Inv.retain`, `Inv.initializeEmpty` — changing, giving back and making blocks.
* `safe_of_run` — no run that avoids the two situations gives a live block back, and `free`
  finds the block of every live pointer.
-/

namespace MxTasking.Memory

open MxTasking.Verified
open MxTasking.Verified.Tiling

namespace AllocationBlock

/-- Header and pointer lie in the block. -/
def contains (b : AllocationBlock) (o : Allocation) : Bool :=
  b.allocatedBlock ≤ o.headerAddress ∧ o.pointer ≤ b.allocatedBlock + b.size

/-- The request takes the only free element, as a whole. -/
def takesLast (b : AllocationBlock) (alignment size : Nat) : Bool :=
  match b.findBlock alignment size with
  | none => false
  | some (_, e, taken) => b.freeElements.length = 1 && e.size - taken < 256

/-- The blocks do not overlap. -/
def Apart (b b' : AllocationBlock) : Prop :=
  b.allocatedBlock + b.size ≤ b'.allocatedBlock ∨ b'.allocatedBlock + b'.size ≤ b.allocatedBlock

variable {b b' : AllocationBlock} {o : Allocation}

theorem contains_iff : b.contains o = true ↔
    b.allocatedBlock ≤ o.headerAddress ∧ o.pointer ≤ b.allocatedBlock + b.size := by
  simp [contains]

theorem contains_congr (hBase : b'.allocatedBlock = b.allocatedBlock) (hSize : b'.size = b.size) :
    b'.contains = b.contains := by
  funext o
  simp [contains, hBase, hSize]

/-- An allocation lies in one block only. -/
theorem not_contains (hApart : b.Apart b') (ho : b.contains o = true)
    (hHeader : o.headerAddress + sizeofAllocatedHeader = o.pointer) : b'.contains o = false := by
  rw [Bool.eq_false_iff]
  intro ho'
  rw [contains_iff] at ho ho'
  unfold Apart at hApart
  unfold sizeofAllocatedHeader at hHeader
  omega

theorem takesLast_eq_false_iff {alignment size : Nat} {before after : List FreeHeader}
    {e : FreeHeader} (hElements : b.freeElements = before ++ e :: after)
    (hFirst : ∀ x ∈ before, canHold alignment size x = false)
    (hHold : canHold alignment size e = true) :
    b.takesLast alignment size = false ↔
      (e.size - alignedSizeIncludingHeader alignment size e < 256 → before ++ after ≠ []) := by
  have hLength : b.freeElements.length = 1 ↔ before ++ after = [] := by
    rw [hElements, ← List.length_eq_zero_iff]
    simp only [List.length_append, List.length_cons]
    omega
  unfold takesLast
  rw [findBlock_eq hElements hFirst hHold]
  dsimp only
  rw [Bool.and_eq_false_iff, decide_eq_false_iff_not, decide_eq_false_iff_not, hLength]
  tauto

/-- A successful request leaves a free element unless it takes the only one. -/
theorem allocate_freeElements_ne_nil {alignment size : Nat} {memory : Nat × AllocatedHeader}
    (hAdmissible : Admissible alignment size) (hStop : ∀ e ∈ b.freeElements, e.stop < 2 ^ 64)
    (hCall : b.allocate alignment size = (b', some memory)) :
    b'.freeElements ≠ [] ↔ b.takesLast alignment size = false := by
  have hOutcome := b.allocate_outcome hAdmissible hStop
  rw [hCall] at hOutcome
  cases hOutcome with
  | contracted before after e taken hElements hTaken hHold hFirst hPlace hRest =>
      rw [takesLast_eq_false_iff hElements hFirst hHold]
      exact iff_of_true (by simp) (fun hSmall => absurd hSmall (by omega))
  | swallowed before after e taken hElements hTaken hHold hFirst hPlace hRest =>
      rw [takesLast_eq_false_iff hElements hFirst hHold]
      exact ⟨fun hne _ => hne, fun hne => hne (by omega)⟩

end AllocationBlock

/-- The owner of a tile lies in the block. -/
theorem Tiled.contains_of_mem {b : AllocationBlock} {m : HeaderMemory}
    {ts : List (Tile Allocation)} (h : Tiled b m ts) {o : Allocation} (ho : o ∈ owners ts) :
    b.contains o = true ∧ o.headerAddress + sizeofAllocatedHeader = o.pointer := by
  obtain ⟨s, hs⟩ := mem_owners.mp ho
  have hAddress := (h.holds s o hs).headerAddress_eq
  have hBounds := h.tiles.bounds hs
  simp only [Tile.owned] at hBounds
  exact ⟨AllocationBlock.contains_iff.mpr (by omega), hAddress.1⟩

/-! ## One block -/

/-- What is known of a block of node `i`. -/
structure BlockOk (m : HeaderMemory) (live : List Allocation) (i : UInt8)
    (b : AllocationBlock) : Prop where
  node : b.numaNodeId = i
  nonempty : b.freeElements ≠ []
  tiled : ∃ ts, Tiled b m ts ∧ (live.filter b.contains).Perm (owners ts)

namespace BlockOk

variable {m m' : HeaderMemory} {live live' : List Allocation} {i : UInt8} {b : AllocationBlock}

/-- The header of a live allocation in the block. -/
theorem exists_header (h : BlockOk m live i b) {o : Allocation} (ho : o ∈ live)
    (hContains : b.contains o = true) :
    o.headerAddress + sizeofAllocatedHeader = o.pointer ∧ ∃ header,
      m o.headerAddress = some header ∧ header.numaNodeId = i ∧
      header.allocationBlockId = b.id := by
  obtain ⟨ts, hTiled, hLive⟩ := h.tiled
  have hOwner := hLive.mem_iff.mp (List.mem_filter.mpr ⟨ho, hContains⟩)
  obtain ⟨s, hs⟩ := mem_owners.mp hOwner
  have hHolds := hTiled.holds s o hs
  obtain ⟨header, hHeader, hNode, hId, -⟩ := hHolds.header
  exact ⟨hHolds.headerAddress_eq.1, header, hHeader, hNode.trans h.node, hId⟩

/-- Memory outside the block and allocations outside the block do not matter. -/
theorem frame (h : BlockOk m live i b)
    (hMem : ∀ x, b.allocatedBlock ≤ x → x + sizeofAllocatedHeader ≤ b.allocatedBlock + b.size →
      m' x = m x)
    (hLive : (live'.filter b.contains).Perm (live.filter b.contains)) :
    BlockOk m' live' i b := by
  obtain ⟨ts, hTiled, hPerm⟩ := h.tiled
  refine ⟨h.node, h.nonempty, ts, hTiled.frame fun s o hOwned => ?_, hLive.trans hPerm⟩
  have hAddress := (hTiled.holds s o hOwned).headerAddress_eq
  have hBounds := hTiled.tiles.bounds hOwned
  simp only [Tile.owned] at hBounds
  exact hMem _ (by omega) (by omega)

theorem construct {id : UInt32} {size base : Nat} (hRange : base + size < 2 ^ 64)
    (hLive : live.filter (AllocationBlock.construct id i size base).contains = []) :
    BlockOk m live i (AllocationBlock.construct id i size base) :=
  ⟨rfl, by simp [AllocationBlock.construct], _, Tiled.construct hRange m, by simp [hLive]⟩

theorem store (h : BlockOk m live i b) {address length : Nat}
    (hMay : Memory.MayWrite b (live.filter b.contains) address length) :
    BlockOk (m.store address length) live i b := by
  obtain ⟨ts, hTiled, hPerm⟩ := h.tiled
  exact ⟨h.node, h.nonempty, ts, hTiled.store hPerm hMay, hPerm⟩

theorem allocate (h : BlockOk m live i b) {alignment size address : Nat} {b' : AllocationBlock}
    {header : AllocatedHeader} (hAdmissible : Admissible alignment size)
    (hCall : b.allocate alignment size = (b', some (address, header)))
    (hTakes : b.takesLast alignment size = false) :
    (b'.contains ⟨add64 address sizeofAllocatedHeader, alignment, size⟩ = true ∧
      (⟨add64 address sizeofAllocatedHeader, alignment, size⟩ : Allocation).headerAddress
        + sizeofAllocatedHeader = add64 address sizeofAllocatedHeader) ∧
    (b.allocatedBlock ≤ address ∧
      address + sizeofAllocatedHeader ≤ b.allocatedBlock + b.size) ∧
    BlockOk (m.writeHeader address header)
      (⟨add64 address sizeofAllocatedHeader, alignment, size⟩ :: live) i b' := by
  obtain ⟨ts, hTiled, hPerm⟩ := h.tiled
  obtain ⟨hBounds, ts', hTiled', hOwners⟩ := hTiled.allocate hAdmissible hCall
  have hNew := hTiled'.contains_of_mem (hOwners.mem_iff.mpr List.mem_cons_self)
  have hFrame := b.allocate_frame alignment size
  rw [hCall] at hFrame
  refine ⟨hNew, hBounds, hFrame.2.2.2.trans h.node, ?_, ts', hTiled', ?_⟩
  · exact (AllocationBlock.allocate_freeElements_ne_nil hAdmissible
      hTiled.freeElements_stop_lt hCall).mpr hTakes
  · rw [List.filter_cons_of_pos hNew.1, AllocationBlock.contains_congr hFrame.1 hFrame.2.1]
    exact (hPerm.cons _).trans hOwners.symm

theorem free (h : BlockOk m live i b) {o : Allocation} (ho : o ∈ live)
    (hContains : b.contains o = true) {header : AllocatedHeader}
    (hHeader : m o.headerAddress = some header) :
    BlockOk m (live.erase o) i (b.free o.headerAddress header) := by
  obtain ⟨ts, hTiled, hPerm⟩ := h.tiled
  have hOwner := hPerm.mem_iff.mp (List.mem_filter.mpr ⟨ho, hContains⟩)
  obtain ⟨header', ts', hHeader', hne, hTiled', hOwners⟩ := hTiled.free_live hOwner
  obtain rfl : header = header' := Option.some.inj (hHeader.symm.trans hHeader')
  refine ⟨h.node, hne, ts', hTiled', ?_⟩
  have hErase := (List.perm_cons_erase ho).filter b.contains
  rw [List.filter_cons_of_pos hContains] at hErase
  rw [AllocationBlock.contains_congr (b := b) (by simp) (by simp)]
  exact ((hErase.symm.trans hPerm).trans hOwners.symm).cons_inv

/-- `is_free()` is right about a block with a free element. -/
theorem isFree_iff (h : BlockOk m live i b) :
    b.isFree = true ↔ ∀ o ∈ live, b.contains o = false := by
  obtain ⟨ts, hTiled, hPerm⟩ := h.tiled
  have hNone : (∀ o ∈ live, b.contains o = false) ↔ owners ts = [] := by
    rw [← List.length_eq_zero_iff, ← hPerm.length_eq, List.length_eq_zero_iff,
      List.filter_eq_nil_iff]
    simp
  rw [hNone]
  constructor
  · intro hFree
    obtain ⟨e, hElements⟩ : ∃ e, b.freeElements = [e] ∧ e.size = b.size := by
      have hne := h.nonempty
      unfold AllocationBlock.isFree at hFree
      match hCases : b.freeElements with
      | [] => exact absurd hCases hne
      | [e] => exact ⟨e, rfl, by simpa [hCases] using hFree⟩
      | _ :: _ :: _ => simp [hCases] at hFree
    refine hTiled.tiles.owners_eq_nil_of_sum hTiled.owned_pos ?_
    rw [hTiled.free, hElements.1]
    simp [hElements.2]
  · intro hOwners
    have hSingle := hTiled.tiles.eq_of_owners_nil hTiled.coalesced hOwners hTiled.nonempty
    have hElements := hTiled.free
    rw [hSingle, freeSpans_free, freeSpans_nil, Nat.add_sub_cancel_left] at hElements
    simp [AllocationBlock.isFree, ← hElements]

end BlockOk

/-! ## All blocks -/

namespace Allocator

/-- What every operation preserves. -/
structure Inv (blocks : UInt8 → List AllocationBlock) (m : HeaderMemory)
    (live : List Allocation) : Prop where
  block : ∀ i, ∀ b ∈ blocks i, BlockOk m live i b
  ids : ∀ i, (blocks i).Pairwise (fun b b' => b.id ≠ b'.id)
  apart : ∀ i j, ∀ b ∈ blocks i, ∀ b' ∈ blocks j, i ≠ j ∨ b.id ≠ b'.id → b.Apart b'
  placed : ∀ o ∈ live, ∃ i, ∃ b ∈ blocks i, b.contains o = true

variable {blocks : UInt8 → List AllocationBlock} {m m' : HeaderMemory}
  {live live' : List Allocation}

namespace Inv

/-- The other blocks of a node have other ids. -/
theorem id_ne (h : Inv blocks m live) {i : UInt8} {bs cs : List AllocationBlock}
    {b : AllocationBlock} (hSplit : blocks i = bs ++ b :: cs) :
    ∀ x, x ∈ bs ∨ x ∈ cs → x.id ≠ b.id := by
  have hIds := h.ids i
  rw [hSplit, List.pairwise_append, List.pairwise_cons] at hIds
  rintro x (hx | hx)
  · exact hIds.2.2 x hx b List.mem_cons_self
  · exact (hIds.2.1.1 x hx).symm

/-- Node and id determine a block. -/
theorem eq_of_id (h : Inv blocks m live) {i : UInt8} {b x : AllocationBlock}
    (hb : b ∈ blocks i) (hx : x ∈ blocks i) (hId : b.id = x.id) : b = x := by
  obtain ⟨bs, cs, hSplit⟩ := List.append_of_mem hx
  rw [hSplit, List.mem_append, List.mem_cons] at hb
  rcases hb with hb | rfl | hb
  · exact absurd hId (h.id_ne hSplit b (.inl hb))
  · rfl
  · exact absurd hId (h.id_ne hSplit b (.inr hb))

/-- An allocation lies in one block. -/
theorem eq_of_contains (h : Inv blocks m live) {o : Allocation} (ho : o ∈ live) {i j : UInt8}
    {b x : AllocationBlock} (hb : b ∈ blocks i) (hx : x ∈ blocks j)
    (hbo : b.contains o = true) (hxo : x.contains o = true) : i = j ∧ b = x := by
  by_cases hKey : i ≠ j ∨ b.id ≠ x.id
  · have hApart := h.apart i j b hb x hx hKey
    have hHeader := ((h.block i b hb).exists_header ho hbo).1
    rw [AllocationBlock.not_contains hApart hbo hHeader] at hxo
    exact absurd hxo (by decide)
  · obtain ⟨rfl, hId⟩ : i = j ∧ b.id = x.id := by tauto
    exact ⟨rfl, h.eq_of_id hb hx hId⟩

/-- The blocks after one of them has changed. -/
theorem mem_update (h : Inv blocks m live) {i j : UInt8} {bs cs : List AllocationBlock}
    {b b' x : AllocationBlock} (hSplit : blocks i = bs ++ b :: cs)
    (hx : x ∈ Function.update blocks i (bs ++ b' :: cs) j) :
    (j = i ∧ x = b') ∨ (x ∈ blocks j ∧ (i ≠ j ∨ b.id ≠ x.id)) := by
  by_cases hij : j = i
  · subst hij
    rw [Function.update_self, List.mem_append, List.mem_cons] at hx
    rcases hx with hx | rfl | hx
    · exact .inr ⟨by simp [hSplit, hx], .inr (h.id_ne hSplit x (.inl hx)).symm⟩
    · exact .inl ⟨rfl, rfl⟩
    · exact .inr ⟨by simp [hSplit, hx], .inr (h.id_ne hSplit x (.inr hx)).symm⟩
  · rw [Function.update_of_ne hij] at hx
    exact .inr ⟨hx, .inl (Ne.symm hij)⟩

/-- One block changes, and stays where it is. -/
theorem replace (h : Inv blocks m live) {i : UInt8} {bs cs : List AllocationBlock}
    {b b' : AllocationBlock} (hSplit : blocks i = bs ++ b :: cs) (hId : b'.id = b.id)
    (hBase : b'.allocatedBlock = b.allocatedBlock) (hSize : b'.size = b.size)
    (hOk : BlockOk m' live' i b')
    (hOther : ∀ j, ∀ x ∈ blocks j, b.Apart x → BlockOk m' live' j x)
    (hPlaced : ∀ o ∈ live', o ∈ live ∨ b.contains o = true) :
    Inv (Function.update blocks i (bs ++ b' :: cs)) m' live' := by
  have hb : b ∈ blocks i := by simp [hSplit]
  have hApart : ∀ j, ∀ x ∈ blocks j, i ≠ j ∨ b.id ≠ x.id → b.Apart x := by
    intro j x hx hne
    exact h.apart i j b hb x hx hne
  refine ⟨fun j x hx => ?_, fun j => ?_, fun j k x hx y hy hne => ?_, fun o ho => ?_⟩
  · rcases h.mem_update hSplit hx with ⟨rfl, rfl⟩ | ⟨hx, hne⟩
    · exact hOk
    · exact hOther j x hx (hApart j x hx hne)
  · by_cases hij : j = i
    · subst hij
      have hIds := h.ids j
      rw [Function.update_self]
      rw [hSplit, List.pairwise_append, List.pairwise_cons] at hIds
      rw [List.pairwise_append, List.pairwise_cons, hId]
      refine ⟨hIds.1, hIds.2.1, fun x hx y hy => ?_⟩
      rcases List.mem_cons.mp hy with rfl | hy
      · rw [hId]
        exact hIds.2.2 x hx b List.mem_cons_self
      · exact hIds.2.2 x hx y (List.mem_cons_of_mem b hy)
    · rw [Function.update_of_ne hij]
      exact h.ids j
  · have hSame : ∀ z, b.Apart z → b'.Apart z := by
      intro z hz
      unfold AllocationBlock.Apart at *
      rwa [hBase, hSize]
    rcases h.mem_update hSplit hx with ⟨rfl, rfl⟩ | ⟨hxOld, hxne⟩
    · rcases h.mem_update hSplit hy with ⟨rfl, rfl⟩ | ⟨hyOld, hyne⟩
      · exact absurd hne (by simp)
      · exact hSame y (hApart k y hyOld hyne)
    · rcases h.mem_update hSplit hy with ⟨rfl, rfl⟩ | ⟨hyOld, hyne⟩
      · exact (hSame x (hApart j x hxOld hxne)).symm
      · exact h.apart j k x hxOld y hyOld hne
  · have hNew : b' ∈ Function.update blocks i (bs ++ b' :: cs) i := by simp
    have hContains := AllocationBlock.contains_congr hBase hSize
    rcases hPlaced o ho with hOld | hIn
    · obtain ⟨j, x, hx, hxo⟩ := h.placed o hOld
      by_cases hKey : i = j ∧ b.id = x.id
      · obtain ⟨rfl, hIdEq⟩ := hKey
        obtain rfl := h.eq_of_id hb hx hIdEq
        exact ⟨i, b', hNew, by rw [hContains, hxo]⟩
      · refine ⟨j, x, ?_, hxo⟩
        by_cases hij : j = i
        · subst hij
          rw [Function.update_self, List.mem_append, List.mem_cons]
          rw [hSplit, List.mem_append, List.mem_cons] at hx
          rcases hx with hx | rfl | hx
          · exact .inl hx
          · exact absurd ⟨rfl, rfl⟩ hKey
          · exact .inr (.inr hx)
        · rwa [Function.update_of_ne hij]
    · exact ⟨i, b', hNew, by rw [hContains, hIn]⟩

theorem allocate (h : Inv blocks m live) {i : UInt8} {bs : List AllocationBlock}
    {b b' : AllocationBlock} (hSplit : blocks i = bs ++ [b]) {alignment size address : Nat}
    {header : AllocatedHeader} (hAdmissible : Admissible alignment size)
    (hCall : b.allocate alignment size = (b', some (address, header)))
    (hTakes : b.takesLast alignment size = false) :
    Inv (Function.update blocks i (bs ++ [b'])) (m.writeHeader address header)
      (⟨add64 address sizeofAllocatedHeader, alignment, size⟩ :: live) := by
  have hb : b ∈ blocks i := by simp [hSplit]
  have hFrame := b.allocate_frame alignment size
  rw [hCall] at hFrame
  obtain ⟨hNew, hBounds, hOk⟩ := (h.block i b hb).allocate hAdmissible hCall hTakes
  have hIn : b.contains ⟨add64 address sizeofAllocatedHeader, alignment, size⟩ = true := by
    rw [← AllocationBlock.contains_congr hFrame.1 hFrame.2.1]
    exact hNew.1
  refine h.replace hSplit hFrame.2.2.1 hFrame.1 hFrame.2.1 hOk (fun j x hx hApart => ?_) ?_
  · refine (h.block j x hx).frame (fun y hLeft hRight => ?_) ?_
    · refine HeaderMemory.writeHeader_of_disjoint ?_
      unfold AllocationBlock.Apart at hApart
      omega
    · rw [List.filter_cons_of_neg (by rw [AllocationBlock.not_contains hApart hIn hNew.2]; simp)]
  · intro o ho
    rcases List.mem_cons.mp ho with rfl | ho
    · exact .inr hIn
    · exact .inl ho

/-- The header of a live pointer names the block the pointer came from. -/
theorem exists_block (h : Inv blocks m live) {o : Allocation} (ho : o ∈ live) :
    ∃ header bs b cs, m o.headerAddress = some header ∧
      blocks header.numaNodeId = bs ++ b :: cs ∧ b.id = header.allocationBlockId ∧
      b.contains o = true ∧ ∀ x, x ∈ bs ∨ x ∈ cs → x.id ≠ header.allocationBlockId := by
  obtain ⟨i, b, hb, hbo⟩ := h.placed o ho
  obtain ⟨-, header, hHeader, rfl, hId⟩ := (h.block i b hb).exists_header ho hbo
  obtain ⟨bs, cs, hSplit⟩ := List.append_of_mem hb
  refine ⟨header, bs, b, cs, hHeader, hSplit, hId.symm, hbo, ?_⟩
  rw [hId]
  exact h.id_ne hSplit

theorem free (h : Inv blocks m live) {o : Allocation} (ho : o ∈ live) {header : AllocatedHeader}
    (hHeader : m o.headerAddress = some header) {bs cs : List AllocationBlock}
    {b : AllocationBlock} (hSplit : blocks header.numaNodeId = bs ++ b :: cs)
    (hbo : b.contains o = true) :
    Inv (Function.update blocks header.numaNodeId
      (bs ++ b.free o.headerAddress header :: cs)) m (live.erase o) := by
  have hb : b ∈ blocks header.numaNodeId := by simp [hSplit]
  have hOk := h.block _ b hb
  refine h.replace hSplit rfl (by simp) (by simp) (hOk.free ho hbo hHeader)
    (fun j x hx hApart => (h.block j x hx).frame (fun _ _ _ => rfl) ?_) ?_
  · have hErase := (List.perm_cons_erase ho).filter x.contains
    have hNot := AllocationBlock.not_contains hApart hbo (hOk.exists_header ho hbo).1
    rw [List.filter_cons_of_neg (by rw [hNot]; simp)] at hErase
    exact hErase.symm
  · exact fun o' ho' => .inl (List.mem_of_mem_erase ho')

/-- Some blocks are given back, none of them with a live allocation. -/
theorem retain (h : Inv blocks m live) {kept : UInt8 → List AllocationBlock}
    (hKept : ∀ i, (kept i).Sublist (blocks i))
    (hLive : ∀ o ∈ live, ∀ i, ∀ b ∈ blocks i, b.contains o = true → b ∈ kept i) :
    Inv kept m live := by
  refine ⟨fun i b hb => h.block i b ((hKept i).subset hb), fun i => (h.ids i).sublist (hKept i),
    fun i j b hb b' hb' => h.apart i j b ((hKept i).subset hb) b' ((hKept j).subset hb'),
    fun o ho => ?_⟩
  obtain ⟨i, b, hb, hbo⟩ := h.placed o ho
  exact ⟨i, b, hLive o ho i b hb hbo, hbo⟩

/-- Blocks in fresh memory are added. -/
theorem extend (h : Inv blocks m live) {new : UInt8 → List AllocationBlock}
    (hNew : ∀ i, ∀ c ∈ new i, ∃ id size base,
      c = AllocationBlock.construct id i size base ∧ Fresh blocks base size)
    (hIds : ∀ i, (blocks i ++ new i).Pairwise (fun b b' => b.id ≠ b'.id))
    (hApart : ∀ i j, ∀ c ∈ new i, ∀ c' ∈ new j, i ≠ j ∨ c.id ≠ c'.id → c.Apart c') :
    Inv (fun i => blocks i ++ new i) m live := by
  have hFresh : ∀ i j, ∀ b ∈ blocks i, ∀ c ∈ new j, b.Apart c := by
    intro i j b hb c hc
    obtain ⟨id, size, base, rfl, -, hRange⟩ := hNew j c hc
    exact (hRange i b hb).symm
  refine ⟨fun i b hb => ?_, hIds, fun i j b hb b' hb' hne => ?_, fun o ho => ?_⟩
  · rcases List.mem_append.mp hb with hOld | hAdded
    · exact h.block i b hOld
    · obtain ⟨id, size, base, rfl, hRange, -⟩ := hNew i b hAdded
      refine BlockOk.construct hRange (List.filter_eq_nil_iff.mpr fun o ho => ?_)
      obtain ⟨j, x, hx, hxo⟩ := h.placed o ho
      have hHeader := ((h.block j x hx).exists_header ho hxo).1
      rw [AllocationBlock.not_contains (hFresh j i x hx _ hAdded) hxo hHeader]
      simp
  · rcases List.mem_append.mp hb with hOld | hAdded
    · rcases List.mem_append.mp hb' with hOld' | hAdded'
      · exact h.apart i j b hOld b' hOld' hne
      · exact hFresh i j b hOld b' hAdded'
    · rcases List.mem_append.mp hb' with hOld' | hAdded'
      · exact (hFresh j i b' hOld' b hAdded).symm
      · exact hApart i j b hAdded b' hAdded' hne
  · obtain ⟨i, b, hb, hbo⟩ := h.placed o ho
    exact ⟨i, b, List.mem_append_left _ hb, hbo⟩

theorem write (h : Inv blocks m live) {address length : Nat} {a : Allocator}
    (hBlocks : a.blocks = blocks) (hMay : MayWrite ⟨a, m, live⟩ address length) :
    Inv blocks (m.store address length) live := by
  refine ⟨fun i b hb => (h.block i b hb).store ?_, h.ids, h.apart, h.placed⟩
  rcases hMay with ⟨o, ho, hLeft, hRight⟩ | hOutside
  · obtain ⟨j, x, hx, hxo⟩ := h.placed o ho
    by_cases hbo : b.contains o = true
    · exact .inl ⟨o, List.mem_filter.mpr ⟨ho, hbo⟩, hLeft, hRight⟩
    · have hKey : j ≠ i ∨ x.id ≠ b.id := by
        by_contra hSame
        obtain ⟨rfl, hId⟩ : j = i ∧ x.id = b.id := by tauto
        exact hbo (h.eq_of_id hx hb hId ▸ hxo)
      have hApart := h.apart j i x hx b hb hKey
      obtain ⟨ts, hTiled, hPerm⟩ := (h.block j x hx).tiled
      obtain ⟨r, hr⟩ := mem_owners.mp (hPerm.mem_iff.mp (List.mem_filter.mpr ⟨ho, hxo⟩))
      have hFits := (hTiled.holds r o hr).fits
      have hAddress := (hTiled.holds r o hr).headerAddress_eq
      have hBounds := hTiled.tiles.bounds hr
      simp only [Tile.owned] at hBounds
      unfold AllocationBlock.Apart at hApart
      refine .inr ?_
      omega
  · subst hBlocks
    exact .inr (hOutside i b hb)

theorem allocateNewBlock {a : Allocator} (h : Inv a.blocks m live) {i : UInt8} {size base : Nat}
    (hFresh : Fresh a.blocks base size) (hId : ∀ b ∈ a.blocks i, b.id ≠ a.nextAllocationId i) :
    Inv (a.allocateNewBlock i size base).blocks m live := by
  obtain ⟨c, hc⟩ : ∃ c, c = AllocationBlock.construct (a.nextAllocationId i) i size base :=
    ⟨_, rfl⟩
  have hEq : (a.allocateNewBlock i size base).blocks
      = fun j => a.blocks j ++ if j = i then [c] else [] := by
    funext j
    unfold Allocator.allocateNewBlock
    by_cases hij : j = i
    · subst hij
      simp [hc]
    · simp [hij]
  rw [hEq]
  refine h.extend (fun j c' hc' => ?_) (fun j => ?_) (fun j k x hx y hy hne => ?_)
  · by_cases hij : j = i
    · subst hij
      obtain rfl : c' = c := by simpa using hc'
      exact ⟨_, _, _, hc, hFresh⟩
    · simp [hij] at hc'
  · by_cases hij : j = i
    · subst hij
      rw [if_pos rfl, List.pairwise_append]
      refine ⟨h.ids j, List.pairwise_singleton _ _, fun b hb x hx => ?_⟩
      obtain rfl : x = c := by simpa using hx
      rw [hc]
      exact hId b hb
    · rw [if_neg hij, List.append_nil]
      exact h.ids j
  · by_cases hji : j = i
    · by_cases hki : k = i
      · obtain rfl : x = c := by simpa [hji] using hx
        obtain rfl : y = x := by simpa [hki] using hy
        exact absurd hne (by simp [hji, hki])
      · simp [hki] at hy
    · simp [hji] at hx

theorem initializeEmpty {maxNodeId : UInt8} {a : Allocator} (h : Inv a.blocks m live)
    {bases : UInt8 → Nat} (hFresh : FreshBases maxNodeId a.blocks bases) :
    Inv (a.initializeEmpty maxNodeId bases).blocks m live := by
  have hEq : (a.initializeEmpty maxNodeId bases).blocks
      = fun j => a.blocks j ++ if j ≤ maxNodeId ∧ a.blocks j = [] then
          [AllocationBlock.construct (a.nextAllocationId j) j initialSize (bases j)] else [] := by
    funext j
    unfold Allocator.initializeEmpty
    by_cases hEmpty : j ≤ maxNodeId ∧ a.blocks j = []
    · simp [hEmpty]
    · simp only [if_neg hEmpty, List.append_nil]
  rw [hEq]
  have hNew : ∀ j c, c ∈ (if j ≤ maxNodeId ∧ a.blocks j = [] then
      [AllocationBlock.construct (a.nextAllocationId j) j initialSize (bases j)] else []) →
      (j ≤ maxNodeId ∧ a.blocks j = []) ∧
        c = AllocationBlock.construct (a.nextAllocationId j) j initialSize (bases j) := by
    intro j c hc
    split at hc
    · exact ⟨‹_›, by simpa using hc⟩
    · simp at hc
  refine h.extend (fun j c hc => ?_) (fun j => ?_) (fun j k x hx y hy hne => ?_)
  · obtain ⟨hEmpty, rfl⟩ := hNew j c hc
    exact ⟨_, _, _, rfl, (hFresh j hEmpty.1 hEmpty.2).1⟩
  · split
    · rename_i hEmpty
      rw [hEmpty.2]
      exact List.pairwise_singleton _ _
    · rw [List.append_nil]
      exact h.ids j
  · obtain ⟨hj, rfl⟩ := hNew j x hx
    obtain ⟨hk, rfl⟩ := hNew k y hy
    by_cases hjk : j = k
    · subst hjk
      exact absurd hne (by simp)
    · exact (hFresh j hj.1 hj.2).2 k hk.1 hk.2 hjk

/-- A block with a live allocation is not free. -/
theorem isFree_eq_false (h : Inv blocks m live) {i : UInt8} {b : AllocationBlock}
    (hb : b ∈ blocks i) {o : Allocation} (ho : o ∈ live) (hbo : b.contains o = true) :
    b.isFree = false := by
  rw [Bool.eq_false_iff]
  intro hFree
  rw [(h.block i b hb).isFree_iff.mp hFree o ho] at hbo
  exact absurd hbo (by decide)

theorem removeFree (maxNodeId : UInt8) {a : Allocator} (h : Inv a.blocks m live) :
    Inv (a.removeFree maxNodeId).blocks m live := by
  refine h.retain (fun i => ?_) (fun o ho i b hb hbo => ?_)
  · unfold Allocator.removeFree
    dsimp only
    split
    · exact List.filter_sublist
    · exact List.Sublist.refl _
  · have hNot := h.isFree_eq_false hb ho hbo
    unfold Allocator.removeFree
    dsimp only
    split
    · exact List.mem_filter.mpr ⟨hb, by simp [hNot]⟩
    · exact hb

theorem releaseAllocatedMemory {maxNodeId : UInt8} {a : Allocator} (h : Inv a.blocks m live)
    (hFree : ∀ i, i ≤ maxNodeId → ∀ b ∈ a.blocks i, b.isFree = true) :
    Inv (a.releaseAllocatedMemory maxNodeId).blocks m live := by
  refine h.retain (fun i => ?_) (fun o ho i b hb hbo => ?_)
  · unfold Allocator.releaseAllocatedMemory
    dsimp only
    split
    · exact List.nil_sublist _
    · exact List.Sublist.refl _
  · have hNot := h.isFree_eq_false hb ho hbo
    unfold Allocator.releaseAllocatedMemory
    dsimp only
    split
    · rename_i hi
      rw [hFree i hi b hb] at hNot
      exact absurd hNot (by decide)
    · exact hb

end Inv

theorem isFree_iff {maxNodeId : UInt8} {a : Allocator} :
    a.isFree maxNodeId = true ↔ ∀ i, i ≤ maxNodeId → ∀ b ∈ a.blocks i, b.isFree = true := by
  unfold isFree
  rw [List.all_eq_true]
  constructor
  · intro hAll i hi b hb
    have hNode := hAll i.toNat
      (List.mem_range.mpr (Nat.lt_succ_of_le (UInt8.le_iff_toNat_le.mp hi)))
    rw [UInt8.ofNat_toNat, List.all_eq_true] at hNode
    exact hNode b hb
  · intro hAll i hi
    rw [List.all_eq_true]
    refine hAll (UInt8.ofNat i) (UInt8.le_iff_toNat_le.mpr ?_)
    have := List.mem_range.mp hi
    have := Nat.mod_le i (2 ^ 8)
    rw [UInt8.toNat_ofNat']
    omega

/-- `back().allocate`, for a node with a block. -/
theorem allocateBack_eq {a : Allocator} {i : UInt8} {bs : List AllocationBlock}
    {b : AllocationBlock} (hSplit : a.blocks i = bs ++ [b]) (alignment size : Nat) :
    a.allocateBack i alignment size
      = ({ a with
            blocks := Function.update a.blocks i (bs ++ [(b.allocate alignment size).1]) },
          (b.allocate alignment size).2) := by
  simp [allocateBack, hSplit]

/-- A request that fails leaves the allocator as it is. -/
theorem allocateBack_null {a a' : Allocator} {i : UInt8} {alignment size : Nat}
    (h : a.allocateBack i alignment size = (a', none)) : a' = a := by
  rcases List.eq_nil_or_concat (a.blocks i) with hNil | ⟨bs, b, hSplit⟩
  · simp only [allocateBack, hNil, List.getLast?_nil, Prod.mk.injEq, and_true] at h
    exact h.symm
  · rw [List.concat_eq_append] at hSplit
    rw [allocateBack_eq hSplit] at h
    obtain ⟨hAllocator, hNone⟩ := Prod.mk.inj h
    have hSame := AllocationBlock.allocate_null (Prod.ext rfl hNone :
      b.allocate alignment size = ((b.allocate alignment size).1, none))
    rw [hSame, ← hSplit, Function.update_eq_self] at hAllocator
    exact hAllocator.symm

/-- The block that serves a request. -/
theorem allocateBack_some {a a' : Allocator} {i : UInt8} {alignment size : Nat}
    {memory : Nat × AllocatedHeader}
    (h : a.allocateBack i alignment size = (a', some memory)) :
    ∃ bs b b', a.blocks i = bs ++ [b] ∧ b.allocate alignment size = (b', some memory) ∧
      a' = { a with blocks := Function.update a.blocks i (bs ++ [b']) } := by
  rcases List.eq_nil_or_concat (a.blocks i) with hNil | ⟨bs, b, hSplit⟩
  · simp [allocateBack, hNil] at h
  · rw [List.concat_eq_append] at hSplit
    rw [allocateBack_eq hSplit] at h
    obtain ⟨hAllocator, hSome⟩ := Prod.mk.inj h
    exact ⟨bs, b, _, hSplit, Prod.ext rfl hSome, hAllocator.symm⟩

theorem freeIn_append {address : Nat} {header : AllocatedHeader} {bs cs : List AllocationBlock}
    {b : AllocationBlock} (hId : b.id = header.allocationBlockId)
    (hOther : ∀ x ∈ bs, x.id ≠ header.allocationBlockId) :
    freeIn address header (bs ++ b :: cs) = bs ++ b.free address header :: cs := by
  induction bs with
  | nil => simp [freeIn, hId]
  | cons x bs ih =>
      rw [List.forall_mem_cons] at hOther
      rw [List.cons_append, freeIn, if_neg hOther.1.symm, ih hOther.2, List.cons_append]

/-! ## Every run -/

/-- The steps that keep every block apart from the others and recognisable: a request does
not take the only free element of its block as a whole, and the id of a new block is
not in use on its node. -/
def KeepsBlocks (s : State) : Event → Prop
  | .allocate numaNodeId alignment size =>
      ∀ b ∈ (s.allocator.blocks numaNodeId).getLast?, b.takesLast alignment size = false
  | .grow numaNodeId _ _ _ =>
      ∀ b ∈ s.allocator.blocks numaNodeId, b.id ≠ s.allocator.nextAllocationId numaNodeId
  | _ => True

theorem Step.inv {maxNodeId : UInt8} {s s' : State} {ev : Event}
    (h : Inv s.allocator.blocks s.memory s.live) (hStep : Step maxNodeId s ev s')
    (hKeeps : KeepsBlocks s ev) : Inv s'.allocator.blocks s'.memory s'.live := by
  cases hStep with
  | allocate hNode hAdmissible hCall =>
      obtain ⟨bs, b, b', hSplit, hBlock, rfl⟩ := allocateBack_some hCall
      exact h.allocate hSplit hAdmissible hBlock (hKeeps b (by simp [hSplit]))
  | grow hNode hAdmissible hCall hFresh =>
      obtain rfl := allocateBack_null hCall
      exact h.allocateNewBlock hFresh hKeeps
  | @free o header ho hHeader =>
      obtain ⟨header', bs, b, cs, hHeader', hSplit, hId, hbo, hOther⟩ := h.exists_block ho
      obtain rfl : header = header' := Option.some.inj (hHeader.symm.trans hHeader')
      have hFreed := h.free ho hHeader hSplit hbo
      rw [← freeIn_append hId fun x hx => hOther x (.inl hx), ← hSplit] at hFreed
      exact hFreed
  | write hMay => exact h.write rfl hMay
  | defragment hFresh => exact (h.removeFree maxNodeId).initializeEmpty hFresh
  | @reinit bases hReleased hKept =>
      show Inv (s.allocator.reinit maxNodeId bases).blocks s.memory s.live
      unfold Allocator.reinit
      split
      · rename_i hFree
        exact (h.releaseAllocatedMemory (isFree_iff.mp hFree)).initializeEmpty (hReleased hFree)
      · rename_i hFree
        exact (h.removeFree maxNodeId).initializeEmpty (hKept (by simpa using hFree))

/-- `is_free()` tells whether a block has a live allocation, no block with one is given back, and
`free` finds the block of each live pointer. -/
structure State.Safe (maxNodeId : UInt8) (s : State) : Prop where
  isFree_iff : ∀ i, ∀ b ∈ s.allocator.blocks i,
    (b.isFree = true ↔ ¬ ∃ o ∈ s.live, b.contains o = true)
  /-- A block with a live allocation survives `defragment` and the re-initialisation. -/
  kept : ∀ i, ∀ b ∈ s.allocator.blocks i, (∃ o ∈ s.live, b.contains o = true) →
    ∀ bases, b ∈ (s.allocator.defragment maxNodeId bases).blocks i ∧
      b ∈ (s.allocator.reinit maxNodeId bases).blocks i
  /-- Each live allocation lies in one block, and its header leads `free` to it. -/
  found : ∀ o ∈ s.live, ∃ header bs b cs, s.memory o.headerAddress = some header ∧
    s.allocator.blocks header.numaNodeId = bs ++ b :: cs ∧ b.contains o = true ∧
    (∀ i, ∀ x ∈ s.allocator.blocks i, x.contains o = true → i = header.numaNodeId ∧ x = b) ∧
    (s.allocator.free o.headerAddress header).blocks header.numaNodeId
      = bs ++ b.free o.headerAddress header :: cs

/-- What is not free is not removed. -/
theorem mem_defragment (maxNodeId : UInt8) {a : Allocator} {i : UInt8} {b : AllocationBlock}
    (hb : b ∈ a.blocks i) (hFree : b.isFree = false) (bases : UInt8 → Nat) :
    b ∈ (a.defragment maxNodeId bases).blocks i := by
  have hKept : b ∈ (a.removeFree maxNodeId).blocks i := by
    unfold removeFree
    dsimp only
    split
    · exact List.mem_filter.mpr ⟨hb, by simp [hFree]⟩
    · exact hb
  unfold defragment initializeEmpty
  dsimp only
  rw [if_neg fun hEmpty => by simp [hEmpty.2] at hKept]
  exact hKept

theorem Inv.safe {maxNodeId : UInt8} {s : State} (h : Inv s.allocator.blocks s.memory s.live) :
    s.Safe maxNodeId := by
  refine ⟨fun i b hb => ?_, fun i b hb hLive bases => ?_, fun o ho => ?_⟩
  · rw [(h.block i b hb).isFree_iff]
    simp
  · obtain ⟨o, ho, hbo⟩ := hLive
    have hFree := h.isFree_eq_false hb ho hbo
    have hKept := mem_defragment maxNodeId hb hFree bases
    refine ⟨hKept, ?_⟩
    unfold reinit
    split
    · rename_i hAll
      unfold Allocator.releaseAllocatedMemory Allocator.initializeEmpty
      dsimp only
      by_cases hi : i ≤ maxNodeId
      · rw [isFree_iff.mp hAll i hi b hb] at hFree
        exact absurd hFree (by decide)
      · simp [hi, hb]
    · exact hKept
  · obtain ⟨header, bs, b, cs, hHeader, hSplit, hId, hbo, hOther⟩ := h.exists_block ho
    refine ⟨header, bs, b, cs, hHeader, hSplit, hbo, fun i x hx hxo => ?_, ?_⟩
    · exact h.eq_of_contains ho hx (by simp [hSplit]) hxo hbo
    · unfold Allocator.free
      dsimp only
      rw [Function.update_self, hSplit, freeIn_append hId fun x hx => hOther x (.inl hx)]

theorem inv_init {maxNodeId : UInt8} {bases : UInt8 → Nat} (m : HeaderMemory)
    (hFresh : FreshBases maxNodeId (fun _ => []) bases) :
    Inv (State.init maxNodeId bases m).allocator.blocks m [] := by
  have hEmpty : Inv (fun _ => []) m [] := ⟨by simp, by simp, by simp, by simp⟩
  exact Inv.initializeEmpty (a := ⟨fun _ => [], fun _ => 0⟩) hEmpty hFresh

/-- A request that takes the only free element leaves a block with a live allocation that says
it is free. -/
theorem Step.takesLast_eq_false {maxNodeId : UInt8} {s s' : State} {numaNodeId : UInt8}
    {alignment size : Nat} (h : Inv s.allocator.blocks s.memory s.live)
    (hStep : Step maxNodeId s (.allocate numaNodeId alignment size) s')
    (hSafe : s'.Safe maxNodeId) : KeepsBlocks s (.allocate numaNodeId alignment size) := by
  cases hStep with
  | @allocate _ _ _ address a header hNode hAdmissible hCall =>
      obtain ⟨bs, b, b', hSplit, hBlock, rfl⟩ := allocateBack_some hCall
      intro x hx
      obtain rfl : b = x := by simpa [hSplit] using hx
      obtain ⟨ts, hTiled, -⟩ := (h.block numaNodeId b (by simp [hSplit])).tiled
      obtain ⟨-, ts', hTiled', hOwners⟩ := hTiled.allocate hAdmissible hBlock
      have hNew := hTiled'.contains_of_mem (hOwners.mem_iff.mpr List.mem_cons_self)
      rw [← AllocationBlock.allocate_freeElements_ne_nil hAdmissible
        hTiled.freeElements_stop_lt hBlock]
      intro hNil
      have hFree : b'.isFree = true := by simp [AllocationBlock.isFree, hNil]
      exact (hSafe.isFree_iff numaNodeId b' (by simp)).mp hFree
        ⟨_, List.mem_cons_self, hNew.1⟩

/-- As long as no request takes the only free element of its block as a whole and no id comes
back while it is in use, blocks with live allocations are never given back; the first
request that takes an only element leaves a state that is not safe. -/
theorem safe_of_run {maxNodeId : UInt8} {bases : UInt8 → Nat} {m : HeaderMemory}
    {es : List Event} {s : State} (hFresh : FreshBases maxNodeId (fun _ => []) bases)
    (hRun : Run (Guarded (Step maxNodeId) KeepsBlocks) (State.init maxNodeId bases m) es s) :
    s.Safe maxNodeId ∧ ∀ numaNodeId alignment size s',
      Step maxNodeId s (.allocate numaNodeId alignment size) s' →
      (s'.Safe maxNodeId ↔ KeepsBlocks s (.allocate numaNodeId alignment size)) := by
  have hInv : Inv s.allocator.blocks s.memory s.live := by
    refine hRun.invariant (P := fun s => Inv s.allocator.blocks s.memory s.live)
      (inv_init m hFresh) ?_
    rintro ev mid fin hMid ⟨hKeeps, hStep⟩
    exact hStep.inv hMid hKeeps
  refine ⟨hInv.safe, fun numaNodeId alignment size s' hStep => ?_⟩
  exact ⟨hStep.takesLast_eq_false hInv, fun hKeeps => (hStep.inv hInv hKeeps).safe⟩

/-- Where there is one node, the heap promises little. -/
theorem freshBases_zero {blocks : UInt8 → List AllocationBlock} {bases : UInt8 → Nat}
    (hFresh : blocks 0 = [] → Fresh blocks (bases 0) initialSize) :
    FreshBases 0 blocks bases := by
  have hZero : ∀ i : UInt8, i ≤ 0 → i = 0 := fun i hi => by simpa using hi
  intro i hi hNil
  obtain rfl := hZero i hi
  refine ⟨hFresh hNil, fun j hj _ hne => ?_⟩
  exact absurd (hZero j hj).symm hne

/-- 100 bytes are allocated, and `defragment` keeps the block. -/
theorem safe_of_run_defragment : ∃ s,
    Run (Guarded (Step 0) KeepsBlocks) (State.init 0 (fun _ => 65536) fun _ => none)
      [.allocate 0 64 100, .defragment fun _ => 0] s ∧ s.Safe 0 ∧ s.live.length = 1 := by
  have hInit : FreshBases 0 (fun _ => []) (fun _ => 65536) :=
    freshBases_zero fun _ => ⟨by decide, by simp⟩
  have hSplit : (Allocator.construct 0 fun _ => 65536).blocks 0
      = [] ++ [AllocationBlock.construct 0 0 initialSize 65536] := by decide
  have hBlock : (AllocationBlock.construct 0 0 initialSize 65536).allocate 64 100
      = (⟨0, 0, 16777216, 65536, [⟨65536, 16777072⟩], 16777072⟩,
        some (16842608, ⟨128, 0, 0, 0⟩)) := by decide
  have hCall := allocateBack_eq hSplit 64 100
  rw [hBlock] at hCall
  have hKeeps : KeepsBlocks (State.init 0 (fun _ => 65536) fun _ => none)
      (.allocate 0 64 100) := by
    intro b hb
    obtain rfl : AllocationBlock.construct 0 0 initialSize 65536 = b := by
      simpa [State.init, hSplit] using hb
    decide
  have hFirst : Guarded (Step 0) KeepsBlocks _ _ _ :=
    ⟨hKeeps, Step.allocate (by decide) ⟨⟨6, rfl⟩, by decide⟩ hCall⟩
  have hRun := (Run.single hFirst).snoc
    ⟨show KeepsBlocks _ (.defragment fun _ => 0) from trivial,
      Step.defragment (freshBases_zero fun hNil => absurd hNil (by decide))⟩
  exact ⟨_, hRun, (safe_of_run hInit hRun).1, rfl⟩

/-- A request for all but 64 bytes of the first block: 48 bytes remain, which go with the
allocation.  The block then says that it is free, and `defragment` gives it back. -/
theorem defragment_drops_live : ∃ s s' b o,
    Run (Step 0) (State.init 0 (fun _ => 65536) fun _ => none)
      [.allocate 0 64 (4096 * 4096 - 64)] s ∧
    b ∈ s.allocator.blocks 0 ∧ o ∈ s.live ∧ b.contains o = true ∧ b.isFree = true ∧
    Step 0 s (.defragment fun _ => 65536) s' ∧ o ∈ s'.live ∧ b ∉ s'.allocator.blocks 0 := by
  have hSplit : (Allocator.construct 0 fun _ => 65536).blocks 0
      = [] ++ [AllocationBlock.construct 0 0 initialSize 65536] := by decide
  have hBlock : (AllocationBlock.construct 0 0 initialSize 65536).allocate 64 16777152
      = (⟨0, 0, 16777216, 65536, [], 0⟩, some (65584, ⟨16777152, 48, 0, 0⟩)) := by decide
  have hCall := allocateBack_eq hSplit 64 16777152
  rw [hBlock] at hCall
  have hStep : Step 0 (State.init 0 (fun _ => 65536) fun _ => none) _ _ :=
    Step.allocate (by decide) ⟨⟨6, rfl⟩, by decide⟩ hCall
  refine ⟨_, _, ⟨0, 0, 16777216, 65536, [], 0⟩, ⟨65600, 64, 16777152⟩, Run.single hStep,
    by decide, by decide, by decide, by decide, Step.defragment (freshBases_zero fun hNil => ?_),
    by decide, by decide⟩
  refine ⟨by decide, fun i b hb => ?_⟩
  by_cases hi : i = 0
  · subst hi
    rw [hNil] at hb
    exact absurd hb (by simp)
  · simp [Allocator.removeFree, hi, Allocator.construct, Allocator.initializeEmpty] at hb

/-! ## Whole calls -/

/-- The addresses the heap returns to one call of `allocate`, each fresh when it is asked
for. -/
def FreshAlong (a : Allocator) (numaNodeId : UInt8) (size : Nat) : List Nat → Prop
  | [] => True
  | base :: bases => Fresh a.blocks base size ∧
      FreshAlong (a.allocateNewBlock numaNodeId size base) numaNodeId size bases

/-- The state after a call that ended with `result`. -/
def State.after (s : State) (alignment size : Nat)
    (result : Allocator × Option (Nat × AllocatedHeader)) : State :=
  match result with
  | (a, none) => { s with allocator := a }
  | (a, some (address, header)) =>
      ⟨a, s.memory.writeHeader address header,
        ⟨add64 address sizeofAllocatedHeader, alignment, size⟩ :: s.live⟩

section Calls

variable {maxNodeId numaNodeId : UInt8} {alignment size : Nat}

theorem allocateLoop_run (hNode : numaNodeId ≤ maxNodeId)
    (hAdmissible : Admissible alignment size) (bases : List Nat) (s : State)
    (hFailed : s.allocator.allocateBack numaNodeId alignment size = (s.allocator, none))
    (hFresh : FreshAlong s.allocator numaNodeId (sizeToAlloc size) bases) :
    ∃ es, Run (Step maxNodeId) s es
      (s.after alignment size (s.allocator.allocateLoop numaNodeId alignment size bases)) := by
  induction bases generalizing s with
  | nil => exact ⟨[], Run.nil⟩
  | cons base bases ih =>
      obtain ⟨hFirst, hRest⟩ := hFresh
      have hStep : Step maxNodeId s (.grow numaNodeId alignment size base) _ :=
        Step.grow hNode hAdmissible hFailed hFirst
      have hGrow := Run.single hStep
      unfold allocateLoop
      dsimp only
      generalize hCall : (s.allocator.allocateNewBlock numaNodeId (sizeToAlloc size)
        base).allocateBack numaNodeId alignment size = result
      obtain ⟨a, _ | ⟨address, header⟩⟩ := result
      · obtain rfl := allocateBack_null hCall
        obtain ⟨es, hRun⟩ := ih { s with
          allocator := s.allocator.allocateNewBlock numaNodeId (sizeToAlloc size) base } hCall hRest
        exact ⟨_, hGrow.append hRun⟩
      · exact ⟨_, hGrow.snoc (Step.allocate hNode hAdmissible hCall)⟩

/-- A call of `allocate` is a run: it makes blocks until one serves the request. -/
theorem allocate_run (hNode : numaNodeId ≤ maxNodeId) (hAdmissible : Admissible alignment size)
    (bases : List Nat) (s : State)
    (hFresh : FreshAlong s.allocator numaNodeId (sizeToAlloc size) bases) :
    ∃ es, Run (Step maxNodeId) s es
      (s.after alignment size (s.allocator.allocate numaNodeId alignment size bases)) := by
  unfold Allocator.allocate
  generalize hCall : s.allocator.allocateBack numaNodeId alignment size = result
  obtain ⟨a, _ | ⟨address, header⟩⟩ := result
  · obtain rfl := allocateBack_null hCall
    exact allocateLoop_run hNode hAdmissible bases s hCall hFresh
  · exact ⟨_, Run.single (Step.allocate hNode hAdmissible hCall)⟩

end Calls

end Allocator

end MxTasking.Memory
