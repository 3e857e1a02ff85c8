import MxTasking.Memory.BlockSpec
import MxTasking.Verified.TransitionSystem

/-!
# A block tiles its memory

A block, the headers in memory and the allocations that have not been given
back yet are one system: `State`, with a step for each call of `allocate` and
`free` and for each write a caller makes into memory it may write to.

The block knows the free spans of its range; the regions in between can only be
read off the headers of the live allocations.  The invariant `Tiled` puts both together: there
is a tiling of the block's range whose free tiles are the free elements and whose owned tiles
are the regions of the live allocations, with an intact header in each.

## Main results

* `Tiled.allocate`, `Tiled.free`, `Tiled.frame` — what the operations do to the tiling.
* `Tiled.exists_of_run` — the tiling of every reachable state.
* `partition_of_run` — free elements and live regions partition the block, and without
  live allocations the block is one free element again.
-/

namespace MxTasking.Memory

open MxTasking.Verified
open MxTasking.Verified.Tiling

/-! ## The system -/

/-- An allocation that has not been freed: the pointer returned and the request. -/
structure Allocation where
  pointer : Nat
  alignment : Nat
  size : Nat
  deriving DecidableEq, Repr

/-- The address `free` finds the header at. -/
def Allocation.headerAddress (o : Allocation) : Nat := sub64 o.pointer sizeofAllocatedHeader

/-- A block, the headers in memory and the live allocations. -/
structure State where
  block : AllocationBlock
  memory : HeaderMemory
  live : List Allocation

inductive Event where
  | allocate (alignment size : Nat)
  | free (o : Allocation)
  | write (address length : Nat)
  deriving DecidableEq, Repr

/-- The bytes from `address` on that a caller may write to: within the size it
asked for, or not in the block at all. -/
def MayWrite (b : AllocationBlock) (live : List Allocation) (address length : Nat) : Prop :=
  (∃ o ∈ live, o.pointer ≤ address ∧ address + length ≤ o.pointer + o.size) ∨
    address + length ≤ b.allocatedBlock ∨ b.allocatedBlock + b.size ≤ address

inductive Step : State → Event → State → Prop where
  | null {s : State} {alignment size : Nat} {b : AllocationBlock}
      (hAdmissible : Admissible alignment size)
      (hCall : s.block.allocate alignment size = (b, none)) :
      Step s (.allocate alignment size) { s with block := b }
  | allocate {s : State} {alignment size address : Nat} {b : AllocationBlock}
      {header : AllocatedHeader}
      (hAdmissible : Admissible alignment size)
      (hCall : s.block.allocate alignment size = (b, some (address, header))) :
      Step s (.allocate alignment size)
        ⟨b, s.memory.writeHeader address header,
          ⟨add64 address sizeofAllocatedHeader, alignment, size⟩ :: s.live⟩
  | free {s : State} {o : Allocation} {header : AllocatedHeader} (hLive : o ∈ s.live)
      (hHeader : s.memory o.headerAddress = some header) :
      Step s (.free o) ⟨s.block.free o.headerAddress header, s.memory, s.live.erase o⟩
  | write {s : State} {address length : Nat}
      (hMay : MayWrite s.block s.live address length) :
      Step s (.write address length) { s with memory := s.memory.store address length }

/-- A block of `size` bytes at `base` right after its construction. -/
def State.init (id : UInt32) (numaNodeId : UInt8) (size base : Nat) (m : HeaderMemory) : State :=
  ⟨AllocationBlock.construct id numaNodeId size base, m, []⟩

/-! ## Headers in memory -/

namespace HeaderMemory

variable {m : HeaderMemory} {x address length : Nat}

theorem store_of_disjoint (h : x + sizeofAllocatedHeader ≤ address ∨ address + length ≤ x) :
    m.store address length x = m x :=
  if_pos h

@[simp] theorem writeHeader_self {header : AllocatedHeader} :
    m.writeHeader address header address = some header :=
  Function.update_self ..

theorem writeHeader_of_disjoint {header : AllocatedHeader}
    (h : x + sizeofAllocatedHeader ≤ address ∨ address + sizeofAllocatedHeader ≤ x) :
    m.writeHeader address header x = m x := by
  have hne : x ≠ address := by
    unfold sizeofAllocatedHeader at h
    omega
  rw [writeHeader, Function.update_of_ne hne]
  exact store_of_disjoint h

end HeaderMemory

/-- The span `s` is the region of the allocation `o`: unused bytes, header and payload, with
the header in memory telling so. -/
structure Holds (numaNodeId : UInt8) (id : UInt32) (m : HeaderMemory) (s : Span)
    (o : Allocation) : Prop where
  header : ∃ h, m o.headerAddress = some h ∧ h.numaNodeId = numaNodeId ∧
    h.allocationBlockId = id ∧
    s.start + h.unusedSizeBeforeHeader + sizeofAllocatedHeader = o.pointer ∧
    o.pointer + h.size = s.stop
  aligned : o.alignment ∣ o.pointer
  fits : o.pointer + o.size ≤ s.stop
  inRange : s.stop < 2 ^ 64

namespace Holds

variable {numaNodeId : UInt8} {id : UInt32} {m : HeaderMemory} {s : Span} {o : Allocation}

/-- The header lies inside the region, right in front of the pointer. -/
theorem headerAddress_eq (h : Holds numaNodeId id m s o) :
    o.headerAddress + sizeofAllocatedHeader = o.pointer ∧ s.start ≤ o.headerAddress ∧
      o.pointer ≤ s.stop := by
  obtain ⟨header, -, -, -, hStart, hStop⟩ := h.header
  have hRange := h.inRange
  have hEq : o.headerAddress = o.pointer - sizeofAllocatedHeader :=
    sub64_eq (by omega) (by omega)
  omega

theorem size_pos (h : Holds numaNodeId id m s o) : 0 < s.size := by
  have := h.headerAddress_eq
  unfold Span.stop sizeofAllocatedHeader at this
  omega

/-- `free` computes the region from the header. -/
theorem regionOf_eq (h : Holds numaNodeId id m s o) :
    ∃ header, m o.headerAddress = some header ∧
      AllocationBlock.regionOf o.headerAddress header = s := by
  obtain ⟨header, hMem, -, -, hStart, hStop⟩ := h.header
  have hRange := h.inRange
  have hAddress := h.headerAddress_eq
  refine ⟨header, hMem, ?_⟩
  unfold Span.stop at *
  unfold AllocationBlock.regionOf
  rw [sub64_eq (by omega) (by omega),
    add64_eq (show header.size + header.unusedSizeBeforeHeader < 2 ^ 64 by omega),
    add64_eq (by omega)]
  obtain ⟨start, size⟩ := s
  simp only [Span.mk.injEq] at *
  omega

theorem congr {m' : HeaderMemory} (h : Holds numaNodeId id m s o)
    (hMem : m' o.headerAddress = m o.headerAddress) : Holds numaNodeId id m' s o := by
  obtain ⟨header, hHeader, hRest⟩ := h.header
  exact ⟨⟨header, hMem.trans hHeader, hRest⟩, h.aligned, h.fits, h.inRange⟩

end Holds

/-! ## The tiling -/

/-- The tiles `ts` cut up the range of the block: the free ones are its free elements,
the owned ones hold the live allocations. -/
structure Tiled (b : AllocationBlock) (m : HeaderMemory) (ts : List (Tile Allocation)) :
    Prop where
  tiles : Tiles b.allocatedBlock ts (b.allocatedBlock + b.size)
  inRange : b.allocatedBlock + b.size < 2 ^ 64
  free : freeSpans ts = b.freeElements
  coalesced : Coalesced ts
  holds : ∀ s o, Tile.owned s o ∈ ts → Holds b.numaNodeId b.id m s o
  /-- Only a block of no bytes has an empty free element. -/
  pos : ∀ s, Tile.free s ∈ ts → 0 < s.size ∨ ts = [Tile.free s]
  nonempty : ts ≠ []

namespace Tiled

variable {b : AllocationBlock} {m : HeaderMemory} {ts : List (Tile Allocation)}

theorem construct {id : UInt32} {numaNodeId : UInt8} {size base : Nat}
    (h : base + size < 2 ^ 64) (m : HeaderMemory) :
    Tiled (AllocationBlock.construct id numaNodeId size base) m [Tile.free ⟨base, size⟩] where
  tiles := ⟨rfl, rfl⟩
  inRange := h
  free := rfl
  coalesced := List.isChain_singleton _
  holds := by simp [Tile.owned, Tile.free]
  pos := by simp [Tile.free]
  nonempty := by simp

theorem stop_lt (h : Tiled b m ts) {t : Tile Allocation} (ht : t ∈ ts) :
    t.span.stop < 2 ^ 64 :=
  Nat.lt_of_le_of_lt (h.tiles.bounds ht).2 h.inRange

theorem freeElements_stop_lt (h : Tiled b m ts) : ∀ e ∈ b.freeElements, e.stop < 2 ^ 64 := by
  intro e he
  rw [← h.free] at he
  exact h.stop_lt (mem_freeSpans.mp he)

theorem owned_pos (h : Tiled b m ts) : ∀ s o, Tile.owned s o ∈ ts → 0 < s.size :=
  fun s o hMem => (h.holds s o hMem).size_pos

/-- The tiling does not depend on memory outside the headers of the live allocations. -/
theorem frame {m' : HeaderMemory} (h : Tiled b m ts)
    (hMem : ∀ s o, Tile.owned s o ∈ ts → m' o.headerAddress = m o.headerAddress) :
    Tiled b m' ts :=
  { h with holds := fun s o hOwned => (h.holds s o hOwned).congr (hMem s o hOwned) }

/-- Distinct tiles do not overlap. -/
theorem disjoint (h : Tiled b m ts) {us vs : List (Tile Allocation)} {t u : Tile Allocation}
    (hSplit : ts = us ++ t :: vs) (hu : u ∈ us ∨ u ∈ vs) :
    u.span.stop ≤ t.span.start ∨ t.span.stop ≤ u.span.start := by
  have hOrdered := h.tiles.ordered
  rw [hSplit, List.pairwise_append, List.pairwise_cons] at hOrdered
  rcases hu with hu | hu
  · exact .inl (hOrdered.2.2 u hu t List.mem_cons_self)
  · exact .inr (hOrdered.2.1.1 u hu)

/-- Where there is another tile, a free tile is not empty. -/
theorem free_pos (h : Tiled b m ts) {us vs : List (Tile Allocation)} {t : Tile Allocation}
    (hSplit : ts = us ++ t :: vs) {s : Span} (hs : Tile.free s ∈ us ∨ Tile.free s ∈ vs) :
    0 < s.size := by
  have hMem : Tile.free s ∈ ts := by
    rw [hSplit, List.mem_append, List.mem_cons]
    tauto
  rcases h.pos s hMem with hPos | hSingle
  · exact hPos
  · have hLength := congrArg List.length (hSplit.symm.trans hSingle)
    simp only [List.length_append, List.length_cons, List.length_nil] at hLength
    rcases hs with hs | hs
    · have := List.length_pos_of_mem hs
      omega
    · have := List.length_pos_of_mem hs
      omega

/-! ### Taking a part of a free tile -/

/-- A header written into a free tile leaves the other headers alone. -/
theorem holds_writeHeader (h : Tiled b m ts) {us vs : List (Tile Allocation)} {e : Span}
    (hSplit : ts = us ++ Tile.free e :: vs) {address : Nat} (hLeft : e.start ≤ address)
    (hRight : address + sizeofAllocatedHeader ≤ e.stop) (header : AllocatedHeader) {s : Span}
    {o : Allocation} (hOwned : Tile.owned s o ∈ us ∨ Tile.owned s o ∈ vs) :
    Holds b.numaNodeId b.id (m.writeHeader address header) s o := by
  have hHolds := h.holds s o (by rw [hSplit, List.mem_append, List.mem_cons]; tauto)
  refine hHolds.congr (HeaderMemory.writeHeader_of_disjoint ?_)
  have hAddress := hHolds.headerAddress_eq
  have hDisjoint := h.disjoint hSplit hOwned
  simp only [Tile.owned, Tile.free] at hDisjoint
  omega

/-- The region of a new allocation at the end of a free element. -/
theorem holds_new (numaNodeId : UInt8) (id : UInt32) {e s : Span}
    {alignment size taken unused : Nat} (he : e.stop < 2 ^ 64)
    (hPlace : AllocationBlock.Placement alignment size e taken)
    (hStart : s.start + unused = e.stop - taken) (hStop : s.stop = e.stop) :
    Holds numaNodeId id
      (m.writeHeader (e.stop - taken) ⟨taken - sizeofAllocatedHeader, unused, numaNodeId, id⟩)
      s ⟨add64 (e.stop - taken) sizeofAllocatedHeader, alignment, size⟩ := by
  obtain ⟨hSize, hLe, hAligned⟩ := hPlace
  have hLeStop : e.size ≤ e.stop := Nat.le_add_left ..
  rw [add64_eq (by omega)]
  have hAddress : (⟨e.stop - taken + sizeofAllocatedHeader, alignment, size⟩ :
      Allocation).headerAddress = e.stop - taken := by
    unfold Allocation.headerAddress
    rw [sub64_eq (by simp) (by dsimp only; omega)]
    exact Nat.add_sub_cancel ..
  refine ⟨⟨_, by rw [hAddress]; exact HeaderMemory.writeHeader_self, rfl, rfl, ?_, ?_⟩,
    hAligned, ?_, ?_⟩
  · show s.start + unused + sizeofAllocatedHeader = _
    rw [hStart]
  · show e.stop - taken + sizeofAllocatedHeader + (taken - sizeofAllocatedHeader) = s.stop
    omega
  · show e.stop - taken + sizeofAllocatedHeader + size ≤ s.stop
    omega
  · rwa [hStop]

/-- A free tile becomes an owned one, with at most one free tile left in front of it. -/
theorem take {us vs : List (Tile Allocation)} {e s : Span} {o : Allocation}
    (h : Tiled b m (us ++ Tile.free e :: vs)) (rest : List Span) (available : Nat)
    (hLength : rest.length ≤ 1) (hPos : ∀ r ∈ rest, 0 < r.size)
    (hTiles : ∀ x y, Tiles x [(Tile.free e : Tile Allocation)] y →
      Tiles x (rest.map Tile.free ++ [Tile.owned s o]) y)
    {address : Nat} {header : AllocatedHeader} (hLeft : e.start ≤ address)
    (hRight : address + sizeofAllocatedHeader ≤ e.stop)
    (hNew : Holds b.numaNodeId b.id (m.writeHeader address header) s o) :
    Tiled { b with
        freeElements := freeSpans us ++ rest ++ freeSpans vs
        availableSize := available }
      (m.writeHeader address header) (us ++ rest.map Tile.free ++ Tile.owned s o :: vs) where
  tiles := by
    have hOld : Tiles b.allocatedBlock (us ++ [Tile.free e] ++ vs)
        (b.allocatedBlock + b.size) := by simpa using h.tiles
    simpa using hOld.replace hTiles
  inRange := h.inRange
  free := by
    have hFree : freeSpans (rest.map (Tile.free : Span → Tile Allocation)) = rest := by
      clear hTiles hPos hLength
      induction rest with
      | nil => rfl
      | cons r rest ih => simp [ih]
    simp [hFree]
  coalesced := by
    obtain ⟨hUs, hVs, hLast, -⟩ := coalesced_free_iff.mp h.coalesced
    refine coalesced_owned_iff.mpr ⟨?_, hVs⟩
    match rest, hLength with
    | [], _ => simpa using hUs
    | [r], _ => exact coalesced_free_iff.mpr ⟨hUs, List.isChain_nil, hLast, by simp⟩
  holds := by
    intro s' o' hOwned
    rw [List.mem_append, List.mem_append, List.mem_cons] at hOwned
    rcases hOwned with (hOwned | hOwned) | hOwned | hOwned
    · exact h.holds_writeHeader rfl hLeft hRight _ (.inl hOwned)
    · simp [Tile.owned, Tile.free] at hOwned
    · obtain ⟨rfl, rfl⟩ : s' = s ∧ o' = o := by simpa [Tile.owned] using hOwned
      exact hNew
    · exact h.holds_writeHeader rfl hLeft hRight _ (.inr hOwned)
  pos := by
    intro s' hs
    rw [List.mem_append, List.mem_append, List.mem_cons] at hs
    rcases hs with (hs | hs) | hs | hs
    · exact .inl (h.free_pos rfl (.inl hs))
    · exact .inl (hPos s' (by simpa [Tile.free] using hs))
    · simp [Tile.owned, Tile.free] at hs
    · exact .inl (h.free_pos rfl (.inr hs))
  nonempty := by simp

theorem allocate (h : Tiled b m ts) {alignment size address : Nat} {b' : AllocationBlock}
    {header : AllocatedHeader} (hAdmissible : Admissible alignment size)
    (hCall : b.allocate alignment size = (b', some (address, header))) :
    (b.allocatedBlock ≤ address ∧
      address + sizeofAllocatedHeader ≤ b.allocatedBlock + b.size) ∧
    ∃ ts', Tiled b' (m.writeHeader address header) ts' ∧
      (owners ts').Perm
        (⟨add64 address sizeofAllocatedHeader, alignment, size⟩ :: owners ts) := by
  have hOutcome := b.allocate_outcome hAdmissible h.freeElements_stop_lt
  rw [hCall] at hOutcome
  cases hOutcome with
  | contracted before after e taken hElements hTaken hHold hFirst hPlace hRest =>
      obtain ⟨us, vs, rfl, rfl, rfl⟩ := exists_of_freeSpans_eq (h.free.trans hElements)
      have he : e.stop < 2 ^ 64 := h.stop_lt (t := Tile.free e) (by simp)
      have hLe := hPlace.le
      have hSize := hPlace.size_le
      have hStop : e.stop = e.start + e.size := rfl
      have hNew := holds_new (m := m) (s := ⟨e.stop - taken, taken⟩) b.numaNodeId b.id he hPlace
        (show e.stop - taken + 0 = e.stop - taken by omega)
        (show e.stop - taken + taken = e.stop by omega)
      have hBounds := h.tiles.bounds (t := Tile.free e) (by simp)
      simp only [Tile.free] at hBounds
      refine ⟨by omega, ?_⟩
      have hTiled := h.take [⟨e.start, e.size - taken⟩] (sub64 b.availableSize taken)
        (by simp) (by simp only [List.mem_singleton, forall_eq]; omega) ?_ (by omega) (by omega)
        hNew
      · rw [List.append_assoc] at hTiled
        exact ⟨_, hTiled, by simp⟩
      · rintro x y ⟨hx, hy⟩
        refine ⟨hx, ?_, ?_⟩
        all_goals simp only [Tile.free, Tile.owned, Span.stop, Tiles] at *
        all_goals omega
  | swallowed before after e taken hElements hTaken hHold hFirst hPlace hRest =>
      obtain ⟨us, vs, rfl, rfl, rfl⟩ := exists_of_freeSpans_eq (h.free.trans hElements)
      have he : e.stop < 2 ^ 64 := h.stop_lt (t := Tile.free e) (by simp)
      have hLe := hPlace.le
      have hSize := hPlace.size_le
      have hStop : e.stop = e.start + e.size := rfl
      have hNew := holds_new (m := m) (s := e) b.numaNodeId b.id he hPlace
        (show e.start + (e.size - taken) = e.stop - taken by omega) rfl
      have hBounds := h.tiles.bounds (t := Tile.free e) (by simp)
      simp only [Tile.free] at hBounds
      refine ⟨by omega, ?_⟩
      have hTiled := h.take [] (sub64 b.availableSize ((freeSpans vs).headD e).size)
        (by simp) (by simp) (fun x y hxy => hxy) (by omega) (by omega) hNew
      rw [List.append_nil] at hTiled
      exact ⟨_, hTiled, by simp⟩

/-! ### Giving an owned tile back -/

/-- A free span `x` between `us` and `vs`, where no free tile follows: it joins the free
tile in front of it, if there is one.  `F` is the list of free spans that comes of it. -/
theorem exists_joinLeft {lo hi : Nat} {us vs : List (Tile Allocation)} {x : Span}
    {F : List Span} (hUs : Tiles lo us x.start) (hVs : Tiles x.stop vs hi) (hHi : hi < 2 ^ 64)
    (hOwned : ∀ s o, Tile.owned s o ∈ us → 0 < s.size) (hx : 0 < x.size)
    (hCoalUs : Coalesced us) (hCoalVs : Coalesced vs)
    (hHead : ∀ y ∈ vs.head?, y.owner ≠ none)
    (hJoin : ∀ L l, freeSpans us = L ++ [l] → FreeHeader.borders l x = true →
      F = L ++ FreeHeader.merge l x :: freeSpans vs)
    (hKeep : (∀ l ∈ freeSpans us, FreeHeader.borders l x = false) →
      F = freeSpans us ++ x :: freeSpans vs) :
    ∃ us' y, us' <+: us ∧ owners us' = owners us ∧ x.size ≤ y.size ∧
      Tiles lo (us' ++ Tile.free y :: vs) hi ∧ Coalesced (us' ++ Tile.free y :: vs) ∧
      freeSpans us' ++ y :: freeSpans vs = F := by
  have hxHi := hVs.le
  rcases last_cases us with ⟨us', l, rfl⟩ | hLast
  · obtain ⟨mid, hUs', hStart, hStop⟩ := Tiles.append_iff.mp hUs
    have hStop : l.stop = x.start := hStop
    have hxStop : x.stop < 2 ^ 64 := by omega
    have hlStop : l.stop < 2 ^ 64 := by unfold Span.stop at *; omega
    obtain ⟨hCoal, -, hLast, -⟩ := coalesced_free_iff.mp hCoalUs
    refine ⟨us', ⟨l.start, l.size + x.size⟩, List.prefix_append .., by simp,
      Nat.le_add_left .., ?_, coalesced_free_iff.mpr ⟨hCoal, hCoalVs, hLast, hHead⟩, ?_⟩
    · refine Tiles.append_iff.mpr ⟨mid, hUs', hStart, ?_⟩
      have hEnd : l.start + (l.size + x.size) = x.stop := by unfold Span.stop at *; omega
      show Tiles (l.start + (l.size + x.size)) vs hi
      rwa [hEnd]
    · rw [hJoin (freeSpans us') l (by simp) ((FreeHeader.borders_iff hlStop).mpr hStop),
        FreeHeader.merge_right hStop hxStop]
  · refine ⟨us, x, List.prefix_refl us, rfl, le_refl _, Tiles.append_iff.mpr ⟨_, hUs, rfl, hVs⟩,
      coalesced_free_iff.mpr ⟨hCoalUs, hCoalVs, hLast, hHead⟩, ?_⟩
    refine (hKeep fun l hl => ?_).symm
    have hlt := hUs.stop_lt_of_last hOwned hLast hl
    have hxStart : x.start ≤ x.stop := Nat.le_add_right ..
    exact FreeHeader.borders_eq_false (by omega) (by omega)

/-- The position of an owned region among the free elements. -/
theorem lowerBoundIndex_eq {us vs : List (Tile Allocation)} {s : Span} {o : Allocation}
    (h : Tiled b m (us ++ Tile.owned s o :: vs)) :
    AllocationBlock.lowerBoundIndex (freeSpans us ++ freeSpans vs) s = (freeSpans us).length := by
  have hSize := h.owned_pos s o (by simp)
  have hFree := h.tiles.freeSpans_ordered h.coalesced h.owned_pos
  rw [freeSpans_append, freeSpans_owned] at hFree
  refine AllocationBlock.lowerBoundIndex_append (hFree.imp fun {e f} hlt => ?_) ?_ ?_
  · have : e.start ≤ e.stop := Nat.le_add_right ..
    omega
  · intro l hl
    have hPos := h.free_pos rfl (.inl (mem_freeSpans.mp hl))
    have hDisjoint := h.disjoint rfl (.inl (mem_freeSpans.mp hl))
    have hOrdered := List.pairwise_append.mp h.tiles.ordered
    have hBefore := hOrdered.2.2 _ (mem_freeSpans.mp hl) _ List.mem_cons_self
    simp only [Tile.free, Tile.owned, Span.stop] at hBefore
    omega
  · intro r hr
    have hOrdered := (List.pairwise_append.mp h.tiles.ordered).2.1
    have hBehind := (List.pairwise_cons.mp hOrdered).1 _ (mem_freeSpans.mp hr)
    simp only [Tile.free, Tile.owned, Span.stop] at hBehind
    omega

/-- The tiling after an owned tile has been given back. -/
theorem exists_giveBack {us vs : List (Tile Allocation)} {s : Span} {o : Allocation}
    (h : Tiled b m (us ++ Tile.owned s o :: vs)) :
    ∃ us' y vs', us' <+: us ∧ vs' <:+ vs ∧ 0 < y.size ∧
      owners us' ++ owners vs' = owners us ++ owners vs ∧
      Tiles b.allocatedBlock (us' ++ Tile.free y :: vs') (b.allocatedBlock + b.size) ∧
      Coalesced (us' ++ Tile.free y :: vs') ∧
      freeSpans us' ++ y :: freeSpans vs' = AllocationBlock.insertFree b.freeElements s := by
  obtain ⟨mid, hUs, rfl, hVs⟩ := Tiles.append_iff.mp h.tiles
  simp only [Tile.owned] at hUs hVs
  obtain ⟨hCoalUs, hCoalVs⟩ := coalesced_owned_iff.mp h.coalesced
  have hIndex := h.lowerBoundIndex_eq
  have hSize := h.owned_pos s o (by simp)
  have hUsOwned : ∀ s' o', Tile.owned s' o' ∈ us → 0 < s'.size :=
    fun s' o' hMem => h.owned_pos s' o' (by simp [hMem])
  have hVsOwned : ∀ s' o', Tile.owned s' o' ∈ vs → 0 < s'.size :=
    fun s' o' hMem => h.owned_pos s' o' (by simp [hMem])
  have hStop : s.stop < 2 ^ 64 := h.stop_lt (t := Tile.owned s o) (by simp)
  have hFree := h.free
  rw [freeSpans_append, freeSpans_owned] at hFree
  rw [← hFree]
  -- to the right, then to the left
  rcases head_cases vs with ⟨r, vs, rfl⟩ | hHead
  · obtain ⟨hStart, hVs'⟩ := hVs
    have hStart : r.start = s.stop := hStart
    have hCoalVs : Coalesced ([] ++ Tile.free r :: vs) := hCoalVs
    obtain ⟨-, hCoal, -, hHead⟩ := coalesced_free_iff.mp hCoalVs
    have hrStop : r.stop < 2 ^ 64 := h.stop_lt (t := Tile.free r) (by simp)
    rw [freeSpans_free] at hIndex ⊢
    rw [AllocationBlock.insertFree_of_borders hIndex
        ((FreeHeader.borders_iff hStop).mpr hStart.symm),
      FreeHeader.merge_left hStart.symm hSize hrStop]
    have hEnd : s.start + (s.size + r.size) = r.stop := by unfold Span.stop at *; omega
    have hJoined := exists_joinLeft (x := ⟨s.start, s.size + r.size⟩) hUs
      (show Tiles (s.start + (s.size + r.size)) vs _ by rwa [hEnd]) h.inRange hUsOwned
      (by simp only; omega) hCoalUs hCoal hHead
      (fun L l hL hBorders => ?_) AllocationBlock.mergeLeft_of_not_borders
    · obtain ⟨us', y, hPrefix, hOwners, hy, hTiles, hCoal', hList⟩ := hJoined
      exact ⟨us', y, vs, hPrefix, List.suffix_cons .., by simp only at hy; omega,
        by rw [hOwners, owners_free], hTiles, hCoal', hList⟩
    · rw [hL, List.length_append, List.append_assoc]
      exact AllocationBlock.mergeLeft_append hBorders
  · rw [AllocationBlock.insertFree_of_not_borders hIndex fun r hr =>
      FreeHeader.borders_eq_false hStop (ne_of_lt (hVs.lt_start_of_head hVsOwned hHead hr))]
    have hJoined := exists_joinLeft hUs hVs h.inRange hUsOwned hSize hCoalUs hCoalVs hHead
      (fun L l hL hBorders => ?_) AllocationBlock.insertLeft_of_not_borders
    · obtain ⟨us', y, hPrefix, hOwners, hy, hTiles, hCoal', hList⟩ := hJoined
      exact ⟨us', y, vs, hPrefix, List.suffix_refl vs, by omega, by rw [hOwners], hTiles,
        hCoal', hList⟩
    · rw [hL, List.length_append, List.append_assoc]
      exact AllocationBlock.insertLeft_append hBorders

theorem free_live (h : Tiled b m ts) {o : Allocation} (ho : o ∈ owners ts) :
    ∃ header ts', m o.headerAddress = some header ∧
      (b.free o.headerAddress header).freeElements ≠ [] ∧
      Tiled (b.free o.headerAddress header) m ts' ∧ (o :: owners ts').Perm (owners ts) := by
  obtain ⟨s, hs⟩ := mem_owners.mp ho
  obtain ⟨us, vs, rfl⟩ := List.append_of_mem hs
  obtain ⟨header, hHeader, hRegion⟩ := (h.holds s o hs).regionOf_eq
  obtain ⟨us', y, vs', hPrefix, hSuffix, hy, hOwners, hTiles, hCoal, hList⟩ := h.exists_giveBack
  have hFree : (b.free o.headerAddress header).freeElements
      = freeSpans us' ++ y :: freeSpans vs' := by
    rw [hList]
    simp only [AllocationBlock.free, hRegion]
  refine ⟨header, us' ++ Tile.free y :: vs', hHeader, by simp [hFree],
    ⟨hTiles, h.inRange, ?_, hCoal, ?_, ?_, by simp⟩, ?_⟩
  · rw [freeSpans_append, freeSpans_free, hFree]
  · intro s' o' hMem
    refine h.holds s' o' ?_
    rw [List.mem_append, List.mem_cons] at hMem ⊢
    rcases hMem with hMem | hMem | hMem
    · exact .inl (hPrefix.subset hMem)
    · simp [Tile.owned, Tile.free] at hMem
    · exact .inr (.inr (hSuffix.subset hMem))
  · intro s' hMem
    rw [List.mem_append, List.mem_cons] at hMem
    rcases hMem with hMem | hMem | hMem
    · exact .inl (h.free_pos rfl (.inl (hPrefix.subset hMem)))
    · obtain rfl : s' = y := by simpa [Tile.free] using hMem
      exact .inl hy
    · exact .inl (h.free_pos rfl (.inr (hSuffix.subset hMem)))
  · simp only [owners_append, owners_free, owners_owned]
    rw [hOwners]
    exact List.perm_middle.symm

/-- A write a caller may make destroys no header. -/
theorem store (h : Tiled b m ts) {live : List Allocation} (hLive : live.Perm (owners ts))
    {address length : Nat} (hMay : MayWrite b live address length) :
    Tiled b (m.store address length) ts := by
  refine h.frame fun s o hOwned => HeaderMemory.store_of_disjoint ?_
  have hAddress := (h.holds s o hOwned).headerAddress_eq
  have hBounds := h.tiles.bounds hOwned
  simp only [Tile.owned] at hBounds
  rcases hMay with ⟨o', ho', hLeft, hRight⟩ | hOutside
  · obtain ⟨s', hs'⟩ := mem_owners.mp (hLive.mem_iff.mp ho')
    have hFits := (h.holds s' o' hs').fits
    have hAddress' := (h.holds s' o' hs').headerAddress_eq
    by_cases hSame : (Tile.owned s o : Tile Allocation) = Tile.owned s' o'
    · obtain ⟨rfl, rfl⟩ : s = s' ∧ o = o' := by simpa [Tile.owned] using hSame
      omega
    · obtain ⟨us, vs, rfl⟩ := List.append_of_mem hs'
      have hOther : Tile.owned s o ∈ us ∨ Tile.owned s o ∈ vs := by
        rw [List.mem_append, List.mem_cons] at hOwned
        rcases hOwned with hIn | hEq | hIn
        · exact .inl hIn
        · exact absurd hEq hSame
        · exact .inr hIn
      have hDisjoint := h.disjoint rfl hOther
      simp only [Tile.owned] at hDisjoint
      omega
  · omega

end Tiled

/-! ## Every run -/

/-- What every operation preserves. -/
def State.Inv (base size : Nat) (s : State) : Prop :=
  s.block.allocatedBlock = base ∧ s.block.size = size ∧
    ∃ ts, Tiled s.block s.memory ts ∧ s.live.Perm (owners ts)

namespace AllocationBlock

@[simp] theorem free_allocatedBlock (b : AllocationBlock) (address : Nat)
    (header : AllocatedHeader) : (b.free address header).allocatedBlock = b.allocatedBlock := rfl

@[simp] theorem free_size (b : AllocationBlock) (address : Nat) (header : AllocatedHeader) :
    (b.free address header).size = b.size := rfl

/-- `allocate` changes neither where a block lies nor what it is called. -/
theorem allocate_frame (b : AllocationBlock) (alignment size : Nat) :
    (b.allocate alignment size).1.allocatedBlock = b.allocatedBlock ∧
      (b.allocate alignment size).1.size = b.size ∧ (b.allocate alignment size).1.id = b.id ∧
      (b.allocate alignment size).1.numaNodeId = b.numaNodeId := by
  unfold allocate
  split
  · simp
  · split
    · simp
    · dsimp only
      split
      · simp
      · simp

/-- A request that fails leaves the block as it is. -/
theorem allocate_null {b b' : AllocationBlock} {alignment size : Nat}
    (h : b.allocate alignment size = (b', none)) : b' = b := by
  unfold allocate at h
  split at h
  · exact (Prod.mk.inj h).1.symm
  · split at h
    · exact (Prod.mk.inj h).1.symm
    · dsimp only at h
      split at h
      · simp at h
      · simp at h

end AllocationBlock

theorem State.inv_init (id : UInt32) (numaNodeId : UInt8) {size base : Nat}
    (h : base + size < 2 ^ 64) (m : HeaderMemory) :
    (State.init id numaNodeId size base m).Inv base size :=
  ⟨rfl, rfl, _, Tiled.construct h m, List.Perm.refl _⟩

theorem Step.inv {s s' : State} {e : Event} {base size : Nat} (hInv : s.Inv base size)
    (h : Step s e s') : s'.Inv base size := by
  obtain ⟨hBase, hSize, ts, hTiled, hLive⟩ := hInv
  cases h with
  | null _ hCall =>
      rw [AllocationBlock.allocate_null hCall]
      exact ⟨hBase, hSize, ts, hTiled, hLive⟩
  | @allocate alignment size address b header hAdmissible hCall =>
      have hFrame := s.block.allocate_frame alignment size
      obtain ⟨-, ts', hTiled', hOwners⟩ := hTiled.allocate hAdmissible hCall
      rw [hCall] at hFrame
      exact ⟨hFrame.1.trans hBase, hFrame.2.1.trans hSize, ts', hTiled',
        (hLive.cons _).trans hOwners.symm⟩
  | @free o header ho hHeader =>
      obtain ⟨header', ts', hHeader', -, hTiled', hOwners⟩ :=
        hTiled.free_live (hLive.mem_iff.mp ho)
      obtain rfl : header = header' := Option.some.inj (hHeader.symm.trans hHeader')
      refine ⟨hBase, hSize, ts', hTiled', ?_⟩
      have hErase := (hLive.trans hOwners.symm).erase o
      simpa using hErase
  | write hMay => exact ⟨hBase, hSize, ts, hTiled.store hLive hMay, hLive⟩

/-- The regions of the live allocations, as their headers tell them. -/
def State.regions (s : State) : List Span :=
  s.live.filterMap fun o =>
    (s.memory o.headerAddress).map (AllocationBlock.regionOf o.headerAddress)

/-- The free elements and the live regions are the spans of the tiling. -/
theorem Tiled.spans_perm {s : State} {ts : List (Tile Allocation)}
    (h : Tiled s.block s.memory ts) (hLive : s.live.Perm (owners ts)) :
    (s.block.freeElements ++ s.regions).Perm (ts.map Tile.span) := by
  have hRegions : s.regions.Perm (ownedSpans ts) := by
    refine (hLive.filterMap _).trans (List.Perm.of_eq (filterMap_owners fun r o hOwned => ?_))
    obtain ⟨header, hHeader, hRegion⟩ := (h.holds r o hOwned).regionOf_eq
    rw [hHeader, Option.map_some, hRegion]
  rw [← h.free]
  exact (hRegions.append_left _).trans (freeSpans_append_ownedSpans ts)

/-- Free elements and live regions partition the `size` bytes from `base` on, and
every live allocation is as it was asked for. -/
structure State.Partition (base size : Nat) (s : State) : Prop where
  /-- The free elements ascend, and none borders or overlaps the next. -/
  ascending : s.block.freeElements.Pairwise (fun e f => e.start < f.start ∧ e.stop < f.start)
  disjoint : (s.block.freeElements ++ s.regions).Pairwise
    (fun r r' => r.stop ≤ r'.start ∨ r'.stop ≤ r.start)
  covers : ∀ x, (∃ r ∈ s.block.freeElements ++ s.regions, r.start ≤ x ∧ x < r.stop) ↔
    base ≤ x ∧ x < base + size
  /-- The header in front of a live pointer is intact, and what it says is a region of
  its own around header and payload. -/
  allocations : ∀ o ∈ s.live, o.alignment ∣ o.pointer ∧ ∃ header r,
    s.memory o.headerAddress = some header ∧
    header.numaNodeId = s.block.numaNodeId ∧ header.allocationBlockId = s.block.id ∧
    o.size ≤ header.size ∧
    r ∈ s.regions ∧ r = AllocationBlock.regionOf o.headerAddress header ∧
    r.start + header.unusedSizeBeforeHeader = o.headerAddress ∧
    o.headerAddress + sizeofAllocatedHeader = o.pointer ∧ o.pointer + header.size = r.stop
  freed : s.live = [] → s.block.freeElements = [⟨base, size⟩]

theorem State.Inv.partition {base size : Nat} {s : State} (h : s.Inv base size) :
    s.Partition base size := by
  obtain ⟨rfl, rfl, ts, hTiled, hLive⟩ := h
  have hSpans := hTiled.spans_perm hLive
  refine ⟨?_, ?_, fun x => ?_, fun o ho => ?_, fun hNil => ?_⟩
  · rw [← hTiled.free]
    refine (hTiled.tiles.freeSpans_ordered hTiled.coalesced hTiled.owned_pos).imp ?_
    intro e f hlt
    have : e.start ≤ e.stop := Nat.le_add_right ..
    exact ⟨by omega, hlt⟩
  · rw [hSpans.pairwise_iff (fun {_ _} h => h.symm), List.pairwise_map]
    exact hTiled.tiles.ordered.imp fun h => .inl h
  · rw [← hTiled.tiles.covers x]
    constructor
    · rintro ⟨r, hr, hx⟩
      obtain ⟨t, ht, rfl⟩ := List.mem_map.mp (hSpans.mem_iff.mp hr)
      exact ⟨t, ht, hx⟩
    · rintro ⟨t, ht, hx⟩
      exact ⟨t.span, hSpans.mem_iff.mpr (List.mem_map_of_mem ht), hx⟩
  · obtain ⟨r, hr⟩ := mem_owners.mp (hLive.mem_iff.mp ho)
    have hHolds := hTiled.holds r o hr
    obtain ⟨header, hHeader, hNode, hId, hStart, hStop⟩ := hHolds.header
    obtain ⟨header', hHeader', hRegion⟩ := hHolds.regionOf_eq
    obtain rfl : header = header' := Option.some.inj (hHeader.symm.trans hHeader')
    have hFits := hHolds.fits
    have hAddress := hHolds.headerAddress_eq
    refine ⟨hHolds.aligned, header, r, hHeader, hNode, hId, by omega, ?_, hRegion.symm,
      by omega, by omega, hStop⟩
    refine List.mem_filterMap.mpr ⟨o, ho, ?_⟩
    rw [hHeader, Option.map_some, hRegion]
  · rw [hNil] at hLive
    have hSingle := hTiled.tiles.eq_of_owners_nil hTiled.coalesced hLive.nil_eq.symm
      hTiled.nonempty
    rw [← hTiled.free, hSingle, freeSpans_free, freeSpans_nil, Nat.add_sub_cancel_left]

/-- In every state a block can get into, its free elements and the regions of the
live allocations partition its memory. -/
theorem partition_of_run {id : UInt32} {numaNodeId : UInt8} {size base : Nat}
    {m : HeaderMemory} {es : List Event} {s : State} (hRange : base + size < 2 ^ 64)
    (hRun : Run Step (State.init id numaNodeId size base m) es s) : s.Partition base size :=
  (hRun.invariant (State.inv_init id numaNodeId hRange m) fun _ _ _ => Step.inv).partition

/-- A block of 4096 bytes, with one allocation that is freed again. -/
theorem partition_of_run_free : ∃ s,
    Run Step (State.init 0 0 4096 65536 fun _ => none)
      [.allocate 64 100, .free ⟨69504, 64, 100⟩] s ∧ s.Partition 65536 4096 := by
  have hAdmissible : Admissible 64 100 := ⟨⟨6, rfl⟩, by decide⟩
  have hAllocate := Step.allocate (s := State.init 0 0 4096 65536 fun _ => none) hAdmissible
    (show _ = (⟨0, 0, 4096, 65536, [⟨65536, 3952⟩], 3952⟩,
      some (69488, ⟨128, 0, 0, 0⟩)) by decide)
  have hRun := (Run.single hAllocate).snoc
    (Step.free (o := ⟨69504, 64, 100⟩) (by decide) (show _ = some ⟨128, 0, 0, 0⟩ by decide))
  exact ⟨_, hRun, partition_of_run (by decide) hRun⟩

end MxTasking.Memory
