import MxTasking.Verified.Tiling
import MxTasking.Verified.Slots

/-!
# Allocation blocks

`dynamic_size_allocator.h` and `.cpp`, up to `AllocationBlock`.  A block owns
one stretch of memory and keeps the free parts of it in a vector of `FreeHeader`, sorted by
address.  In front of each allocation lies a header that says how to give it
back.

`std::size_t` and `std::uintptr_t` are 64 bits wide; `add64` and `sub64` are their arithmetic.
Memory is what is known of it here: the header written last at an address, if nothing has been
written over it since (`HeaderMemory`).

Erasing from a vector moves the later elements down by one.  The iterator that was
erased then points at the element that took the place or, behind the last element, at
the old contents of the slot; `allocate` still reads through it.
-/

namespace MxTasking.Memory

open MxTasking.Verified.Tiling
open MxTasking.Verified.Slots

/-! ## Machine arithmetic -/

/-- `a + b` in `std::size_t`. -/
def add64 (a b : Nat) : Nat := (a + b) % 2 ^ 64

/-- `a - b` in `std::size_t`. -/
def sub64 (a b : Nat) : Nat := (a + (2 ^ 64 - b % 2 ^ 64)) % 2 ^ 64

theorem add64_eq {a b : Nat} (h : a + b < 2 ^ 64) : add64 a b = a + b :=
  Nat.mod_eq_of_lt h

theorem sub64_eq {a b : Nat} (h : b ≤ a) (ha : a < 2 ^ 64) : sub64 a b = a - b := by
  unfold sub64
  rw [Nat.mod_eq_of_lt (show b < 2 ^ 64 by omega)]
  omega

/-! ## Headers -/

/-- `FreeHeader`: a free part of a block. -/
abbrev FreeHeader := Span

namespace FreeHeader

/-- `contract(size)`. -/
def contract (e : FreeHeader) (size : Nat) : FreeHeader := ⟨e.start, sub64 e.size size⟩

/-- `borders(other)`. -/
def borders (e other : FreeHeader) : Bool := add64 e.start e.size = other.start

/-- `merge(other)`. -/
def merge (e other : FreeHeader) : FreeHeader :=
  if other.start < e.start then ⟨other.start, add64 e.size other.size⟩
  else ⟨e.start, add64 e.size other.size⟩

end FreeHeader

/-- `AllocatedHeader`. -/
structure AllocatedHeader where
  size : Nat
  unusedSizeBeforeHeader : Nat
  numaNodeId : UInt8
  allocationBlockId : UInt32
  deriving DecidableEq, Repr

/-- `sizeof(AllocatedHeader)`: 8 + 2 + 1 bytes, one of padding and 4 more. -/
def sizeofAllocatedHeader : Nat := 16

/-- The headers in memory by their addresses; `none` where there is no intact one. -/
abbrev HeaderMemory := Nat → Option AllocatedHeader

/-- `length` bytes from `address` on are overwritten: every header they touch is gone. -/
def HeaderMemory.store (m : HeaderMemory) (address length : Nat) : HeaderMemory := fun x =>
  if x + sizeofAllocatedHeader ≤ address ∨ address + length ≤ x then m x else none

/-- A header is constructed at `address`. -/
def HeaderMemory.writeHeader (m : HeaderMemory) (address : Nat) (header : AllocatedHeader) :
    HeaderMemory :=
  Function.update (m.store address sizeofAllocatedHeader) address (some header)

/-! ## Blocks -/

/-- `AllocationBlock`; `allocatedBlock` is the address of its memory. -/
structure AllocationBlock where
  id : UInt32
  numaNodeId : UInt8
  size : Nat
  allocatedBlock : Nat
  freeElements : List FreeHeader
  availableSize : Nat
  deriving DecidableEq, Repr

namespace AllocationBlock

/-- The constructor, with the address the global heap returned. -/
def construct (id : UInt32) (numaNodeId : UInt8) (size allocatedBlock : Nat) :
    AllocationBlock :=
  { id := id
    numaNodeId := numaNodeId
    size := size
    allocatedBlock := allocatedBlock
    freeElements := [⟨allocatedBlock, size⟩]
    availableSize := size }

/-- The part of a free element an allocation takes from its end: the size, what is
needed to start aligned and the header. -/
def alignedSizeIncludingHeader (alignment size : Nat) (e : FreeHeader) : Nat :=
  let stop := add64 e.start e.size
  let possibleBlockBegin := sub64 stop size
  let alignedSize := add64 size (possibleBlockBegin &&& sub64 alignment 1)
  add64 alignedSize sizeofAllocatedHeader

/-- The two comparisons of `find_block` on one element. -/
def canHold (alignment size : Nat) (e : FreeHeader) : Bool :=
  add64 size sizeofAllocatedHeader ≤ e.size ∧ alignedSizeIncludingHeader alignment size e ≤ e.size

/-- The loop of `find_block`: the first element that can hold the request, with its
position and the size taken from it. -/
def findBlockFrom (alignment size : Nat) :
    List FreeHeader → Nat → Option (Nat × FreeHeader × Nat)
  | [], _ => none
  | e :: es, index =>
      if canHold alignment size e then
        some (index, e, alignedSizeIncludingHeader alignment size e)
      else findBlockFrom alignment size es (index + 1)

/-- `find_block(alignment, size)`. -/
def findBlock (b : AllocationBlock) (alignment size : Nat) :
    Option (Nat × FreeHeader × Nat) :=
  findBlockFrom alignment size b.freeElements 0

/-- `allocate(alignment, size)`: the block afterwards and, unless the request
failed, the header to write and its address. -/
def allocate (b : AllocationBlock) (alignment size : Nat) :
    AllocationBlock × Option (Nat × AllocatedHeader) :=
  if b.availableSize < size then (b, none)
  else
    match b.findBlock alignment size with
    | none => (b, none)
    | some (index, e, alignedSize) =>
        let freeBlockEnd := add64 e.start e.size
        let remainingSize := sub64 e.size alignedSize
        let headerAddress := sub64 freeBlockEnd alignedSize
        let payload := sub64 alignedSize sizeofAllocatedHeader
        if 256 ≤ remainingSize then
          ({ b with
              freeElements := b.freeElements.set index (FreeHeader.contract e alignedSize)
              availableSize := sub64 b.availableSize alignedSize },
            some (headerAddress, ⟨payload, 0, b.numaNodeId, b.id⟩))
        else
          let freeElements := b.freeElements.eraseIdx index
          -- `free_element_iterator->size()`, read after the erase
          let atIterator := freeElements[index]?.getD e
          ({ b with
              freeElements := freeElements
              availableSize := sub64 b.availableSize atIterator.size },
            some (headerAddress, ⟨payload, remainingSize % 2 ^ 16, b.numaNodeId, b.id⟩))

/-- `std::lower_bound` over the start addresses of the free elements. -/
def lowerBoundIndex (elements : List FreeHeader) (e : FreeHeader) : Nat :=
  lowerBound (fun i => (elements.getD i e).start) elements.length e.start

/-- The left merge of `free`, for an element that does not border its right neighbour. -/
def insertLeft (elements : List FreeHeader) (index : Nat) (e : FreeHeader) :
    List FreeHeader :=
  match (if 0 < index then elements[index - 1]? else none) with
  | some left =>
      if FreeHeader.borders left e then elements.set (index - 1) (FreeHeader.merge left e)
      else elements.insertIdx index e
  | none => elements.insertIdx index e

/-- The merge of a grown element with its left neighbour. -/
def mergeLeft (elements : List FreeHeader) (index : Nat) (right : FreeHeader) :
    List FreeHeader :=
  match (if 0 < index then elements[index - 1]? else none) with
  | some left =>
      if FreeHeader.borders left right then
        (elements.set (index - 1) (FreeHeader.merge left right)).eraseIdx index
      else elements
  | none => elements

/-- What `free` does to the free elements: merge to the right, to the left, to both or
to neither side. -/
def insertFree (elements : List FreeHeader) (e : FreeHeader) : List FreeHeader :=
  if elements.isEmpty then [e]
  else
    let index := lowerBoundIndex elements e
    match elements[index]? with
    | some right =>
        if FreeHeader.borders e right then
          let right := FreeHeader.merge right e
          mergeLeft (elements.set index right) index right
        else insertLeft elements index e
    | none => insertLeft elements index e

/-- The region an allocation gives back: `free` computes it from the header. -/
def regionOf (headerAddress : Nat) (header : AllocatedHeader) : FreeHeader :=
  ⟨sub64 headerAddress header.unusedSizeBeforeHeader,
    add64 (add64 header.size header.unusedSizeBeforeHeader) sizeofAllocatedHeader⟩

/-- `free(allocation_header)`. -/
def free (b : AllocationBlock) (headerAddress : Nat) (header : AllocatedHeader) :
    AllocationBlock :=
  let freeElement := regionOf headerAddress header
  { b with
    freeElements := insertFree b.freeElements freeElement
    availableSize := add64 b.availableSize freeElement.size }

/-- `is_free()`. -/
def isFree (b : AllocationBlock) : Bool :=
  b.freeElements.isEmpty ||
    (b.freeElements.length = 1 && b.freeElements.head?.any (fun e => e.size = b.size))

end AllocationBlock

end MxTasking.Memory
