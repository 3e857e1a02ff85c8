import MxTasking.Verified.TransitionSystem
import Mathlib.Algebra.Ring.Nat

/-!
# The vector

`vector.h`.  A vector owns a block of memory for `capacity()` elements, of which the first `size()`
are in use.  Blocks come from `GlobalHeap::allocate`, which gives memory that nobody else has;
a cell is `none` while it holds nothing a program may read, that is before it is written and
after its block is given back.

The size type has `w` bits, and sizes in bytes have 64.  An argument of `push_back` is a
reference, maybe to an element of a vector, and is read only after the vector has grown.

Growing doubles the capacity, also if it is 0 after a move or a `reserve(0)`, and the product
may not fit into the size type.  `Sound` says when an operation does what it does on a list.

## Main results

* `reserve_spec`, `growIfNeeded_spec` — the elements move to the new block.
* `Holds.exec` — every operation that is `Sound`.
* `refines_of_run` — any sequence of such operations does what it does on lists.
-/

namespace MxTasking.Util

/-! ## The program -/

/-- `vector`; `data` is the block, `none` for `nullptr`. -/
structure Vector where
  numaNodeId : Nat
  data : Option Nat
  currentIndex : Nat
  capacity : Nat
  deriving DecidableEq, Repr

namespace Vector

open MxTasking.Verified

/-- The blocks that are allocated, with their sizes in bytes, the elements in them, and whether an
element has been written or copied outside the capacity of a vector or its block. -/
structure Heap (T : Type*) where
  next : Nat
  bytes : Nat → Option Nat
  cells : Nat → Nat → Option T
  outOfBounds : Bool

/-- An argument: a value, or the element of a vector. -/
inductive Argument (T : Type*) where
  | value (item : T)
  | element (vector index : Nat)
  deriving DecidableEq, Repr

/-- The operations, on vectors that are variables of the program. -/
inductive Operation (T : Type*) where
  | construct (v numaNodeId n : Nat)
  | copyConstruct (v other : Nat)
  | moveConstruct (v other : Nat)
  | destroy (v : Nat)
  | copyAssign (v other : Nat)
  | moveAssign (v other : Nat)
  | reserve (v n : Nat)
  | reserveOn (v numaNodeId n : Nat)
  | pushBack (v : Nat) (item : Argument T)
  | emplaceBack (v : Nat) (item : Argument T)
  | clear (v : Nat)
  | write (v index : Nat) (item : Argument T)
  deriving DecidableEq, Repr

structure State (T : Type*) where
  vectors : Nat → Option Vector
  heap : Heap T

variable {T : Type*}

namespace Heap

/-- `allocate(numa_node_id, capacity)`, with the new block. -/
def allocate (elementSize : Nat) (h : Heap T) (capacity : Nat) : Heap T × Nat :=
  ({ h with
      next := h.next + 1
      bytes := Function.update h.bytes h.next (some (elementSize * capacity % 2 ^ 64))
      cells := Function.update h.cells h.next fun _ => none }, h.next)

/-- `release(data, capacity)`. -/
def release (h : Heap T) (block : Nat) : Heap T :=
  { h with
    bytes := Function.update h.bytes block none
    cells := Function.update h.cells block fun _ => none }

/-- The first `count` elements are inside the capacity and inside the block. -/
def inside (elementSize : Nat) (h : Heap T) (data : Option Nat) (capacity count : Nat) : Bool :=
  count = 0 || (count ≤ capacity && match data.bind h.bytes with
    | some bytes => elementSize * count ≤ bytes
    | none => false)

/-- `std::memcpy` of `count` elements between the blocks of two vectors. -/
def copy (elementSize : Nat) (h : Heap T) (target : Option Nat) (targetCapacity : Nat)
    (source : Option Nat) (sourceCapacity count : Nat) : Heap T :=
  { h with
    cells := match target, source with
      | some target, some source =>
          Function.update h.cells target fun i =>
            if i < count then h.cells source i else h.cells target i
      | _, _ => h.cells
    outOfBounds := h.outOfBounds || !h.inside elementSize target targetCapacity count ||
      !h.inside elementSize source sourceCapacity count }

/-- `_data[index] = item`. -/
def store (elementSize : Nat) (h : Heap T) (data : Option Nat) (capacity index : Nat)
    (item : Option T) : Heap T :=
  { h with
    cells := match data with
      | some block => Function.update h.cells block (Function.update (h.cells block) index item)
      | none => h.cells
    outOfBounds := h.outOfBounds || !h.inside elementSize data capacity (index + 1) }

/-- `_data[index]`. -/
def load (h : Heap T) (data : Option Nat) (index : Nat) : Option T :=
  match data with
  | some block => h.cells block index
  | none => none

end Heap

section Program

variable (w elementSize : Nat)

/-- `reserve(n)`. -/
def reserve (h : Heap T) (x : Vector) (n : Nat) : Heap T × Vector :=
  let (h, block) := h.allocate elementSize n
  let y := { x with data := some block, capacity := n }
  match x.data with
  | none => (h, y)
  | some old =>
      let h := if x.currentIndex ≠ 0 then
        h.copy elementSize y.data y.capacity x.data x.capacity x.currentIndex else h
      (h.release old, y)

/-- `grow_if_needed()`. -/
def growIfNeeded (h : Heap T) (x : Vector) : Heap T × Vector :=
  if x.capacity ≤ x.currentIndex then reserve elementSize h x (x.capacity * 2 % 2 ^ w) else (h, x)

namespace State

def set (s : State T) (v : Nat) (r : Heap T × Vector) : State T :=
  ⟨Function.update s.vectors v (some r.2), r.1⟩

/-- What an argument refers to, read in the heap `h`. -/
def argument (s : State T) (h : Heap T) : Argument T → Option T
  | .value item => some item
  | .element v index => (s.vectors v).bind fun x => h.load x.data index

/-- `push_back(item)` and `emplace_back(item)`. -/
def append (s : State T) (v : Nat) (x : Vector) (item : Argument T) : State T :=
  let (h, y) := growIfNeeded w elementSize s.heap x
  let h := h.store elementSize y.data y.capacity y.currentIndex (s.argument h item)
  s.set v (h, { y with currentIndex := (y.currentIndex + 1) % 2 ^ w })

/-- Gives the block of a vector back, if it has one. -/
def released (s : State T) (x : Vector) : State T :=
  match x.data with
  | some block => { s with heap := s.heap.release block }
  | none => s

/-- `vector(const vector &other)`, and the assignment behind the release: `other` is read after the
vector itself has been written. -/
def copyFrom (s : State T) (v : Nat) (y : Vector) (other : Nat) : State T :=
  let (h, block) := s.heap.allocate elementSize y.capacity
  let x : Vector := ⟨y.numaNodeId, some block, y.currentIndex, y.capacity⟩
  let s := s.set v (h, x)
  let source := ((s.vectors other).bind Vector.data)
  { s with heap := h.copy elementSize x.data x.capacity source y.capacity x.currentIndex }

/-- `std::exchange` of the fields of `other`. -/
def moveFrom (s : State T) (v : Nat) (y : Vector) (other : Nat) : State T :=
  { s with
    vectors := Function.update
      (Function.update s.vectors other (some ⟨y.numaNodeId, none, 0, 0⟩)) v (some y) }

/-- An operation; it is on vectors that exist. -/
def exec (s : State T) : Operation T → State T
  | .construct v numaNodeId n =>
      s.set v (Vector.reserve elementSize s.heap ⟨numaNodeId, none, 0, 0⟩ n)
  | .copyConstruct v other =>
      match s.vectors other with
      | some y => s.copyFrom elementSize v y other
      | none => s
  | .moveConstruct v other =>
      match s.vectors other with
      | some y => s.moveFrom v y other
      | none => s
  | .destroy v =>
      match s.vectors v with
      | some x =>
          { s.released x with vectors := Function.update s.vectors v none }
      | none => s
  | .copyAssign v other =>
      match s.vectors v, s.vectors other with
      | some x, some y => (s.released x).copyFrom elementSize v y other
      | _, _ => s
  | .moveAssign v other =>
      match s.vectors v, s.vectors other with
      | some x, some y => (s.released x).moveFrom v y other
      | _, _ => s
  | .reserve v n =>
      match s.vectors v with
      | some x => s.set v (Vector.reserve elementSize s.heap x n)
      | none => s
  | .reserveOn v numaNodeId n =>
      match s.vectors v with
      | some x => s.set v (Vector.reserve elementSize s.heap { x with numaNodeId := numaNodeId } n)
      | none => s
  | .pushBack v item =>
      match s.vectors v with
      | some x => s.append w elementSize v x item
      | none => s
  | .emplaceBack v item =>
      match s.vectors v with
      | some x => s.append w elementSize v x item
      | none => s
  | .clear v =>
      match s.vectors v with
      | some x => s.set v (s.heap, { x with currentIndex := 0 })
      | none => s
  | .write v index item =>
      match s.vectors v with
      | some x =>
          s.set v (s.heap.store elementSize x.data x.capacity index (s.argument s.heap item), x)
      | none => s

end State

end Program

/-! ## The list model -/

/-- The variables as lists. -/
structure Lists (T : Type*) where
  lists : Nat → Option (List T)

namespace Lists

def set (l : Lists T) (v : Nat) (xs : List T) : Lists T := ⟨Function.update l.lists v (some xs)⟩

def get (l : Lists T) (v : Nat) : List T := (l.lists v).getD []

def argument (l : Lists T) : Argument T → Option T
  | .value item => some item
  | .element v index => (l.get v)[index]?

def exec (l : Lists T) : Operation T → Lists T
  | .construct v _ _ => l.set v []
  | .copyConstruct v other => l.set v (l.get other)
  | .moveConstruct v other => (l.set other []).set v (l.get other)
  | .destroy v => ⟨Function.update l.lists v none⟩
  | .copyAssign v other => l.set v (l.get other)
  | .moveAssign v other => (l.set other []).set v (l.get other)
  | .reserve _ _ => l
  | .reserveOn _ _ _ => l
  | .pushBack v item => l.set v (l.get v ++ (l.argument item).toList)
  | .emplaceBack v item => l.set v (l.get v ++ (l.argument item).toList)
  | .clear v => l.set v []
  | .write v index item => l.set v <|
      match l.argument item with
      | some item => (l.get v).set index item
      | none => l.get v

end Lists

/-! ## What the operations promise -/

/-- An argument that is an element is one of the first `size()`. -/
def Argument.Valid (s : State T) : Argument T → Prop
  | .value _ => True
  | .element v index => ∃ x, s.vectors v = some x ∧ index < x.currentIndex

/-- The operations a program may do: on vectors that exist, with indices below `size()`, and
`reserve(n)` for at least `size()` elements. -/
def Allowed (w : Nat) (s : State T) : Operation T → Prop
  | .construct v _ n => s.vectors v = none ∧ n < 2 ^ w
  | .copyConstruct v other => s.vectors v = none ∧ s.vectors other ≠ none
  | .moveConstruct v other => s.vectors v = none ∧ s.vectors other ≠ none
  | .destroy v => s.vectors v ≠ none
  | .copyAssign v other => s.vectors v ≠ none ∧ s.vectors other ≠ none
  | .moveAssign v other => s.vectors v ≠ none ∧ s.vectors other ≠ none
  | .reserve v n => ∃ x, s.vectors v = some x ∧ x.currentIndex ≤ n ∧ n < 2 ^ w
  | .reserveOn v _ n => ∃ x, s.vectors v = some x ∧ x.currentIndex ≤ n ∧ n < 2 ^ w
  | .pushBack v item => s.vectors v ≠ none ∧ item.Valid s
  | .emplaceBack v item => s.vectors v ≠ none ∧ item.Valid s
  | .clear v => s.vectors v ≠ none
  | .write v index item => (∃ x, s.vectors v = some x ∧ index < x.currentIndex) ∧ item.Valid s

/-- A vector can take one more element: it has room, or its capacity can be doubled and the element
is not one of its own. -/
def CanAppend (w elementSize v : Nat) (s : State T) (item : Argument T) : Prop :=
  ∀ x, s.vectors v = some x → x.currentIndex < x.capacity ∨
    (0 < x.capacity ∧ x.capacity * 2 < 2 ^ w ∧ elementSize * (x.capacity * 2) < 2 ^ 64 ∧
      ∀ index, item ≠ .element v index)

/-- When an operation does what it does on a list: sizes in bytes fit into 64 bits, a full vector
can grow, and nothing is assigned to itself. -/
def Sound (w elementSize : Nat) (s : State T) : Operation T → Prop
  | .construct _ _ n => elementSize * n < 2 ^ 64
  | .reserve _ n => elementSize * n < 2 ^ 64
  | .reserveOn _ _ n => elementSize * n < 2 ^ 64
  | .copyAssign v other => v = other → ∀ x, s.vectors v = some x → x.currentIndex = 0
  | .moveAssign v other => v = other → ∀ x, s.vectors v = some x → x.data = none
  | .pushBack v item => CanAppend w elementSize v s item
  | .emplaceBack v item => CanAppend w elementSize v s item
  | _ => True

/-- One operation, on the vectors and on the lists. -/
inductive Step (w elementSize : Nat) :
    State T × Lists T → Operation T → State T × Lists T → Prop where
  | mk {s : State T} {l : Lists T} {op : Operation T} (hAllowed : Allowed w s op) :
      Step w elementSize (s, l) op (s.exec w elementSize op, l.exec op)

def initial : State T × Lists T :=
  (⟨fun _ => none, ⟨0, fun _ => none, fun _ _ => none, false⟩⟩, ⟨fun _ => none⟩)

/-- The vectors have the elements of the lists, stay inside their capacity, and no element
has been written or copied outside. -/
structure Refines (s : State T) (l : Lists T) : Prop where
  exists_iff : ∀ v, (s.vectors v).isSome = (l.lists v).isSome
  size : ∀ v x, s.vectors v = some x → x.currentIndex = (l.get v).length
  elements : ∀ v x i, s.vectors v = some x → i < x.currentIndex →
    s.heap.load x.data i = (l.get v)[i]?
  capacity : ∀ v x, s.vectors v = some x → x.currentIndex ≤ x.capacity
  inBounds : s.heap.outOfBounds = false

/-! ## The invariant -/

/-- The vector `x` has the elements `xs`. -/
structure Owns (w elementSize : Nat) (h : Heap T) (x : Vector) (xs : List T) : Prop where
  length : x.currentIndex = xs.length
  length_le : xs.length ≤ x.capacity
  capacity_lt : x.capacity < 2 ^ w
  bytes_lt : elementSize * x.capacity < 2 ^ 64
  data : x.data = none → x.capacity = 0
  block : ∀ b, x.data = some b → b < h.next ∧ h.bytes b = some (elementSize * x.capacity)
  element : ∀ i, i < xs.length → h.load x.data i = xs[i]?

/-- The vectors in the scope have the elements of their lists, each in a block of its own. -/
structure Holds (w elementSize : Nat) (scope : Nat → Prop) (s : State T) (l : Lists T) : Prop where
  vector : ∀ v x, scope v → s.vectors v = some x →
    ∃ xs, l.lists v = some xs ∧ Owns w elementSize s.heap x xs
  absent : ∀ v, scope v → s.vectors v = none → l.lists v = none
  distinct : ∀ v v' x x' b, scope v → scope v' → s.vectors v = some x → s.vectors v' = some x' →
    x.data = some b → x'.data = some b → v = v'
  inBounds : s.heap.outOfBounds = false

/-- A block is as it was. -/
def Kept (h h' : Heap T) (b : Nat) : Prop := h'.bytes b = h.bytes b ∧ h'.cells b = h.cells b

section Invariant

variable {w elementSize : Nat} {h h' : Heap T} {x : Vector} {xs : List T}

theorem Owns.empty (numaNodeId : Nat) : Owns w elementSize h ⟨numaNodeId, none, 0, 0⟩ [] where
  length := rfl
  length_le := Nat.le_refl 0
  capacity_lt := Nat.two_pow_pos w
  bytes_lt := by rw [Nat.mul_zero]; decide
  data := fun _ => rfl
  block := nofun
  element := nofun

/-- A heap that keeps its block keeps the vector. -/
theorem Owns.frame (h' : Heap T) (hOwns : Owns w elementSize h x xs) (hNext : h.next ≤ h'.next)
    (hKept : ∀ b, x.data = some b → Kept h h' b) : Owns w elementSize h' x xs := by
  refine ⟨hOwns.length, hOwns.length_le, hOwns.capacity_lt, hOwns.bytes_lt, hOwns.data,
    fun b hb => ?_, fun i hi => ?_⟩
  · obtain ⟨hlt, hBytes⟩ := hOwns.block b hb
    exact ⟨Nat.lt_of_lt_of_le hlt hNext, (hKept b hb).1.trans hBytes⟩
  · rw [← hOwns.element i hi]
    cases hData : x.data with
    | none => rfl
    | some b =>
        show h'.cells b i = h.cells b i
        rw [(hKept b hData).2]

/-- Elements that a vector has are inside its block. -/
theorem Owns.inside (hOwns : Owns w elementSize h x xs) (count : Nat)
    (hCount : count ≤ x.capacity) : h.inside elementSize x.data x.capacity count = true := by
  unfold Heap.inside
  by_cases hZero : count = 0
  · simp [hZero]
  · cases hData : x.data with
    | none =>
        have hNone := hOwns.data hData
        omega
    | some b =>
        have hBytes := (hOwns.block b hData).2
        simp only [Option.bind_some, hBytes, Bool.or_eq_true, Bool.and_eq_true, decide_eq_true_eq]
        exact Or.inr ⟨hCount, Nat.mul_le_mul_left _ hCount⟩

/-! ### Memory -/

/-- A block of `n` elements that is still empty. -/
theorem allocate_owns {n : Nat} (numaNodeId : Nat) (hSize : n < 2 ^ w)
    (hBytes : elementSize * n < 2 ^ 64) :
    Owns w elementSize (h.allocate elementSize n).1 ⟨numaNodeId, some h.next, 0, n⟩ [] where
  length := rfl
  length_le := Nat.zero_le n
  capacity_lt := hSize
  bytes_lt := hBytes
  data := nofun
  block := by
    intro b hb
    obtain rfl : h.next = b := Option.some.inj hb
    refine ⟨Nat.lt_succ_self _, ?_⟩
    show Function.update h.bytes h.next _ h.next = _
    rw [Function.update_self, Nat.mod_eq_of_lt hBytes]
  element := nofun

theorem allocate_kept {n b : Nat} (hb : b < h.next) : Kept h (h.allocate elementSize n).1 b := by
  have hne : b ≠ h.next := Nat.ne_of_lt hb
  exact ⟨Function.update_of_ne hne _ _, Function.update_of_ne hne _ _⟩

theorem release_kept {block b : Nat} (hne : b ≠ block) : Kept h (h.release block) b :=
  ⟨Function.update_of_ne hne _ _, Function.update_of_ne hne _ _⟩

theorem Kept.trans {h'' : Heap T} {b : Nat} (h₁ : Kept h h' b) (h₂ : Kept h' h'' b) :
    Kept h h'' b :=
  ⟨h₂.1.trans h₁.1, h₂.2.trans h₁.2⟩

/-- Only the block that is copied to changes. -/
theorem copy_kept {b target targetCapacity sourceCapacity count : Nat} {source : Option Nat}
    (hne : b ≠ target) :
    Kept h (h.copy elementSize (some target) targetCapacity source sourceCapacity count) b := by
  refine ⟨rfl, ?_⟩
  cases source with
  | none => rfl
  | some source => exact Function.update_of_ne hne _ _

/-- The elements of a vector are copied to the block of an empty one. -/
theorem copy_owns {y : Vector} {ys : List T} {target : Nat} (hData : x.data = some target)
    (hEmpty : Owns w elementSize h x []) (hOther : Owns w elementSize h y ys)
    (hRoom : ys.length ≤ x.capacity) :
    Owns w elementSize
      (h.copy elementSize x.data x.capacity y.data y.capacity y.currentIndex)
      { x with currentIndex := y.currentIndex } ys := by
  refine ⟨hOther.length, hRoom, hEmpty.capacity_lt, hEmpty.bytes_lt, hEmpty.data, hEmpty.block,
    fun i hi => ?_⟩
  cases hSource : y.data with
  | none =>
      have hZero := hOther.data hSource
      have hLe := hOther.length_le
      omega
  | some source =>
      rw [← hOther.element i hi, hSource, hData]
      show Function.update h.cells target _ target i = h.cells source i
      rw [Function.update_self, if_pos (by rw [hOther.length]; exact hi)]

theorem copy_inBounds {y : Vector} {ys : List T} (hEmpty : Owns w elementSize h x [])
    (hOther : Owns w elementSize h y ys) (hRoom : ys.length ≤ x.capacity)
    (hBounds : h.outOfBounds = false) :
    (h.copy elementSize x.data x.capacity y.data y.capacity y.currentIndex).outOfBounds =
      false := by
  have hTarget := hEmpty.inside y.currentIndex (by rw [hOther.length]; exact hRoom)
  have hSource := hOther.inside y.currentIndex
    (by rw [hOther.length]; exact hOther.length_le)
  simp only [Heap.copy, hBounds, hTarget, hSource]
  rfl

/-- What `reserve(n)` leaves: the elements in a new block of `n`. -/
structure Reserved (w elementSize : Nat) (h : Heap T) (x : Vector) (n : Nat) (xs : List T)
    (r : Heap T × Vector) : Prop where
  owns : Owns w elementSize r.1 r.2 xs
  data : r.2.data = some h.next
  capacity : r.2.capacity = n
  next : h.next ≤ r.1.next
  inBounds : r.1.outOfBounds = false
  kept : ∀ b < h.next, x.data ≠ some b → Kept h r.1 b

theorem reserve_spec {n : Nat} (hOwns : Owns w elementSize h x xs) (hBounds : h.outOfBounds = false)
    (hRoom : xs.length ≤ n) (hSize : n < 2 ^ w) (hBytes : elementSize * n < 2 ^ 64) :
    Reserved w elementSize h x n xs (reserve elementSize h x n) := by
  have hEmpty := allocate_owns (h := h) x.numaNodeId hSize hBytes
  have hLength := hOwns.length
  have hOld := hOwns.frame (h.allocate elementSize n).1 (Nat.le_succ _)
    fun b hb => allocate_kept (hOwns.block b hb).1
  cases hData : x.data with
  | none =>
      have hZero := hOwns.data hData
      have hNil : xs = [] := List.eq_nil_of_length_eq_zero (by have := hOwns.length_le; omega)
      have hReserve : reserve elementSize h x n =
          ((h.allocate elementSize n).1, ⟨x.numaNodeId, some h.next, 0, n⟩) := by
        rw [hNil, List.length_nil] at hLength
        simp only [reserve, hData, hLength]
        rfl
      rw [hReserve, hNil]
      exact ⟨hEmpty, rfl, rfl, Nat.le_succ _, hBounds, fun b hb _ => allocate_kept hb⟩
  | some old =>
      have hBlock := (hOwns.block old hData).1
      have hNew : h.next ≠ old := by omega
      by_cases hZero : x.currentIndex = 0
      · have hNil : xs = [] := List.eq_nil_of_length_eq_zero (by omega)
        have hReserve : reserve elementSize h x n =
            ((h.allocate elementSize n).1.release old, ⟨x.numaNodeId, some h.next, 0, n⟩) := by
          simp only [reserve, hData, hZero, ne_eq, not_true_eq_false, if_false]
          rfl
        rw [hReserve, hNil]
        refine ⟨hEmpty.frame _ (Nat.le_refl _) fun b hb => ?_, rfl, rfl, Nat.le_succ _, hBounds,
          fun b hb hne => ?_⟩
        · obtain rfl : h.next = b := Option.some.inj hb
          exact release_kept hNew
        · exact (allocate_kept hb).trans (release_kept fun hSame => hne (hSame ▸ hData))
      · have hReserve : reserve elementSize h x n =
            (((h.allocate elementSize n).1.copy elementSize (some h.next) n x.data x.capacity
              x.currentIndex).release old, ⟨x.numaNodeId, some h.next, x.currentIndex, n⟩) := by
          simp only [reserve, hData, ne_eq, hZero, not_false_eq_true, if_true]
          rfl
        rw [hReserve]
        have hCopied := copy_owns rfl hEmpty hOld hRoom
        refine ⟨hCopied.frame _ (Nat.le_refl _) fun b hb => ?_, rfl, rfl, Nat.le_succ _,
          copy_inBounds hEmpty hOld hRoom hBounds, fun b hb hne => ?_⟩
        · obtain rfl : h.next = b := Option.some.inj hb
          exact release_kept hNew
        · exact ((allocate_kept hb).trans (copy_kept (Nat.ne_of_lt hb))).trans
            (release_kept fun hSame => hne (hSame ▸ hData))

/-- A vector with room after `grow_if_needed()`. -/
theorem growIfNeeded_spec (hOwns : Owns w elementSize h x xs) (hBounds : h.outOfBounds = false)
    (hGrow : x.currentIndex < x.capacity ∨
      (0 < x.capacity ∧ x.capacity * 2 < 2 ^ w ∧ elementSize * (x.capacity * 2) < 2 ^ 64)) :
    (growIfNeeded w elementSize h x = (h, x) ∧ xs.length < x.capacity) ∨
    (Reserved w elementSize h x (x.capacity * 2) xs (growIfNeeded w elementSize h x) ∧
      xs.length < x.capacity * 2 ∧ x.capacity ≤ x.currentIndex) := by
  have hLength := hOwns.length
  have hLe := hOwns.length_le
  unfold growIfNeeded
  by_cases hFull : x.capacity ≤ x.currentIndex
  · rcases hGrow with hRoom | ⟨hPos, hSize, hBytes⟩
    · omega
    · rw [if_pos hFull, Nat.mod_eq_of_lt hSize]
      exact Or.inr ⟨reserve_spec hOwns hBounds (by omega) hSize hBytes, by omega, hFull⟩
  · rw [if_neg hFull]
    exact Or.inl ⟨rfl, by omega⟩

/-- An element is written behind the last one. -/
theorem store_owns {item : T} (hOwns : Owns w elementSize h x xs) (hRoom : xs.length < x.capacity) :
    Owns w elementSize (h.store elementSize x.data x.capacity x.currentIndex (some item))
      { x with currentIndex := (x.currentIndex + 1) % 2 ^ w } (xs ++ [item]) := by
  have hLength := hOwns.length
  have hCapacity := hOwns.capacity_lt
  refine ⟨?_, ?_, hCapacity, hOwns.bytes_lt, hOwns.data, hOwns.block, fun i hi => ?_⟩
  · rw [List.length_append, List.length_singleton, ← hLength, Nat.mod_eq_of_lt (by omega)]
  · rw [List.length_append, List.length_singleton]
    exact hRoom
  · cases hData : x.data with
    | none =>
        have hZero := hOwns.data hData
        omega
    | some b =>
        show Function.update h.cells b (Function.update (h.cells b) x.currentIndex (some item)) b i
          = _
        rw [Function.update_self]
        by_cases hLast : i = x.currentIndex
        · rw [hLast, Function.update_self, hLength, List.getElem?_concat_length]
        · rw [List.length_append, List.length_singleton] at hi
          have hlt : i < xs.length := by omega
          have hOld := hOwns.element i hlt
          rw [hData] at hOld
          rw [Function.update_of_ne hLast, List.getElem?_append_left hlt]
          exact hOld

/-- An element is overwritten. -/
theorem store_set_owns {item : T} {index : Nat} (hOwns : Owns w elementSize h x xs)
    (hIndex : index < xs.length) :
    Owns w elementSize (h.store elementSize x.data x.capacity index (some item)) x
      (xs.set index item) := by
  have hLe := hOwns.length_le
  refine ⟨?_, ?_, hOwns.capacity_lt, hOwns.bytes_lt, hOwns.data, hOwns.block, fun i hi => ?_⟩
  · rw [List.length_set]
    exact hOwns.length
  · rw [List.length_set]
    exact hLe
  · rw [List.length_set] at hi
    cases hData : x.data with
    | none =>
        have hZero := hOwns.data hData
        omega
    | some b =>
        show Function.update h.cells b (Function.update (h.cells b) index (some item)) b i = _
        rw [Function.update_self]
        by_cases hEq : i = index
        · rw [hEq, Function.update_self, List.getElem?_set_self hIndex]
        · have hOld := hOwns.element i hi
          rw [hData] at hOld
          rw [Function.update_of_ne hEq, List.getElem?_set_ne (Ne.symm hEq)]
          exact hOld

theorem store_inBounds {item : Option T} {index : Nat} (hOwns : Owns w elementSize h x xs)
    (hIndex : index < x.capacity) (hBounds : h.outOfBounds = false) :
    (h.store elementSize x.data x.capacity index item).outOfBounds = false := by
  have hInside := hOwns.inside (index + 1) hIndex
  simp only [Heap.store, hBounds, hInside]
  rfl

theorem store_kept {item : Option T} {b capacity index : Nat} {data : Option Nat}
    (hne : data ≠ some b) : Kept h (h.store elementSize data capacity index item) b := by
  refine ⟨rfl, ?_⟩
  cases data with
  | none => rfl
  | some block =>
      have hBlock : b ≠ block := fun hSame => hne (congrArg some hSame.symm)
      exact Function.update_of_ne hBlock _ _

end Invariant

namespace Holds

variable {w elementSize v : Nat} {scope : Nat → Prop} {s : State T} {l : Lists T} {x : Vector}
  {xs : List T}

theorem initial (w elementSize : Nat) :
    Holds w elementSize (fun _ => True) (initial : State T × Lists T).1 initial.2 where
  vector := by
    intro v x _ hx
    cases hx
  absent := fun _ _ _ => rfl
  distinct := by
    intro v v' x x' b _ _ hx
    cases hx
  inBounds := rfl

theorem mono {scope' : Nat → Prop} (h : Holds w elementSize scope s l)
    (hScope : ∀ v, scope' v → scope v) : Holds w elementSize scope' s l :=
  ⟨fun v x hv => h.vector v x (hScope v hv), fun v hv => h.absent v (hScope v hv),
    fun v v' x x' b hv hv' => h.distinct v v' x x' b (hScope v hv) (hScope v' hv'), h.inBounds⟩

/-- A variable gets a vector with the elements of its list; the blocks of the others stay as
they are, and it has none of them. -/
theorem set {r : Heap T × Vector} (h : Holds w elementSize (fun u => scope u ∧ u ≠ v) s l)
    (hOwns : Owns w elementSize r.1 r.2 xs) (hNext : s.heap.next ≤ r.1.next)
    (hBounds : r.1.outOfBounds = false)
    (hOther : ∀ u y b, scope u → u ≠ v → s.vectors u = some y → y.data = some b →
      r.2.data ≠ some b ∧ Kept s.heap r.1 b) :
    Holds w elementSize scope (s.set v r) (l.set v xs) := by
  have hVector {u : Nat} (hu : u ≠ v) : (s.set v r).vectors u = s.vectors u :=
    Function.update_of_ne hu _ _
  have hSelf : (s.set v r).vectors v = some r.2 := Function.update_self ..
  refine ⟨fun u y hu hy => ?_, fun u hu hNone => ?_, fun u u' y y' b hu hu' hy hy' hb hb' => ?_,
    hBounds⟩
  · by_cases hEq : u = v
    · subst hEq
      obtain rfl : r.2 = y := Option.some.inj (hSelf.symm.trans hy)
      exact ⟨xs, Function.update_self .., hOwns⟩
    · rw [hVector hEq] at hy
      obtain ⟨ys, hList, hOld⟩ := h.vector u y ⟨hu, hEq⟩ hy
      refine ⟨ys, (Function.update_of_ne hEq _ _).trans hList, hOld.frame _ hNext fun b hb => ?_⟩
      exact (hOther u y b hu hEq hy hb).2
  · by_cases hEq : u = v
    · subst hEq
      exact absurd (hSelf.symm.trans hNone) nofun
    · rw [hVector hEq] at hNone
      exact (Function.update_of_ne hEq _ _).trans (h.absent u ⟨hu, hEq⟩ hNone)
  · by_cases hEq : u = v <;> by_cases hEq' : u' = v
    · rw [hEq, hEq']
    · subst hEq
      obtain rfl : r.2 = y := Option.some.inj (hSelf.symm.trans hy)
      rw [hVector hEq'] at hy'
      exact absurd hb (hOther u' y' b hu' hEq' hy' hb').1
    · subst hEq'
      obtain rfl : r.2 = y' := Option.some.inj (hSelf.symm.trans hy')
      rw [hVector hEq] at hy
      exact absurd hb' (hOther u y b hu hEq hy hb).1
    · rw [hVector hEq] at hy
      rw [hVector hEq'] at hy'
      exact h.distinct u u' y y' b ⟨hu, hEq⟩ ⟨hu', hEq'⟩ hy hy' hb hb'

/-- The list of a vector. -/
theorem owns (h : Holds w elementSize scope s l) (hv : scope v) (hx : s.vectors v = some x) :
    Owns w elementSize s.heap x (l.get v) := by
  obtain ⟨xs, hList, hOwns⟩ := h.vector v x hv hx
  rw [Lists.get, hList]
  exact hOwns

/-- A list stays as it is. -/
theorem set_get (h : Holds w elementSize scope s l) (hv : scope v) (hx : s.vectors v = some x) :
    l.set v (l.get v) = l := by
  obtain ⟨xs, hList, -⟩ := h.vector v x hv hx
  rw [Lists.set, Lists.get, hList, Option.getD_some, ← hList, Function.update_eq_self]

/-- The block of another vector is older than a new one, and not the one of this vector. -/
theorem other_block (h : Holds w elementSize scope s l) {u b : Nat} {y : Vector} (hu : scope u)
    (hy : s.vectors u = some y) (hb : y.data = some b) : b < s.heap.next := by
  obtain ⟨ys, -, hOwns⟩ := h.vector u y hu hy
  exact (hOwns.block b hb).1

theorem other_data (h : Holds w elementSize (fun _ => True) s l) (hx : s.vectors v = some x)
    {u b : Nat} {y : Vector} (hu : u ≠ v) (hy : s.vectors u = some y) (hb : y.data = some b) :
    x.data ≠ some b :=
  fun hSame => hu (h.distinct u v y x b trivial trivial hy hx hb hSame)

/-! ### The operations -/

/-- `reserve`, of a vector that may still be under construction. -/
theorem reserve {n : Nat} (h : Holds w elementSize (fun u => True ∧ u ≠ v) s l)
    (hOwns : Owns w elementSize s.heap x xs) (hRoom : xs.length ≤ n) (hSize : n < 2 ^ w)
    (hBytes : elementSize * n < 2 ^ 64)
    (hOther : ∀ u y b, u ≠ v → s.vectors u = some y → y.data = some b → x.data ≠ some b) :
    Holds w elementSize (fun _ => True) (s.set v (Vector.reserve elementSize s.heap x n))
      (l.set v xs) := by
  have hReserved := reserve_spec hOwns h.inBounds hRoom hSize hBytes
  refine h.set hReserved.owns hReserved.next hReserved.inBounds fun u y b _ hu hy hb => ?_
  have hlt := h.other_block ⟨trivial, hu⟩ hy hb
  refine ⟨?_, hReserved.kept b hlt (hOther u y b hu hy hb)⟩
  rw [hReserved.data]
  intro hSame
  have hEq := Option.some.inj hSame
  omega

/-- `reserve(numa_node_id, n)` of a vector that is there. -/
theorem reserveOn {n : Nat} (h : Holds w elementSize (fun _ => True) s l)
    (hx : s.vectors v = some x) (numaNodeId : Nat) (hRoom : x.currentIndex ≤ n)
    (hSize : n < 2 ^ w) (hBytes : elementSize * n < 2 ^ 64) :
    Holds w elementSize (fun _ => True)
      (s.set v (Vector.reserve elementSize s.heap { x with numaNodeId := numaNodeId } n)) l := by
  have hOwns := h.owns trivial hx
  have hMoved : Owns w elementSize s.heap { x with numaNodeId := numaNodeId } (l.get v) :=
    ⟨hOwns.length, hOwns.length_le, hOwns.capacity_lt, hOwns.bytes_lt, hOwns.data, hOwns.block,
      hOwns.element⟩
  rw [hOwns.length] at hRoom
  have hReserved := (h.mono fun _ _ => trivial).reserve (v := v) hMoved hRoom hSize hBytes
    fun u y b hu hy hb => h.other_data hx hu hy hb
  rw [h.set_get trivial hx] at hReserved
  exact hReserved

/-- The value of an argument is the one in the lists, also after other vectors have changed. -/
theorem argument_eq (h' : Heap T) {item : Argument T} (h : Holds w elementSize (fun _ => True) s l)
    (hValid : item.Valid s)
    (hKept : ∀ u index y b, item = .element u index → s.vectors u = some y → y.data = some b →
      h'.cells b = s.heap.cells b) : ∃ value, s.argument h' item = some value ∧
        l.argument item = some value := by
  cases item with
  | value item => exact ⟨item, rfl, rfl⟩
  | element u index =>
      obtain ⟨y, hy, hIndex⟩ := hValid
      have hOwns := h.owns trivial hy
      rw [hOwns.length] at hIndex
      have hElement := hOwns.element index hIndex
      have hSome : (l.get u)[index]? = some ((l.get u).get ⟨index, hIndex⟩) :=
        List.getElem?_eq_getElem hIndex
      refine ⟨_, ?_, hSome⟩
      show (s.vectors u).bind (fun x => h'.load x.data index) = _
      rw [hy, Option.bind_some, ← hSome, ← hElement]
      cases hData : y.data with
      | none => rfl
      | some b =>
          show h'.cells b index = s.heap.cells b index
          rw [hKept u index y b rfl hy hData]

/-- `push_back` and `emplace_back`. -/
theorem append {item : Argument T} (h : Holds w elementSize (fun _ => True) s l)
    (hx : s.vectors v = some x) (hValid : item.Valid s)
    (hSound : CanAppend w elementSize v s item) :
    Holds w elementSize (fun _ => True) (s.append w elementSize v x item)
      (l.set v (l.get v ++ (l.argument item).toList)) := by
  have hOwns := h.owns trivial hx
  have hSome := hSound x hx
  have hGrow := growIfNeeded_spec hOwns h.inBounds (hSome.imp_right fun hMore =>
    ⟨hMore.1, hMore.2.1, hMore.2.2.1⟩)
  unfold State.append
  rcases hGrow with ⟨hSame, hRoom⟩ | ⟨hReserved, hRoom, hFull⟩
  · obtain ⟨value, hValue, hList⟩ := h.argument_eq s.heap hValid fun _ _ _ _ _ _ _ => rfl
    rw [hSame, hList]
    simp only [hValue]
    refine (h.mono fun _ _ => trivial).set (store_owns hOwns hRoom) (Nat.le_refl _)
      (store_inBounds hOwns (hOwns.length ▸ hRoom) h.inBounds) fun u y b _ hu hy hb => ?_
    have hne := h.other_data hx hu hy hb
    exact ⟨hne, store_kept hne⟩
  · have hNotOwn : ∀ index, item ≠ .element v index := by
      rcases hSome with hRoom' | ⟨-, -, -, hNotOwn⟩
      · omega
      · exact hNotOwn
    obtain ⟨value, hValue, hList⟩ := h.argument_eq
      (growIfNeeded w elementSize s.heap x).1 hValid fun u index y b hItem hy hb => by
        have hu : u ≠ v := fun hSame => hNotOwn index (hSame ▸ hItem)
        exact (hReserved.kept b (h.other_block trivial hy hb) (h.other_data hx hu hy hb)).2
    rw [hList]
    simp only [hValue]
    have hCapacity := hReserved.capacity
    have hOwns' := hReserved.owns
    refine (h.mono fun _ _ => trivial).set (store_owns hOwns' (hCapacity ▸ hRoom)) hReserved.next
      (store_inBounds hOwns' (by rw [hOwns'.length, hCapacity]; exact hRoom) hReserved.inBounds)
      fun u y b _ hu hy hb => ?_
    have hlt := h.other_block trivial hy hb
    have hne : (growIfNeeded w elementSize s.heap x).2.data ≠ some b := by
      rw [hReserved.data]
      intro hSame
      have hEq := Option.some.inj hSame
      omega
    exact ⟨hne, (hReserved.kept b hlt (h.other_data hx hu hy hb)).trans (store_kept hne)⟩

/-- `vector[index] = item`. -/
theorem write {item : Argument T} {index : Nat} (h : Holds w elementSize (fun _ => True) s l)
    (hx : s.vectors v = some x) (hIndex : index < x.currentIndex) (hValid : item.Valid s) :
    Holds w elementSize (fun _ => True)
      (s.set v (s.heap.store elementSize x.data x.capacity index (s.argument s.heap item), x))
      (l.set v <| match l.argument item with
        | some item => (l.get v).set index item
        | none => l.get v) := by
  have hOwns := h.owns trivial hx
  have hLe := hOwns.length_le
  rw [hOwns.length] at hIndex
  obtain ⟨value, hValue, hList⟩ := h.argument_eq s.heap hValid fun _ _ _ _ _ _ _ => rfl
  rw [hValue, hList]
  refine (h.mono fun _ _ => trivial).set (store_set_owns hOwns hIndex) (Nat.le_refl _)
    (store_inBounds hOwns (by omega) h.inBounds) fun u y b _ hu hy hb => ?_
  have hne := h.other_data hx hu hy hb
  exact ⟨hne, store_kept hne⟩

theorem clear (h : Holds w elementSize (fun _ => True) s l) (hx : s.vectors v = some x) :
    Holds w elementSize (fun _ => True) (s.set v (s.heap, { x with currentIndex := 0 }))
      (l.set v []) := by
  have hOwns := h.owns trivial hx
  refine (h.mono fun _ _ => trivial).set ⟨rfl, Nat.zero_le _, hOwns.capacity_lt, hOwns.bytes_lt,
    hOwns.data, hOwns.block, nofun⟩ (Nat.le_refl _) h.inBounds fun u y b _ hu hy hb => ?_
  exact ⟨h.other_data hx hu hy hb, rfl, rfl⟩

/-- The block of a vector is given back; the other vectors have blocks of their own. -/
theorem released (h : Holds w elementSize (fun _ => True) s l) (hx : s.vectors v = some x) :
    Holds w elementSize (fun u => True ∧ u ≠ v) (s.released x) l := by
  cases hData : x.data with
  | none =>
      have hSame : s.released x = s := by simp only [State.released, hData]
      rw [hSame]
      exact h.mono fun _ _ => trivial
  | some block =>
      have hReleased : s.released x = { s with heap := s.heap.release block } := by
        simp only [State.released, hData]
      rw [hReleased]
      refine ⟨fun u y hu hy => ?_, fun u _ hNone => h.absent u trivial hNone,
        fun u u' y y' b _ _ => h.distinct u u' y y' b trivial trivial, h.inBounds⟩
      obtain ⟨ys, hList, hOwns⟩ := h.vector u y trivial hy
      refine ⟨ys, hList, hOwns.frame _ (Nat.le_refl _) fun b hb => release_kept fun hSame => ?_⟩
      exact h.other_data hx hu.2 hy hb (hSame ▸ hData)

theorem released_vectors (s : State T) (x : Vector) : (s.released x).vectors = s.vectors := by
  cases hData : x.data with
  | none => simp only [State.released, hData]
  | some block => simp only [State.released, hData]

theorem destroy (h : Holds w elementSize (fun u => True ∧ u ≠ v) s l) :
    Holds w elementSize (fun _ => True)
      { s with vectors := Function.update s.vectors v none }
      ⟨Function.update l.lists v none⟩ := by
  have hOther {u : Nat} {y : Vector} (hy : Function.update s.vectors v none u = some y) :
      u ≠ v ∧ s.vectors u = some y := by
    by_cases hEq : u = v
    · subst hEq
      rw [Function.update_self] at hy
      cases hy
    · rw [Function.update_of_ne hEq] at hy
      exact ⟨hEq, hy⟩
  refine ⟨fun u y _ hy => ?_, fun u _ hNone => ?_, fun u u' y y' b _ _ hy hy' => ?_, h.inBounds⟩
  · obtain ⟨hu, hOld⟩ := hOther hy
    obtain ⟨ys, hList, hOwns⟩ := h.vector u y ⟨trivial, hu⟩ hOld
    exact ⟨ys, (Function.update_of_ne hu _ _).trans hList, hOwns⟩
  · show Function.update l.lists v none u = none
    by_cases hEq : u = v
    · subst hEq
      exact Function.update_self ..
    · rw [Function.update_of_ne hEq]
      refine h.absent u ⟨trivial, hEq⟩ ?_
      exact (Function.update_of_ne hEq _ _).symm.trans hNone
  · obtain ⟨hu, hOld⟩ := hOther hy
    obtain ⟨hu', hOld'⟩ := hOther hy'
    exact h.distinct u u' y y' b ⟨trivial, hu⟩ ⟨trivial, hu'⟩ hOld hOld'

/-- A vector becomes a copy of another one, or of itself if it is empty. -/
theorem copyFrom {other : Nat} {y : Vector} {ys : List T}
    (h : Holds w elementSize (fun u => True ∧ u ≠ v) s l)
    (hOther : (other ≠ v ∧ s.vectors other = some y ∧ Owns w elementSize s.heap y ys) ∨
      (other = v ∧ y.currentIndex = 0 ∧ ys = [] ∧ y.capacity < 2 ^ w ∧
        elementSize * y.capacity < 2 ^ 64)) :
    Holds w elementSize (fun _ => True) (s.copyFrom elementSize v y other) (l.set v ys) := by
  have hBlocks (u : Nat) (z : Vector) (b : Nat) (hu : u ≠ v) (hz : s.vectors u = some z)
      (hb : z.data = some b) (target targetCapacity sourceCapacity count : Nat)
      (source : Option Nat) (hTarget : target = s.heap.next) : some target ≠ some b ∧
        Kept s.heap ((s.heap.allocate elementSize y.capacity).1.copy elementSize (some target)
          targetCapacity source sourceCapacity count) b := by
    have hlt := h.other_block ⟨trivial, hu⟩ hz hb
    have hne : b ≠ target := by omega
    exact ⟨fun hSame => hne (Option.some.inj hSame).symm, (allocate_kept hlt).trans (copy_kept hne)⟩
  have hCopy : s.copyFrom elementSize v y other = s.set v
      ((s.heap.allocate elementSize y.capacity).1.copy elementSize (some s.heap.next) y.capacity
        ((Function.update s.vectors v
          (some ⟨y.numaNodeId, some s.heap.next, y.currentIndex, y.capacity⟩) other).bind
            Vector.data) y.capacity y.currentIndex,
        ⟨y.numaNodeId, some s.heap.next, y.currentIndex, y.capacity⟩) := rfl
  rw [hCopy]
  rcases hOther with ⟨hne, hy, hOwns⟩ | ⟨rfl, hZero, rfl, hSize, hBytes⟩
  · have hEmpty := allocate_owns (h := s.heap) y.numaNodeId hOwns.capacity_lt hOwns.bytes_lt
    have hOld := hOwns.frame (s.heap.allocate elementSize y.capacity).1 (Nat.le_succ _)
      fun b hb => allocate_kept (hOwns.block b hb).1
    rw [Function.update_of_ne hne, hy, Option.bind_some]
    refine h.set (copy_owns rfl hEmpty hOld hOwns.length_le) (Nat.le_succ _)
      (copy_inBounds hEmpty hOld hOwns.length_le h.inBounds) fun u z b _ hu hz hb => ?_
    exact hBlocks u z b hu hz hb _ _ _ _ _ rfl
  · -- nothing is copied
    have hEmpty := allocate_owns (h := s.heap) y.numaNodeId hSize hBytes
    refine h.set ⟨hZero, Nat.zero_le _, hSize, hBytes, nofun, hEmpty.block, nofun⟩ (Nat.le_succ _)
      ?_ fun u z b _ hu hz hb => hBlocks u z b hu hz hb _ _ _ _ _ rfl
    have hBounds := h.inBounds
    simp only [Heap.copy, Heap.inside, hZero, decide_true, Bool.true_or, Bool.not_true,
      Bool.or_false]
    exact hBounds

/-- A vector takes over the block of another one. -/
theorem moveFrom {other : Nat} {y : Vector} (h : Holds w elementSize (fun u => True ∧ u ≠ v) s l)
    (hne : other ≠ v) (hy : s.vectors other = some y) :
    Holds w elementSize (fun _ => True) (s.moveFrom v y other)
      ((l.set other []).set v (l.get other)) := by
  have hOwns := h.owns ⟨trivial, hne⟩ hy
  have hEmptied : Holds w elementSize (fun u => True ∧ u ≠ v)
      (s.set other (s.heap, ⟨y.numaNodeId, none, 0, 0⟩)) (l.set other []) :=
    (h.mono fun _ hu => hu.1).set (Owns.empty _) (Nat.le_refl _) h.inBounds
      fun _ _ _ _ _ _ _ => ⟨nofun, rfl, rfl⟩
  refine hEmptied.set (r := (s.heap, y)) hOwns (Nat.le_refl _) h.inBounds
    fun u z b _ hu hz hb => ⟨fun hSame => ?_, rfl, rfl⟩
  have hz' : Function.update s.vectors other (some ⟨y.numaNodeId, none, 0, 0⟩) u = some z := hz
  rcases update_cases hz' with ⟨rfl, hNone⟩ | ⟨hu', hOld⟩
  · obtain rfl := Option.some.inj hNone
    cases hb
  · exact hu' (h.distinct u other z y b ⟨trivial, hu⟩ ⟨trivial, hne⟩ hOld hy hb hSame)

/-- A vector without a block is moved to itself. -/
theorem moveSelf (h : Holds w elementSize (fun _ => True) s l) (hx : s.vectors v = some x) :
    Holds w elementSize (fun _ => True) (s.moveFrom v x v)
      ((l.set v []).set v (l.get v)) := by
  have hState : s.moveFrom v x v = s := by
    simp only [State.moveFrom, Function.update_idem]
    rw [← hx, Function.update_eq_self]
  have hLists : (l.set v []).set v (l.get v) = l := by
    have hSet := h.set_get trivial hx
    rw [Lists.set] at hSet
    simp only [Lists.set, Function.update_idem]
    exact hSet
  rw [hState, hLists]
  exact h

/-- One operation. -/
theorem exec {op : Operation T} (h : Holds w elementSize (fun _ => True) s l)
    (hAllowed : Allowed w s op) (hSound : Sound w elementSize s op) :
    Holds w elementSize (fun _ => True) (s.exec w elementSize op) (l.exec op) := by
  cases op with
  | construct v numaNodeId n =>
      obtain ⟨hNone, hSize⟩ := hAllowed
      exact (h.mono fun _ _ => trivial).reserve (Owns.empty numaNodeId) (Nat.zero_le n) hSize hSound
        fun _ _ _ _ _ _ => nofun
  | copyConstruct v other =>
      obtain ⟨hNone, hSome⟩ := hAllowed
      obtain ⟨y, hy⟩ := Option.ne_none_iff_exists'.mp hSome
      have hne : other ≠ v := by
        rintro rfl
        exact hSome hNone
      simp only [State.exec, hy]
      exact (h.mono fun _ _ => trivial).copyFrom (Or.inl ⟨hne, hy, h.owns trivial hy⟩)
  | moveConstruct v other =>
      obtain ⟨hNone, hSome⟩ := hAllowed
      obtain ⟨y, hy⟩ := Option.ne_none_iff_exists'.mp hSome
      have hne : other ≠ v := by
        rintro rfl
        exact hSome hNone
      simp only [State.exec, hy]
      exact (h.mono fun _ _ => trivial).moveFrom hne hy
  | destroy v =>
      obtain ⟨x, hx⟩ := Option.ne_none_iff_exists'.mp hAllowed
      have hDestroyed := (h.released hx).destroy
      rw [released_vectors] at hDestroyed
      simp only [State.exec, hx]
      exact hDestroyed
  | copyAssign v other =>
      obtain ⟨hSome, hSome'⟩ := hAllowed
      obtain ⟨x, hx⟩ := Option.ne_none_iff_exists'.mp hSome
      obtain ⟨y, hy⟩ := Option.ne_none_iff_exists'.mp hSome'
      simp only [State.exec, hx, hy]
      refine (h.released hx).copyFrom ?_
      have hOwns := h.owns trivial hy
      by_cases hEq : other = v
      · subst hEq
        have hZero := hSound rfl y hy
        have hLength := hOwns.length
        exact Or.inr ⟨rfl, hZero, List.eq_nil_of_length_eq_zero (by omega), hOwns.capacity_lt,
          hOwns.bytes_lt⟩
      · have hReleased := (h.released hx).owns ⟨trivial, hEq⟩ (x := y) (by
          rw [released_vectors]
          exact hy)
        exact Or.inl ⟨hEq, by rw [released_vectors]; exact hy, hReleased⟩
  | moveAssign v other =>
      obtain ⟨hSome, hSome'⟩ := hAllowed
      obtain ⟨x, hx⟩ := Option.ne_none_iff_exists'.mp hSome
      obtain ⟨y, hy⟩ := Option.ne_none_iff_exists'.mp hSome'
      simp only [State.exec, hx, hy]
      by_cases hEq : other = v
      · subst hEq
        obtain rfl : x = y := Option.some.inj (hx.symm.trans hy)
        have hReleased : s.released x = s := by
          simp only [State.released, hSound rfl x hx]
        rw [hReleased]
        exact h.moveSelf hx
      · exact (h.released hx).moveFrom hEq (by rw [released_vectors]; exact hy)
  | reserve v n =>
      obtain ⟨x, hx, hRoom, hSize⟩ := hAllowed
      simp only [State.exec, hx]
      exact h.reserveOn hx x.numaNodeId hRoom hSize hSound
  | reserveOn v numaNodeId n =>
      obtain ⟨x, hx, hRoom, hSize⟩ := hAllowed
      simp only [State.exec, hx]
      exact h.reserveOn hx numaNodeId hRoom hSize hSound
  | pushBack v item =>
      obtain ⟨hSome, hValid⟩ := hAllowed
      obtain ⟨x, hx⟩ := Option.ne_none_iff_exists'.mp hSome
      simp only [State.exec, hx]
      exact h.append hx hValid hSound
  | emplaceBack v item =>
      obtain ⟨hSome, hValid⟩ := hAllowed
      obtain ⟨x, hx⟩ := Option.ne_none_iff_exists'.mp hSome
      simp only [State.exec, hx]
      exact h.append hx hValid hSound
  | clear v =>
      obtain ⟨x, hx⟩ := Option.ne_none_iff_exists'.mp hAllowed
      simp only [State.exec, hx]
      exact h.clear hx
  | write v index item =>
      obtain ⟨⟨x, hx, hIndex⟩, hValid⟩ := hAllowed
      simp only [State.exec, hx]
      exact h.write hx hIndex hValid

theorem refines (h : Holds w elementSize (fun _ => True) s l) : Refines s l where
  exists_iff := by
    intro v
    cases hx : s.vectors v with
    | none => rw [h.absent v trivial hx]; rfl
    | some x =>
        obtain ⟨xs, hList, -⟩ := h.vector v x trivial hx
        rw [hList]
        rfl
  size := fun v x hx => (h.owns trivial hx).length
  elements := by
    intro v x i hx hi
    have hOwns := h.owns trivial hx
    rw [hOwns.length] at hi
    exact hOwns.element i hi
  capacity := by
    intro v x hx
    have hOwns := h.owns trivial hx
    rw [hOwns.length]
    exact hOwns.length_le
  inBounds := h.inBounds

end Holds

/-! ## Every sequence of operations -/

/-- In every sequence of operations that are all `Sound`, the vectors do what the lists do. -/
theorem refines_of_run {w elementSize : Nat} {ops : List (Operation T)} {s : State T} {l : Lists T}
    (hRun : Run (Guarded (Step w elementSize) fun r => Sound w elementSize r.1) initial ops
      (s, l)) : Refines s l := by
  have hHolds : Holds w elementSize (fun _ => True) s l := by
    refine hRun.invariant (P := fun r => Holds w elementSize (fun _ => True) r.1 r.2)
      (Holds.initial w elementSize) ?_
    rintro op ⟨s, l⟩ fin hMid ⟨hSound, hStep⟩
    cases hStep with
    | mk hAllowed => exact hMid.exec hAllowed hSound
  exact hHolds.refines

/-- A value is pushed. -/
theorem push_step {w elementSize : Nat} {s : State T} {l : Lists T} {x : Vector} (v : Nat)
    (hx : s.vectors v = some x) (item : T) :
    Step w elementSize (s, l) (.pushBack v (.value item))
      (s.exec w elementSize (.pushBack v (.value item)), l.exec (.pushBack v (.value item))) :=
  Step.mk ⟨by rw [hx]; exact nofun, trivial⟩

/-- A value is pushed to a vector that has room or can grow. -/
theorem push_sound {w elementSize : Nat} {s : State T} {l : Lists T} {x : Vector} (v : Nat)
    (hx : s.vectors v = some x) (item : T) (hMore : x.currentIndex < x.capacity ∨
      (0 < x.capacity ∧ x.capacity * 2 < 2 ^ w ∧ elementSize * (x.capacity * 2) < 2 ^ 64)) :
    Guarded (Step w elementSize) (fun r => Sound w elementSize r.1) (s, l)
      (.pushBack v (.value item))
      (s.exec w elementSize (.pushBack v (.value item)), l.exec (.pushBack v (.value item))) := by
  refine ⟨fun y hy => ?_, push_step v hx item⟩
  obtain rfl : x = y := Option.some.inj (hx.symm.trans hy)
  exact hMore.imp_right fun hGrow => ⟨hGrow.1, hGrow.2.1, hGrow.2.2, nofun⟩

/-- A vector with one element grows. -/
theorem refines_of_run_grown : ∃ (s : State Nat) (l : Lists Nat),
    Run (Guarded (Step 64 8) fun r => Sound 64 8 r.1) initial
      [.construct 0 0 1, .pushBack 0 (.value 5), .pushBack 0 (.value 6)] (s, l) ∧
    Refines s l ∧ l.get 0 = [5, 6] := by
  have hConstruct : Guarded (Step 64 8) (fun r : State Nat × Lists Nat => Sound 64 8 r.1) initial
      (.construct 0 0 1) _ := ⟨show 8 * 1 < 2 ^ 64 by decide, Step.mk ⟨rfl, by decide⟩⟩
  have hFirst := (Run.single hConstruct).snoc (push_sound 0 rfl 5 (Or.inl (by decide)))
  have hRun := hFirst.snoc (push_sound 0 rfl 6 (Or.inr (by decide)))
  exact ⟨_, _, hRun, refines_of_run hRun, rfl⟩

/-- An element is pushed to a vector after `reserve(0)`, or construction with 0: it is written
outside the capacity, which stays 0. -/
theorem push_to_empty_capacity : ∃ (s : State Nat) (l : Lists Nat),
    Run (Step 64 8) initial [.construct 0 0 0, .pushBack 0 (.value 5)] (s, l) ∧
    s.heap.outOfBounds = true ∧
    (∃ x, s.vectors 0 = some x ∧ x.currentIndex = 1 ∧ x.capacity = 0) ∧ ¬ Refines s l := by
  have hConstruct : Step 64 8 (initial : State Nat × Lists Nat) (.construct 0 0 0) _ :=
    Step.mk ⟨rfl, by decide⟩
  have hRun := (Run.single hConstruct).snoc (push_step 0 rfl 5)
  refine ⟨_, _, hRun, by decide, ⟨_, rfl, by decide, by decide⟩, fun hRefines => ?_⟩
  have hBounds := hRefines.inBounds
  revert hBounds
  decide

end Vector

end MxTasking.Util
