import MxTasking.Verified.Slots
import Mathlib.Order.BoundedOrder.Basic
import Mathlib.Order.Fin.Basic
import Mathlib.Data.BitVec

/-!
# Nodes of the B-link tree

`node.h`, function by function.  A node is a header and a block of memory that
is read either as an inner node (keys and separators) or as a leaf (keys and
values); both start with the key array, so the model has one `keys` array and
beside it the separators and the values.

Three things the source leaves open are kept open here.  Node memory is not
cleared when it is allocated, so the arrays are total functions and slots from
`size` on hold anything.  The key array of a leaf is followed directly by its value array: the
slot one past the last key of a full leaf *is* the first value, read as a
key (`Layout.keyOfValue`).  And pointers may be null (`none`).

Indices and sizes are 16-bit in the source; the capacities are below `2 ^ 15`, so
natural numbers model them exactly.
-/

namespace MxTasking.BLinkTree

open MxTasking.Verified.Slots

/-- Address of a node; `none` is `nullptr`. -/
abbrev Ptr := Option Nat

/-- What the type parameters and `config::node_size()` determine: how many
records fit into a node, and how the bytes of a value read as a key. -/
structure Layout (K V : Type*) where
  maxKeys : Nat
  maxItems : Nat
  keyOfValue : V → K
  two_le_maxKeys : 2 ≤ maxKeys
  maxKeys_lt : maxKeys < 2 ^ 15
  two_le_maxItems : 2 ≤ maxItems
  maxItems_lt : maxItems < 2 ^ 15

/-- There are keys of the type `std::uint64_t`. -/
scoped instance neZeroKeys : NeZero (2 ^ 64) := inferInstance

/-- The layout of `BLinkTree<std::uint64_t, std::int64_t>`: of the 1024 bytes of
a node 32 are the resource interface and 40 the header; an inner node needs
16 bytes per key and separator and 8 for the first separator, a leaf 16
bytes per record. -/
def Layout.benchmark : Layout (Fin (2 ^ 64)) (BitVec 64) where
  maxKeys := (1024 - 40 - 32 - 8) / 16
  maxItems := (1024 - 40 - 32) / 16
  keyOfValue := BitVec.toFin
  two_le_maxKeys := by decide
  maxKeys_lt := by decide
  two_le_maxItems := by decide
  maxItems_lt := by decide

/-- `NodeType`.  The bit sets the tree builds are `Leaf`, `Inner` and
`Inner | Branch`. -/
inductive NodeType where
  | leaf
  | inner
  | branch
  deriving DecidableEq, Repr

/-- `NodeHeader` and the memory behind it. -/
structure Node (K V : Type*) where
  nodeType : NodeType
  highKey : K
  rightSibling : Ptr
  parent : Ptr
  size : Nat
  keys : Nat → K
  values : Nat → V
  separators : Nat → Ptr

namespace Node

variable {K V : Type*}

def isLeaf (n : Node K V) : Bool := n.nodeType = .leaf

def isInner (n : Node K V) : Bool := n.nodeType = .inner ∨ n.nodeType = .branch

def isBranch (n : Node K V) : Bool := n.nodeType = .branch

theorem isLeaf_of_not_isInner {n : Node K V} (h : ¬ n.isInner = true) : n.isLeaf = true := by
  cases hType : n.nodeType <;> simp_all [isInner, isLeaf]

def innerKey (n : Node K V) (index : Nat) : K := n.keys index

/-- `leaf_key(index)`; from `maxItems` on the address lies in the value array. -/
def leafKey (L : Layout K V) (n : Node K V) (index : Nat) : K :=
  if index < L.maxItems then n.keys index
  else L.keyOfValue (n.values (index - L.maxItems))

def full (L : Layout K V) (n : Node K V) : Bool :=
  (if n.isLeaf then L.maxItems else L.maxKeys) ≤ n.size

/-- `index(key)`: `std::lower_bound` over the live keys. -/
def index [LT K] [DecidableLT K] (n : Node K V) (key : K) : Nat :=
  lowerBound n.keys n.size key

/-- The binary search of `child`.  Each round shrinks the window
`[low, high]`, so `size` rounds are enough. -/
def childLoop [LE K] [DecidableLE K] (n : Node K V) (key : K) :
    Nat → Int → Int → Int
  | 0, _, high => high
  | fuel + 1, low, high =>
      if low ≤ high then
        if n.innerKey ((low + high) / 2).toNat ≤ key then
          n.childLoop key fuel ((low + high) / 2 + 1) high
        else n.childLoop key fuel low ((low + high) / 2 - 1)
      else high

/-- `child(key)`: the separator that routes `key`. -/
def child [LE K] [DecidableLE K] (n : Node K V) (key : K) : Ptr :=
  n.separators (n.childLoop key n.size 0 (n.size - 1) + 1).toNat

/-- `insert(index, separator, key)` of an inner node. -/
def insertSeparator (n : Node K V) (index : Nat) (separator : Ptr) (key : K) :
    Node K V :=
  let offset := n.size - index
  let keys := if index < n.size then memmove n.keys (index + 1) index offset else n.keys
  let separators :=
    if index < n.size then memmove n.separators (index + 2) (index + 1) offset
    else n.separators
  { n with
    keys := Function.update keys index key
    separators := Function.update separators (index + 1) separator
    size := n.size + 1 }

/-- `insert(index, value, key)` of a leaf. -/
def insertValue (n : Node K V) (index : Nat) (value : V) (key : K) : Node K V :=
  let offset := n.size - index
  let keys := if index < n.size then memmove n.keys (index + 1) index offset else n.keys
  let values :=
    if index < n.size then memmove n.values (index + 1) index offset else n.values
  { n with
    keys := Function.update keys index key
    values := Function.update values index value
    size := n.size + 1 }

/-- `move(destination, from_index, count)`; returns the destination. -/
def move (n destination : Node K V) (fromIndex count : Nat) : Node K V :=
  if n.isLeaf then
    { destination with
      keys := memcpy destination.keys n.keys 0 fromIndex count
      values := memcpy destination.values n.values 0 fromIndex count }
  else
    { destination with
      keys := memcpy destination.keys n.keys 0 fromIndex count
      separators := memcpy destination.separators n.separators 1 (fromIndex + 1) count }

/-- `separator(index, separator)`: overwrites one separator slot. -/
def setSeparator (n : Node K V) (index : Nat) (separator : Ptr) : Node K V :=
  { n with separators := Function.update n.separators index separator }

/-- `value(index, value)`: overwrites one value slot. -/
def setValue (n : Node K V) (index : Nat) (value : V) : Node K V :=
  { n with values := Function.update n.values index value }

end Node

end MxTasking.BLinkTree
