import MxTasking.BLinkTree.Requests
import MxTasking.BLinkTree.Splits

/-!
# Iterating over the nodes of a tree

`node_iterator.h`, with `begin()` and `end()` of `b_link_tree.h`.  The iterator follows right
siblings; at the end of a level it goes on with the first separator of the node that level
started with, and at the end of the leaves it is done.  It never looks at any other separator, so
a node whose separator is still in flight is visited like every other one.

What carries the proof is that a level is one chain from the node with the smallest low
bound to the node without a right sibling, and that the first separator of the former is the
node the level below starts with.

## Main results

* `iterate_chain` — the iterator walks one chain of right siblings.
* `Rep.iterates_level` — from the first node of a level it visits that level and all below.
* `iterator_of_run` — in every state of every run it enumerates the tree.
-/

namespace MxTasking.BLinkTree

open AbstractTree
open MxTasking.Verified.Slots
open MxTasking.Verified.IntervalChain

variable {K V : Type*}

/-- `NodeIterator`. -/
structure NodeIterator where
  currentNode : Ptr := none
  firstNodeInLevel : Ptr := none
  deriving DecidableEq, Repr

/-- `operator++`; `none` where the source dereferences a null pointer. -/
def NodeIterator.increment (t : Tree K V) (this : NodeIterator) : Option NodeIterator :=
  match this.currentNode with
  | none => none
  | some current =>
      match (t.nodes current).rightSibling with
      | some sibling => some { this with currentNode := some sibling }
      | none =>
          if (t.nodes current).isInner then
            match this.firstNodeInLevel with
            | none => none
            | some first =>
                let child := (t.nodes first).separators 0
                some { currentNode := child, firstNodeInLevel := child }
          else some { this with currentNode := none }

/-- `begin()`. -/
def Tree.begin (t : Tree K V) : NodeIterator := ⟨t.root, t.root⟩

/-- `end()`. -/
def Tree.end (_ : Tree K V) : NodeIterator := {}

@[simp] theorem Tree.end_currentNode (t : Tree K V) : t.end.currentNode = none := rfl

/-- The nodes of a loop from `iterator` to `end()`, in the order of the loop. -/
def Tree.iterate (t : Tree K V) : Nat → NodeIterator → Option (List Nat)
  | 0, _ => none
  | fuel + 1, iterator =>
      if iterator.currentNode = t.end.currentNode then some []
      else do
        let node ← iterator.currentNode
        let iterator ← iterator.increment t
        let rest ← t.iterate fuel iterator
        some (node :: rest)

section Chains

variable {t : Tree K V} {p q : Nat} {path : List Nat} {fuel : Nat}

/-- One round of the loop. -/
theorem iterate_some {here next : NodeIterator} (hNode : here.currentNode = some p)
    (hNext : here.increment t = some next) :
    t.iterate (fuel + 1) here = (t.iterate fuel next).map (p :: ·) := by
  rw [Tree.iterate, if_neg (by rw [hNode]; exact Option.some_ne_none p), hNode, hNext]
  cases hRest : t.iterate fuel next <;> simp [hRest]

theorem increment_right (first : Nat) (hRight : (t.nodes p).rightSibling = some q) :
    (⟨some p, some first⟩ : NodeIterator).increment t = some ⟨some q, some first⟩ := by
  simp [NodeIterator.increment, hRight]

/-- At the end of an inner level. -/
theorem increment_down (first : Nat) (hRight : (t.nodes p).rightSibling = none)
    (hInner : (t.nodes p).isInner = true) :
    (⟨some p, some first⟩ : NodeIterator).increment t =
      some ⟨(t.nodes first).separators 0, (t.nodes first).separators 0⟩ := by
  simp [NodeIterator.increment, hRight, hInner]

/-- At the end of the leaves. -/
theorem increment_end (first : Nat) (hRight : (t.nodes p).rightSibling = none)
    (hInner : (t.nodes p).isInner = false) :
    (⟨some p, some first⟩ : NodeIterator).increment t = some ⟨none, some first⟩ := by
  simp [NodeIterator.increment, hRight, hInner]

/-- The iterator walks a chain of right siblings and goes on where its last node leads. -/
theorem iterate_chain {first : Nat} (next : NodeIterator)
    (hFollows : FollowsFrom (fun p => (t.nodes p).rightSibling) p path)
    (hLast : ∀ q ∈ path, (t.nodes q).rightSibling = none →
      (⟨some q, some first⟩ : NodeIterator).increment t = some next) :
    t.iterate (path.length + fuel) ⟨some p, some first⟩ =
      (t.iterate fuel next).map (path ++ ·) := by
  induction hFollows with
  | @last p hNone =>
      rw [List.length_singleton, Nat.add_comm 1 fuel]
      exact iterate_some rfl (hLast p List.mem_cons_self hNone)
  | @link p q path hNext _ ih =>
      have hRest := ih (fun r hr => hLast r (List.mem_cons_of_mem p hr))
      rw [List.length_cons, Nat.add_right_comm, iterate_some rfl (increment_right first hNext),
        hRest, Option.map_map]
      rfl

end Chains

/-! ## Level by level -/

section Levels

variable [LinearOrder K] [BoundedOrder K] {L : Layout K V} {t : Tree K V} {a : AbstractTree K V}

/-- `p` is above `q`, or on the same level and left of it. -/
def AbstractTree.Before (a : AbstractTree K V) (p q : Nat) : Prop :=
  (a.nodes q).level < (a.nodes p).level ∨
    (a.nodes p).level = (a.nodes q).level ∧ (a.nodes p).high ≤ (a.nodes q).low

/-- The chain of one level in memory, from its first node on. -/
theorem Rep.level_chain (h : Rep L t a) (hValid : a.Valid) {p : Nat} (hp : p < a.count)
    (hLow : (a.nodes p).low = ⊥) :
    ∃ path, FollowsFrom (fun p => (t.nodes p).rightSibling) p path ∧
      (∀ q, q ∈ path ↔ q < a.count ∧ (a.nodes q).level = (a.nodes p).level) ∧
      path.Pairwise a.Before := by
  have hTiles := hValid.tiles (hValid.level_le p hp)
  have hMemLevel : p ∈ a.levelSet (a.nodes p).level := mem_levelSet.mpr ⟨hp, rfl⟩
  obtain ⟨path, hFollows, _, hMem⟩ := hTiles.follows _ p hMemLevel (Nat.lt_succ_self _)
  have hMem' : ∀ q, q ∈ path ↔ q < a.count ∧ (a.nodes q).level = (a.nodes p).level := by
    intro q
    rw [hMem q, mem_levelSet, hLow]
    exact ⟨fun hq => hq.1, fun hq => ⟨hq, bot_le⟩⟩
  refine ⟨path, ?_, hMem', ?_⟩
  · exact hFollows.congr fun q hq => (h.nodes q ((hMem' q).mp hq).1).rightSibling
  · refine List.Pairwise.imp_of_mem ?_ (hTiles.follows_ordered hFollows hMemLevel).2
    intro q r hq hr hOrder
    exact Or.inr ⟨((hMem' q).mp hq).2.trans ((hMem' r).mp hr).2.symm, hOrder⟩

/-- From the first node of a level the iterator visits this level and all levels below it.  The
induction is on the level. -/
theorem Rep.iterates_level (h : Rep L t a) (hValid : a.Valid) :
    ∀ l p, p < a.count → (a.nodes p).level = l → (a.nodes p).low = ⊥ →
      ∃ visited, (∀ fuel, visited.length < fuel →
          t.iterate fuel ⟨some p, some p⟩ = some visited) ∧
        (∀ q, q ∈ visited ↔ q < a.count ∧ (a.nodes q).level ≤ l) ∧
        visited.Pairwise a.Before := by
  intro l
  induction l with
  | zero =>
      intro p hp hLevel hLow
      obtain ⟨path, hFollows, hMem, hOrder⟩ := h.level_chain hValid hp hLow
      refine ⟨path, fun fuel hFuel => ?_, fun q => ?_, hOrder⟩
      · obtain ⟨rest, rfl⟩ : ∃ rest, fuel = path.length + (rest + 1) :=
          ⟨fuel - path.length - 1, by omega⟩
        rw [iterate_chain ⟨none, some p⟩ hFollows fun q hq hRight => ?_]
        · simp [Tree.iterate, Tree.end]
        · obtain ⟨hq, hqLevel⟩ := (hMem q).mp hq
          refine increment_end p hRight (Bool.eq_false_iff.mpr ?_)
          rw [Ne, (h.nodes q hq).isInner_iff]
          omega
      · rw [hMem q, hLevel, Nat.le_zero]
  | succ l ih =>
      intro p hp hLevel hLow
      obtain ⟨path, hFollows, hMem, hOrder⟩ := h.level_chain hValid hp hLow
      -- the first separator is the first node of the level below
      obtain ⟨child, hSep, hChild, hChildLevel, hChildLow, _⟩ :=
        h.separator_spec hValid hp (i := 0) (by omega) (Nat.zero_le _)
      rw [if_pos rfl, hLow] at hChildLow
      obtain ⟨below, hBelow, hBelowMem, hBelowOrder⟩ := ih child hChild (by omega) hChildLow
      refine ⟨path ++ below, fun fuel hFuel => ?_, fun q => ?_, ?_⟩
      · rw [List.length_append] at hFuel
        obtain ⟨rest, rfl⟩ : ∃ rest, fuel = path.length + rest := ⟨fuel - path.length, by omega⟩
        rw [iterate_chain ⟨some child, some child⟩ hFollows fun q hq hRight => ?_]
        · rw [hBelow rest (by omega), Option.map_some]
        · obtain ⟨hq, hqLevel⟩ := (hMem q).mp hq
          rw [increment_down p hRight ((h.nodes q hq).isInner_iff.mpr (by omega)), hSep]
      · rw [List.mem_append, hMem q, hBelowMem q, hLevel]
        omega
      · refine List.pairwise_append.mpr ⟨hOrder, hBelowOrder, fun q hq r hr => Or.inl ?_⟩
        have hqLevel := ((hMem q).mp hq).2
        have hrLevel := ((hBelowMem r).mp hr).2
        omega

end Levels

/-! ## Records -/

/-- The records of the leaves among the nodes visited, one leaf behind the other. -/
def Tree.recordsOf (t : Tree K V) (visited : List Nat) : List (K × V) :=
  (visited.filter fun p => (t.nodes p).isLeaf).flatMap fun p => (t.nodes p).records

section Records

variable {L : Layout K V} {t : Tree K V} {a : AbstractTree K V} {visited : List Nat}

theorem mem_recordsOf {k : K} {v : V} :
    (k, v) ∈ t.recordsOf visited ↔ ∃ p ∈ visited, (t.nodes p).isLeaf = true ∧
      ∃ i, i < (t.nodes p).size ∧ (t.nodes p).keys i = k ∧ (t.nodes p).values i = v := by
  simp only [Tree.recordsOf, Node.records, List.mem_flatMap, List.mem_filter, mem_firstSlots,
    Prod.mk.injEq, and_assoc]

variable [LinearOrder K] [BoundedOrder K]

/-- Where every node is visited, the records are the contents of the tree. -/
theorem Rep.mem_recordsOf_iff (h : Rep L t a) (hValid : a.Valid)
    (hAll : ∀ p, p ∈ visited ↔ p < a.count) (k : K) (v : V) :
    (k, v) ∈ t.recordsOf visited ↔ a.Stores k v := by
  rw [mem_recordsOf, ← h.stores_iff hValid]
  simp only [hAll, ← h.count]
  constructor
  · rintro ⟨p, hp, hLeaf, i, hi, hKey, hValue⟩
    exact ⟨p, i, ⟨hp, hLeaf, hi⟩, hKey, hValue⟩
  · rintro ⟨p, i, ⟨hp, hLeaf, hi⟩, hKey, hValue⟩
    exact ⟨p, hp, hLeaf, i, hi, hKey, hValue⟩

/-- The keys of a leaf are in its range. -/
theorem Rep.mem_records (h : Rep L t a) (hValid : a.Valid) {p : Nat} (hp : p < a.count)
    (hLeaf : (t.nodes p).isLeaf = true) {record : K × V} (hRecord : record ∈ (t.nodes p).records) :
    (a.nodes p).low ≤ record.1 ∧ record.1 < (a.nodes p).high := by
  obtain ⟨i, hi, rfl⟩ := mem_firstSlots.mp hRecord
  have hNode := h.nodes p hp
  have hHolds := (hNode.holds (hNode.isLeaf_iff.mp hLeaf)).1
  exact (hValid.record_some p hp _ _ (hHolds.get hi)).2

/-- Where nodes are visited from left to right, the records come in the order of their keys. -/
theorem Rep.recordsOf_ascending (h : Rep L t a) (hValid : a.Valid)
    (hAll : ∀ p ∈ visited, p < a.count) (hOrder : visited.Pairwise a.Before) :
    (t.recordsOf visited).Pairwise (fun x y => x.1 < y.1) := by
  have hMem : ∀ p ∈ visited.filter (fun p => (t.nodes p).isLeaf),
      p < a.count ∧ (t.nodes p).isLeaf = true := by
    intro p hp
    obtain ⟨hIn, hLeaf⟩ := List.mem_filter.mp hp
    exact ⟨hAll p hIn, hLeaf⟩
  refine List.pairwise_flatMap.mpr ⟨fun p hp => ?_, ?_⟩
  · obtain ⟨hp, hLeaf⟩ := hMem p hp
    have hNode := h.nodes p hp
    have hAscending := (hNode.holds (hNode.isLeaf_iff.mp hLeaf)).1.ascending
    exact List.pairwise_map.mpr (List.pairwise_lt_range.imp_of_mem fun _ hj hlt =>
      hAscending _ _ hlt (List.mem_range.mp hj))
  · refine List.Pairwise.imp_of_mem ?_ (hOrder.sublist List.filter_sublist)
    intro p q hp hq hBefore x hx y hy
    obtain ⟨hp, hpLeaf⟩ := hMem p hp
    obtain ⟨hq, hqLeaf⟩ := hMem q hq
    have hpLevel := (h.nodes p hp).isLeaf_iff.mp hpLeaf
    rcases hBefore with hLess | ⟨_, hle⟩
    · omega
    · calc x.1 < (a.nodes p).high := (h.mem_records hValid hp hpLeaf hx).2
        _ ≤ (a.nodes q).low := hle
        _ ≤ y.1 := (h.mem_records hValid hq hqLeaf hy).1

end Records

/-! ## Every run -/

section Runs

variable [LinearOrder K] [BoundedOrder K] [Nontrivial K] [Zero V]

/-- In every state of every run, with separators in flight or not: the loop from `begin()` to
`end()` ends; it visits every node once, level by level from the root to the leaves and from left to
right within a level; and the records of the leaves it visits are strictly ascending and are the
contents of the map. -/
theorem iterator_of_run (L : Layout K V) (memory : Nat → Node K V) (log : List (Event K V))
    (s : State K V) (hRun : Verified.Run (Step L) (State.initial memory) log s) :
    ∃ top level low, Structured L s.tree top level low ∧
      ∃ visited, (∀ fuel, visited.length < fuel →
          s.tree.iterate fuel s.tree.begin = some visited) ∧
        visited.Nodup ∧ (∀ p, p ∈ visited ↔ p < s.tree.count) ∧
        visited.Pairwise (fun p q => level q < level p ∨
          level p = level q ∧ (s.tree.nodes p).highKey ≤ low q) ∧
        (s.tree.recordsOf visited).Pairwise (fun x y => x.1 < y.1) ∧
        ∀ k v, (k, v) ∈ s.tree.recordsOf visited ↔ mapAfter log k = some v := by
  obtain ⟨a, hRep, hValid, hRootOnly, hContains, _⟩ := Rep.of_run hRun
  obtain ⟨visited, hIterate, hMem, hOrder⟩ := hRep.iterates_level hValid _ a.root hValid.root_lt rfl
    (hValid.root_low hRootOnly)
  have hAll : ∀ p, p ∈ visited ↔ p < a.count := fun p =>
    (hMem p).trans ⟨fun hp => hp.1, fun hp => ⟨hp, hValid.level_le p hp⟩⟩
  refine ⟨_, _, _, hRep.structured hValid, visited, fun fuel hFuel => ?_, ?_, fun p => ?_, ?_, ?_,
    ?_⟩
  · rw [Tree.begin, hRep.root]
    exact hIterate fuel hFuel
  · refine hOrder.imp_of_mem fun {p q} hp _ hBefore hEq => ?_
    subst hEq
    have hRange := hValid.range p ((hAll p).mp hp)
    rcases hBefore with hLess | ⟨_, hle⟩
    · exact lt_irrefl _ hLess
    · exact absurd hRange (not_lt.mpr hle)
  · rw [hAll p, hRep.count]
  · refine hOrder.imp_of_mem fun {p q} hp _ hBefore => ?_
    rwa [(hRep.nodes p ((hAll p).mp hp)).highKey]
  · exact hRep.recordsOf_ascending hValid (fun p hp => (hAll p).mp hp) hOrder
  · intro k v
    rw [hRep.mem_recordsOf_iff hValid hAll, hContains k v]

/-- The loop comes by the leaf whose separator is in flight, and finds the records. -/
theorem iterator_of_run_carrying :
    ∃ log s, Verified.Run (Step Layout.smallest) (State.initial zeroMemory) log s ∧
      s.tasks.card = 1 ∧ ∃ fuel visited, s.tree.iterate fuel s.tree.begin = some visited ∧
        3 ∈ visited ∧ (1, 10) ∈ s.tree.recordsOf visited ∧ (4, 40) ∈ s.tree.recordsOf visited := by
  obtain ⟨_, _, _, _, visited, hIterate, _, hAll, _, _, hRecords⟩ :=
    iterator_of_run _ _ _ _ run_carrying.of_guarded
  exact ⟨_, _, run_carrying.of_guarded, by decide, _, visited, hIterate _ (Nat.lt_succ_self _),
    (hAll 3).mpr (by decide), (hRecords 1 10).mpr (by decide), (hRecords 4 40).mpr (by decide)⟩

end Runs

end MxTasking.BLinkTree
