import MxTasking.BLinkTree.Answers
import MxTasking.BLinkTree.NodeIterator

/-!
# The consistency checker

`node_consistency_checker.h` and `check()` of `b_link_tree.h`.  The checker walks over all nodes
and prints a line for each rule a node breaks.  It is modelled with what it reads: a computation
keeps the slots of key and separator arrays it has read and the lines it has printed (`Report`), and
a null pointer it dereferences ends it without a result.

The last key of a node is the one at `size() - 1`, which becomes a 16-bit index where the slot is
read.  A node without keys has no last key, and the index is then 65535.

## Main results

* `Clean` — a computation prints nothing and reads live slots only, with its rules.
* `Tree.Populated` — every node of a tree with more than one node has a key.
* `accepted_iff` — which trees the checker accepts, over every run.
-/

namespace MxTasking.BLinkTree

open AbstractTree
open MxTasking.Verified.Slots

variable {K V : Type}

/-! ## The checker -/

/-- A slot of the arrays of a node. -/
inductive SlotRead where
  | key (node index : Nat)
  | separator (node index : Nat)
  deriving DecidableEq, Repr

/-- The lines of the checker, with the values they show. -/
inductive CheckError (K : Type) where
  /-- `[HighKey   ]`: `Key[index] (=key) >= highKey`. -/
  | highKey (isLeaf : Bool) (node : Nat) (index : Int) (key highKey : K)
  /-- `[KeyOrder  ]`: `Key[index - 1] (=previous) >= Key[index] (=key)`. -/
  | keyOrder (isLeaf : Bool) (node index : Nat) (previous key : K)
  /-- `[Separator ]`: `Separator[index] is empty`. -/
  | separator (node index : Nat)
  /-- `[ChildOrder]`: `Key[index] (=key) <= Separator[index].Key[childIndex] (=childKey)`. -/
  | childOrder (node index : Nat) (key : K) (childIndex : Nat) (childKey : K)
  /-- `[Level     ]`: `Is marked as leaf, but right sibling is not`. -/
  | siblingLevel (node : Nat)
  /-- `[Level     ]`: `Separator[index] is marked as is_leaf = isLeaf but Separator[index + 1]
  is not`. -/
  | childLevel (node index : Nat) (isLeaf : Bool)
  deriving DecidableEq, Repr

/-- What the checker has read and printed so far. -/
structure Report (K : Type) where
  reads : List SlotRead := []
  errors : List (CheckError K) := []

/-- A part of the checker; `none` where a null pointer is dereferenced. -/
abbrev Checker (K : Type) := StateT (Report K) Option

namespace Checker

def read (slot : SlotRead) : Checker K Unit :=
  modify fun report => { report with reads := report.reads ++ [slot] }

def print (error : CheckError K) : Checker K Unit :=
  modify fun report => { report with errors := report.errors ++ [error] }

def dereference {α : Type} (pointer : Option α) : Checker K α := StateT.lift pointer

@[simp] theorem dereference_some {α : Type} (x : α) :
    (dereference (some x) : Checker K α) = pure x := rfl

/-- `leaf_key(index)` of a leaf and `inner_key(index)` of an inner node. -/
def key (L : Layout K V) (t : Tree K V) (node index : Nat) : Checker K K := do
  read (.key node index)
  pure (if (t.nodes node).isLeaf then (t.nodes node).leafKey L index
    else (t.nodes node).innerKey index)

/-- `separator(index)`. -/
def separator (t : Tree K V) (node index : Nat) : Checker K Ptr := do
  read (.separator node index)
  pure ((t.nodes node).separators index)

end Checker

/-- `size() - 1` as a 16-bit index. -/
def lastIndex (size : Nat) : Nat := (size + (2 ^ 16 - 1)) % 2 ^ 16

section Checks

variable [LinearOrder K] (L : Layout K V) (t : Tree K V) (node : Nat)

def checkHighKeyValid : Checker K Unit := do
  let n := t.nodes node
  let key ← Checker.key L t node (lastIndex n.size)
  if n.highKey ≤ key then
    Checker.print (.highKey n.isLeaf node (n.size - 1) key n.highKey)

def checkKeyOrderValid : Checker K Unit := do
  let n := t.nodes node
  (List.range' 1 (n.size - 1)).forM fun index => do
    let previous ← Checker.key L t node (index - 1)
    let key ← Checker.key L t node index
    if key ≤ previous then
      Checker.print (.keyOrder n.isLeaf node index previous key)

def checkNoNullSeparator : Checker K Unit := do
  let n := t.nodes node
  if n.isInner then
    (List.range (n.size + 1)).forM fun index => do
      let separator ← Checker.separator t node index
      if separator = none then
        Checker.print (.separator node index)

def checkChildrenOrderValid : Checker K Unit := do
  let n := t.nodes node
  if n.isInner then
    (List.range n.size).forM fun index => do
      let separator ← Checker.separator t node index
      let child ← Checker.dereference separator
      let childLastKey ← Checker.key L t child (lastIndex (t.nodes child).size)
      let key ← Checker.key L t node index
      if key ≤ childLastKey then
        -- the index is shown as a 32-bit number
        Checker.print (.childOrder node index key
          (((t.nodes child).size + (2 ^ 32 - 1)) % 2 ^ 32) childLastKey)

def checkLevelValid : Checker K Unit := do
  let n := t.nodes node
  match n.rightSibling with
  | some sibling =>
      if n.isLeaf ≠ (t.nodes sibling).isLeaf then
        Checker.print (.siblingLevel node)
  | none => pure ()
  if n.isInner then
    (List.range n.size).forM fun index => do
      let separator ← Checker.separator t node index
      let child ← Checker.dereference separator
      let separator ← Checker.separator t node (index + 1)
      let next ← Checker.dereference separator
      if (t.nodes child).isLeaf ≠ (t.nodes next).isLeaf then
        Checker.print (.childLevel node index (t.nodes child).isLeaf)

def checkAndPrintErrors : Checker K Unit := do
  checkHighKeyValid L t node
  checkKeyOrderValid L t node
  checkNoNullSeparator t node
  checkChildrenOrderValid L t node
  checkLevelValid t node

end Checks

/-- `operator++` of the iterator, with the separator it reads. -/
def Checker.increment (t : Tree K V) (iterator : NodeIterator) : Checker K NodeIterator := do
  let current ← Checker.dereference iterator.currentNode
  if (t.nodes current).rightSibling = none ∧ (t.nodes current).isInner then
    let first ← Checker.dereference iterator.firstNodeInLevel
    Checker.read (.separator first 0)
  Checker.dereference (iterator.increment t)

/-- The loop of `check()`. -/
def Tree.check [LinearOrder K] (L : Layout K V) (t : Tree K V) : Nat → NodeIterator → Checker K Unit
  | 0, _ => Checker.dereference none
  | fuel + 1, iterator =>
      if iterator.currentNode = t.end.currentNode then pure ()
      else do
        let node ← Checker.dereference iterator.currentNode
        checkAndPrintErrors L t node
        let iterator ← Checker.increment t iterator
        t.check L fuel iterator

/-- A slot below the size of a node of the tree; an inner node has one separator more. -/
def Tree.Live (t : Tree K V) : SlotRead → Prop
  | .key node index => node < t.count ∧ index < (t.nodes node).size
  | .separator node index =>
      node < t.count ∧ (t.nodes node).isInner = true ∧ index ≤ (t.nodes node).size

/-- `check()` ends, reads live slots only and prints nothing. -/
def Tree.Accepted [LinearOrder K] (L : Layout K V) (t : Tree K V) : Prop :=
  ∃ bound, ∀ fuel, bound < fuel → ∃ report : Report K,
    (t.check L fuel t.begin).run {} = some ((), report) ∧ report.errors = [] ∧
      ∀ slot ∈ report.reads, t.Live slot

/-! ## Computations without complaint -/

/-- The computation gives `x`, prints nothing and reads live slots only. -/
def Clean {α : Type} (t : Tree K V) (c : Checker K α) (x : α) : Prop :=
  ∀ report : Report K, ∃ reads,
    c.run report = some (x, { report with reads := report.reads ++ reads }) ∧
      ∀ slot ∈ reads, t.Live slot

namespace Clean

variable {α β : Type} {t : Tree K V} {L : Layout K V}

theorem pure (x : α) : Clean t (Pure.pure x) x := fun report => ⟨[], by simp, by simp⟩

theorem bind {c : Checker K α} {f : α → Checker K β} {x : α} {y : β} (hc : Clean t c x)
    (hf : Clean t (f x) y) : Clean t (c >>= f) y := by
  intro report
  obtain ⟨reads, hRun, hLive⟩ := hc report
  obtain ⟨reads', hRun', hLive'⟩ := hf { report with reads := report.reads ++ reads }
  refine ⟨reads ++ reads', ?_, fun slot hSlot => ?_⟩
  · rw [StateT.run_bind, hRun]
    simpa using hRun'
  · rcases List.mem_append.mp hSlot with hIn | hIn
    · exact hLive slot hIn
    · exact hLive' slot hIn

theorem read {slot : SlotRead} (h : t.Live slot) : Clean t (Checker.read (K := K) slot) () :=
  fun report => ⟨[slot], rfl, by simpa using h⟩

theorem dereference {pointer : Option α} {x : α} (h : pointer = some x) :
    Clean t (Checker.dereference (K := K) pointer) x := by
  subst h
  rw [Checker.dereference_some]
  exact Clean.pure x

/-- A complaint that is not made. -/
theorem silent {p : Prop} [Decidable p] {error : CheckError K} (h : ¬ p) :
    Clean t (if p then Checker.print error else Pure.pure ()) () := by
  rw [if_neg h]
  exact Clean.pure ()

theorem forM {f : Nat → Checker K Unit} {indices : List Nat}
    (h : ∀ index ∈ indices, Clean t (f index) ()) : Clean t (indices.forM f) () := by
  induction indices with
  | nil => exact Clean.pure ()
  | cons index indices ih =>
      have hRest := ih fun i hi => h i (List.mem_cons_of_mem index hi)
      show Clean t (f index >>= fun _ => indices.forM f) ()
      exact (h index List.mem_cons_self).bind hRest

/-- Reading a key; of a leaf the slot is one of the key array. -/
theorem key {node index : Nat} (hNode : node < t.count) (hIndex : index < (t.nodes node).size)
    (hSize : (t.nodes node).isLeaf = true → (t.nodes node).size ≤ L.maxItems) :
    Clean t (Checker.key L t node index) ((t.nodes node).keys index) := by
  have hValue : (if (t.nodes node).isLeaf then (t.nodes node).leafKey L index
      else (t.nodes node).innerKey index) = (t.nodes node).keys index := by
    split
    · rename_i hLeaf
      have := hSize hLeaf
      rw [Node.leafKey, if_pos (by omega)]
    · rfl
  have hLive : t.Live (.key node index) := ⟨hNode, hIndex⟩
  rw [← hValue]
  exact (Clean.read hLive).bind (Clean.pure _)

theorem separator {node index : Nat} (hNode : node < t.count)
    (hInner : (t.nodes node).isInner = true) (hIndex : index ≤ (t.nodes node).size) :
    Clean t (Checker.separator (K := K) t node index) ((t.nodes node).separators index) := by
  have hLive : t.Live (.separator node index) := ⟨hNode, hInner, hIndex⟩
  exact (Clean.read hLive).bind (Clean.pure _)

end Clean

/-! ## The five checks -/

section Nodes

variable [LinearOrder K] {L : Layout K V} {t : Tree K V} {a : AbstractTree K V} {p : Nat}

/-- The last index of a node with keys. -/
theorem lastIndex_eq {size : Nat} (hPos : 1 ≤ size) (hLt : size < 2 ^ 15) :
    lastIndex size = size - 1 := by
  unfold lastIndex
  omega

theorem Rep.size_lt (h : Rep L t a) (hp : p < a.count) : (t.nodes p).size < 2 ^ 15 := by
  have hItems := L.maxItems_lt
  have hKeys := L.maxKeys_lt
  rcases Nat.eq_zero_or_pos (a.nodes p).level with hZero | hPos
  · have := ((h.nodes p hp).holds hZero).2
    omega
  · have := ((h.nodes p hp).routes hPos).2
    omega

/-- Reading key `index` of a node of the tree. -/
theorem Rep.clean_key (h : Rep L t a) (hp : p < a.count) {index : Nat}
    (hIndex : index < (t.nodes p).size) :
    Clean t (Checker.key L t p index) ((t.nodes p).keys index) := by
  refine Clean.key (by rw [h.count]; exact hp) hIndex fun hLeaf => ?_
  exact ((h.nodes p hp).holds ((h.nodes p hp).isLeaf_iff.mp hLeaf)).2

/-- Separator `index` of an inner node. -/
theorem Rep.clean_separator (h : Rep L t a) (hp : p < a.count)
    (hInner : (t.nodes p).isInner = true) {index : Nat} (hIndex : index ≤ (t.nodes p).size) :
    Clean t (Checker.separator (K := K) t p index) ((t.nodes p).separators index) :=
  Clean.separator (by rw [h.count]; exact hp) hInner hIndex

theorem Rep.clean_lastKey (h : Rep L t a) (hp : p < a.count) (hPos : 1 ≤ (t.nodes p).size) :
    Clean t (Checker.key L t p (lastIndex (t.nodes p).size))
      ((t.nodes p).keys ((t.nodes p).size - 1)) := by
  rw [lastIndex_eq hPos (h.size_lt hp)]
  exact h.clean_key hp (by omega)

variable [BoundedOrder K]

theorem Rep.clean_highKey (h : Rep L t a) (hValid : a.Valid) (hp : p < a.count)
    (hPos : 1 ≤ (t.nodes p).size) : Clean t (checkHighKeyValid L t p) () := by
  have hRange := (h.structured hValid).in_range p (by rw [h.count]; exact hp)
    ((t.nodes p).size - 1) (by omega)
  exact (h.clean_lastKey hp hPos).bind (Clean.silent (not_le.mpr hRange.2))

theorem Rep.clean_keyOrder (h : Rep L t a) (hValid : a.Valid) (hp : p < a.count) :
    Clean t (checkKeyOrderValid L t p) () := by
  refine Clean.forM fun index hIndex => ?_
  rw [List.mem_range'_1] at hIndex
  have hAscending := (h.structured hValid).ascending p (by rw [h.count]; exact hp)
    (index - 1) index (by omega) (by omega)
  exact (h.clean_key hp (by omega)).bind ((h.clean_key hp (by omega)).bind
    (Clean.silent (not_le.mpr hAscending)))

theorem Rep.clean_noNullSeparator (h : Rep L t a) (hValid : a.Valid) (hp : p < a.count) :
    Clean t (checkNoNullSeparator (K := K) t p) () := by
  unfold checkNoNullSeparator
  by_cases hInner : (t.nodes p).isInner = true
  · simp only [hInner, if_true]
    refine Clean.forM fun index hIndex => ?_
    rw [List.mem_range] at hIndex
    obtain ⟨q, hSep, _⟩ := h.separator_spec hValid hp ((h.nodes p hp).isInner_iff.mp hInner)
      (Nat.lt_succ_iff.mp hIndex)
    refine (h.clean_separator hp hInner (by omega)).bind (Clean.silent ?_)
    rw [hSep]
    exact Option.some_ne_none q
  · simp only [hInner]
    exact Clean.pure ()

/-- Two neighbouring separators of an inner node: the left one ends where the right one
starts, at the key between them, or before. -/
theorem Rep.neighbours (h : Rep L t a) (hValid : a.Valid) (hp : p < a.count)
    (hInner : (t.nodes p).isInner = true) {index : Nat} (hIndex : index < (t.nodes p).size) :
    ∃ q r, (t.nodes p).separators index = some q ∧ (t.nodes p).separators (index + 1) = some r ∧
      q < a.count ∧ r < a.count ∧ (a.nodes q).level = (a.nodes r).level ∧
      (a.nodes q).high ≤ (t.nodes p).keys index := by
  have hPos := (h.nodes p hp).isInner_iff.mp hInner
  obtain ⟨q, hq, hqLt, hqLevel, hqLow, _⟩ := h.separator_spec hValid hp hPos hIndex.le
  obtain ⟨r, hr, hrLt, hrLevel, hrLow, _⟩ :=
    h.separator_spec hValid hp hPos (i := index + 1) hIndex
  have hLevel : (a.nodes q).level = (a.nodes r).level := by omega
  refine ⟨q, r, hq, hr, hqLt, hrLt, hLevel, ?_⟩
  rw [if_neg (Nat.succ_ne_zero index), Nat.add_sub_cancel] at hrLow
  have hAscending :=
    ((h.nodes p hp).routes hPos).1.ascending index (index + 1) (by omega) (by omega)
  have hLess : (a.nodes q).low < (a.nodes r).low := by
    rw [hqLow, hrLow]
    cases index with
    | zero => simpa using hAscending
    | succ index => simpa using hAscending
  rw [← hrLow]
  exact (hValid.tiles (hValid.level_le q hqLt)).high_le_of_low_lt (mem_levelSet.mpr ⟨hqLt, rfl⟩)
    (mem_levelSet.mpr ⟨hrLt, hLevel.symm⟩) hLess

theorem Rep.clean_childrenOrder (h : Rep L t a) (hValid : a.Valid) (hp : p < a.count)
    (hSizes : ∀ q, q < a.count → 1 ≤ (t.nodes q).size) :
    Clean t (checkChildrenOrderValid L t p) () := by
  unfold checkChildrenOrderValid
  by_cases hInner : (t.nodes p).isInner = true
  · simp only [hInner, if_true]
    refine Clean.forM fun index hIndex => ?_
    rw [List.mem_range] at hIndex
    obtain ⟨q, _, hSep, _, hq, _, _, hHigh⟩ := h.neighbours hValid hp hInner hIndex
    have hPos := hSizes q hq
    have hLast := ((h.structured hValid).in_range q (by rw [h.count]; exact hq)
      ((t.nodes q).size - 1) (by omega)).2
    rw [(h.nodes q hq).highKey] at hLast
    exact (h.clean_separator hp hInner hIndex.le).bind ((Clean.dereference hSep).bind
      ((h.clean_lastKey hq hPos).bind ((h.clean_key hp hIndex).bind
        (Clean.silent (not_le.mpr (lt_of_lt_of_le hLast hHigh))))))
  · simp only [hInner]
    exact Clean.pure ()

theorem Rep.clean_level (h : Rep L t a) (hValid : a.Valid) (hp : p < a.count) :
    Clean t (checkLevelValid (K := K) t p) () := by
  -- nodes of one level are leaves or inner nodes alike
  have hAlike : ∀ q r, q < a.count → r < a.count → (a.nodes q).level = (a.nodes r).level →
      ¬ (t.nodes q).isLeaf ≠ (t.nodes r).isLeaf := by
    intro q r hq hr hLevel hne
    refine hne (Bool.eq_iff_iff.mpr ?_)
    rw [(h.nodes q hq).isLeaf_iff, (h.nodes r hr).isLeaf_iff, hLevel]
  have hChildren : Clean t (if (t.nodes p).isInner then
      (List.range (t.nodes p).size).forM fun index => do
        let separator ← Checker.separator t p index
        let child ← Checker.dereference separator
        let separator ← Checker.separator t p (index + 1)
        let next ← Checker.dereference separator
        if (t.nodes child).isLeaf ≠ (t.nodes next).isLeaf then
          Checker.print (K := K) (.childLevel p index (t.nodes child).isLeaf)
      else Pure.pure ()) () := by
    by_cases hInner : (t.nodes p).isInner = true
    · simp only [hInner, if_true]
      refine Clean.forM fun index hIndex => ?_
      rw [List.mem_range] at hIndex
      obtain ⟨q, r, hq, hr, hqLt, hrLt, hLevel, _⟩ := h.neighbours hValid hp hInner hIndex
      exact (h.clean_separator hp hInner hIndex.le).bind ((Clean.dereference hq).bind
        ((h.clean_separator hp hInner hIndex).bind ((Clean.dereference hr).bind
          (Clean.silent (hAlike q r hqLt hrLt hLevel)))))
    · simp only [hInner]
      exact Clean.pure ()
  unfold checkLevelValid
  cases hRight : (t.nodes p).rightSibling with
  | none => simpa [hRight] using hChildren
  | some sibling =>
      obtain ⟨hSibling, hLevel, _⟩ := hValid.right_some p hp sibling
        ((h.nodes p hp).rightSibling.symm.trans hRight)
      simp only [hRight, if_neg (hAlike p sibling hp hSibling hLevel.symm)]
      exact hChildren

/-- Nothing is wrong with a node of a tree all of whose nodes have keys. -/
theorem Rep.clean_node (h : Rep L t a) (hValid : a.Valid) (hp : p < a.count)
    (hSizes : ∀ q, q < a.count → 1 ≤ (t.nodes q).size) :
    Clean t (checkAndPrintErrors L t p) () :=
  (h.clean_highKey hValid hp (hSizes p hp)).bind <| (h.clean_keyOrder hValid hp).bind <|
    (h.clean_noNullSeparator hValid hp).bind <|
      (h.clean_childrenOrder hValid hp hSizes).bind (h.clean_level hValid hp)

end Nodes

/-! ## The loop -/

section Loop

variable [LinearOrder K] {L : Layout K V} {t : Tree K V} {a : AbstractTree K V}

/-- The first check reads one slot, whatever it finds there. -/
theorem checkHighKeyValid_reads {p : Nat} {report : Report K}
    (h : (checkHighKeyValid L t p).run {} = some ((), report)) :
    report.reads = [.key p (lastIndex (t.nodes p).size)] := by
  obtain ⟨key, hKey⟩ : ∃ key, (Checker.key L t p (lastIndex (t.nodes p).size)).run {} =
      some (key, { reads := [.key p (lastIndex (t.nodes p).size)] }) := ⟨_, rfl⟩
  rw [checkHighKeyValid, StateT.run_bind, hKey] at h
  by_cases hle : (t.nodes p).highKey ≤ key
  · obtain rfl : _ = report := by simpa [hle, Checker.print] using h
    rfl
  · obtain rfl : _ = report := by simpa [hle] using h
    rfl

/-- For a leaf without keys only the first check does anything. -/
theorem checkAndPrintErrors_of_empty {p : Nat} (hInner : (t.nodes p).isInner = false)
    (hSize : (t.nodes p).size = 0) (hRight : (t.nodes p).rightSibling = none) :
    checkAndPrintErrors L t p = checkHighKeyValid L t p := by
  simp [checkAndPrintErrors, checkKeyOrderValid, checkNoNullSeparator, checkChildrenOrderValid,
    checkLevelValid, hInner, hSize, hRight]

/-- The checker reads key 65535 of a leaf without keys. -/
theorem not_accepted_of_empty {p : Nat} (hRoot : t.root = some p)
    (hInner : (t.nodes p).isInner = false) (hSize : (t.nodes p).size = 0)
    (hRight : (t.nodes p).rightSibling = none) : ¬ t.Accepted L := by
  rintro ⟨bound, hBound⟩
  obtain ⟨report, hRun, _, hLive⟩ := hBound (bound + 2) (by omega)
  have hCheck : t.check L (bound + 2) t.begin = checkHighKeyValid L t p := by
    simp [Tree.check, Tree.begin, hRoot, checkAndPrintErrors_of_empty hInner hSize hRight,
      Checker.increment, increment_end p hRight hInner, hInner]
  have hRead : SlotRead.key p (2 ^ 16 - 1) ∈ report.reads := by
    rw [hCheck] at hRun
    rw [checkHighKeyValid_reads hRun, hSize]
    exact List.mem_singleton_self _
  have hIndex := (hLive _ hRead).2
  omega

variable [BoundedOrder K]

/-- The iterator is at a node of the level it remembers a node of. -/
def NodeIterator.OnLevel (a : AbstractTree K V) (iterator : NodeIterator) : Prop :=
  ∃ p first, iterator = ⟨some p, some first⟩ ∧ p < a.count ∧ first < a.count ∧
    (a.nodes p).level = (a.nodes first).level

/-- The iterator goes on, on its level or the one below, or to the end. -/
theorem Rep.clean_increment (h : Rep L t a) (hValid : a.Valid) {iterator : NodeIterator}
    (hOn : iterator.OnLevel a) :
    ∃ next, iterator.increment t = some next ∧ (next.currentNode = none ∨ next.OnLevel a) ∧
      Clean t (Checker.increment (K := K) t iterator) next := by
  obtain ⟨p, first, rfl, hp, hFirst, hLevel⟩ := hOn
  by_cases hDown : (t.nodes p).rightSibling = none ∧ (t.nodes p).isInner = true
  · have hNext := increment_down first hDown.1 hDown.2
    have hPos : 0 < (a.nodes first).level := by
      rw [← hLevel]
      exact (h.nodes p hp).isInner_iff.mp hDown.2
    obtain ⟨child, hSep, hChild, _⟩ := h.separator_spec hValid hFirst (i := 0) hPos (Nat.zero_le _)
    have hLive : t.Live (.separator first 0) :=
      ⟨by rw [h.count]; exact hFirst, (h.nodes first hFirst).isInner_iff.mpr hPos, Nat.zero_le _⟩
    rw [hSep] at hNext
    refine ⟨_, hNext, Or.inr ⟨child, child, rfl, hChild, hChild, rfl⟩, ?_⟩
    unfold Checker.increment
    refine (Clean.dereference rfl).bind ?_
    dsimp only
    rw [if_pos hDown]
    exact (Clean.dereference rfl).bind ((Clean.read hLive).bind (Clean.dereference hNext))
  · -- a step to the right or to the end reads nothing
    have hClean : ∀ next, (⟨some p, some first⟩ : NodeIterator).increment t = some next →
        Clean t (Checker.increment (K := K) t ⟨some p, some first⟩) next := by
      intro next hNext
      unfold Checker.increment
      refine (Clean.dereference rfl).bind ?_
      dsimp only
      rw [if_neg hDown]
      exact Clean.dereference hNext
    cases hRight : (t.nodes p).rightSibling with
    | some q =>
        have hNext := increment_right first hRight
        obtain ⟨hq, hqLevel, _⟩ := hValid.right_some p hp q
          ((h.nodes p hp).rightSibling.symm.trans hRight)
        exact ⟨_, hNext, Or.inr ⟨q, first, rfl, hq, hFirst, hqLevel.trans hLevel⟩, hClean _ hNext⟩
    | none =>
        have hInner : (t.nodes p).isInner = false := Bool.eq_false_iff.mpr fun hInner =>
          hDown ⟨hRight, hInner⟩
        have hNext := increment_end first hRight hInner
        exact ⟨_, hNext, Or.inl rfl, hClean _ hNext⟩

/-- Where every node has keys, the loop has nothing to complain about. -/
theorem Rep.clean_check (h : Rep L t a) (hValid : a.Valid)
    (hSizes : ∀ q, q < a.count → 1 ≤ (t.nodes q).size) :
    ∀ fuel iterator visited, (iterator.currentNode = none ∨ iterator.OnLevel a) →
      t.iterate fuel iterator = some visited → Clean t (t.check L fuel iterator) () := by
  intro fuel
  induction fuel with
  | zero => exact fun _ _ _ hIterate => absurd hIterate (by simp [Tree.iterate])
  | succ fuel ih =>
      intro iterator visited hOn hIterate
      unfold Tree.check
      rcases hOn with hEnd | hOn
      · rw [Tree.end_currentNode, if_pos hEnd]
        exact Clean.pure ()
      obtain ⟨next, hNext, hNextOn, hClean⟩ := h.clean_increment hValid hOn
      obtain ⟨p, first, rfl, hp, _⟩ := hOn
      rw [iterate_some rfl hNext, Option.map_eq_some_iff] at hIterate
      obtain ⟨rest, hRest, _⟩ := hIterate
      rw [Tree.end_currentNode, if_neg (Option.some_ne_none p)]
      exact (Clean.dereference rfl).bind <| (h.clean_node hValid hp hSizes).bind <|
        hClean.bind (ih next rest hNextOn hRest)

/-- The checker accepts a tree all of whose nodes have keys. -/
theorem Rep.accepted (h : Rep L t a) (hValid : a.Valid) (hRootOnly : a.RootOnly)
    (hSizes : ∀ q, q < a.count → 1 ≤ (t.nodes q).size) : t.Accepted L := by
  have hRoot := hValid.root_lt
  obtain ⟨visited, hIterate, _⟩ := h.iterates_level hValid _ a.root hRoot rfl
    (hValid.root_low hRootOnly)
  refine ⟨visited.length, fun fuel hFuel => ?_⟩
  have hClean := h.clean_check hValid hSizes fuel ⟨some a.root, some a.root⟩ visited
    (Or.inr ⟨a.root, a.root, rfl, hRoot, hRoot, rfl⟩) (hIterate fuel hFuel)
  obtain ⟨reads, hRun, hLive⟩ := hClean {}
  rw [Tree.begin, h.root]
  exact ⟨_, hRun, rfl, fun slot hSlot => hLive slot (by simpa using hSlot)⟩

end Loop

/-! ## Nodes without keys -/

/-- Every node of a tree with more than one node has a key. -/
def Tree.Populated (t : Tree K V) : Prop :=
  t.count = 1 ∨ ∀ p, p < t.count → 1 ≤ (t.nodes p).size

/-- The sizes of two trees agree at every address but those of `changed`. -/
def Tree.SameSizes (t t' : Tree K V) (changed : List Nat) : Prop :=
  ∀ p, p ∉ changed → (t'.nodes p).size = (t.nodes p).size

namespace Tree

variable {L : Layout K V} {t t' : Tree K V} {p : Nat} {key : K}

theorem setParent_size (t : Tree K V) (node parent : Ptr) (q : Nat) :
    ((t.setParent node parent).nodes q).size = (t.nodes q).size := by
  by_cases hNode : node = some q
  · rw [hNode, setParent_self]
  · rw [setParent_of_ne _ _ hNode]

theorem adopt_size (t : Tree K V) (n : Node K V) (new q : Nat) :
    ((t.adopt n new).nodes q).size = (t.nodes q).size := by
  obtain ⟨parent, hEq⟩ := t.adopt_fields n new q
  rw [hEq]

/-- What a split does to the sizes, whatever the node holds. -/
structure SplitSizes (t t' : Tree K V) (p : Nat) : Prop where
  count : t'.count = t.count + 1
  left : 1 ≤ (t'.nodes p).size
  right : 1 ≤ (t'.nodes t.count).size
  others : t.SameSizes t' [p, t.count]

/-- A node that gets a key, or keeps its size. -/
theorem Populated.write (h : t.Populated) {n : Node K V}
    (hSize : 1 ≤ n.size ∨ n.size = (t.nodes p).size) : (t.write p n).Populated := by
  refine h.imp_right fun hAll q hq => ?_
  by_cases hEq : q = p
  · subst hEq
    rw [write_self]
    have := hAll q hq
    omega
  · rw [write_of_ne _ _ hEq]
    exact hAll q hq

theorem Populated.setParent (h : t.Populated) (node parent : Ptr) :
    (t.setParent node parent).Populated := by
  unfold Populated
  simp only [setParent_count, setParent_size]
  exact h

/-- Both halves of a split have keys, and in a tree of one node there is no other node. -/
theorem Populated.split (h : t.Populated) (hp : p < t.count) (hSplit : t.SplitSizes t' p) :
    ∀ q, q < t'.count → 1 ≤ (t'.nodes q).size := by
  intro q hq
  rw [hSplit.count] at hq
  by_cases hLeft : q = p
  · rw [hLeft]
    exact hSplit.left
  by_cases hRight : q = t.count
  · rw [hRight]
    exact hSplit.right
  · rw [hSplit.others q (by simp [hLeft, hRight])]
    exact (h.resolve_left (by omega)) q (by omega)

variable [LinearOrder K]

theorem distributeLeaf_sizes (L : Layout K V) (leaf new : Node K V) (key : K) (value : V) :
    1 ≤ (leaf.distributeLeaf L new key value).1.size ∧
      1 ≤ (leaf.distributeLeaf L new key value).2.size := by
  have hTwo := L.two_le_maxItems
  unfold Node.distributeLeaf
  dsimp only
  split
  · simp only [Node.insertValue]
    omega
  · simp only [Node.insertValue]
    omega

theorem distributeInner_sizes (L : Layout K V) (node new : Node K V) (key : K) (separator : Ptr) :
    1 ≤ (node.distributeInner L new key separator).1.size ∧
      1 ≤ (node.distributeInner L new key separator).2.1.size := by
  have hTwo := L.two_le_maxKeys
  unfold Node.distributeInner
  dsimp only
  split
  · simp only [Node.insertSeparator]
    omega
  split
  · dsimp only
    omega
  · simp only [Node.insertSeparator]
    omega

variable [BoundedOrder K]

theorem splitLeaf_sizes (L : Layout K V) (hp : p < t.count) (hLeaf : (t.nodes p).isLeaf = true)
    (key : K) (value : V) : t.SplitSizes (t.splitLeaf L p key value).1 p := by
  have hType : (t.nodes p).nodeType = .leaf := by simpa [Node.isLeaf] using hLeaf
  obtain ⟨_, hAt, hOthers⟩ := t.splitLeaf_splitAt (L := L) (Nat.ne_of_lt hp) hType key value
  obtain ⟨hLeft, hRight⟩ := distributeLeaf_sizes L
    ({ t.nodes p with rightSibling := some t.count } : Node K V) (t.freshSibling p) key value
  refine ⟨hAt.count, by rw [hAt.left]; exact hLeft, by rw [hAt.right]; exact hRight, ?_⟩
  intro q hq
  simp only [List.mem_cons, List.not_mem_nil, or_false, not_or] at hq
  rw [hOthers q hq.1 hq.2]

theorem splitInner_sizes (L : Layout K V) {separator : Nat} (hp : p < t.count)
    (hInner : (t.nodes p).isInner = true) (hSeparator : separator < t.count)
    (hSelf : separator ≠ p) (key : K) :
    t.SplitSizes (t.splitInner L p key (some separator)).1 p := by
  have hType : (t.nodes p).nodeType ≠ .leaf := by
    intro hLeaf
    simp [Node.isInner, hLeaf] at hInner
  obtain ⟨t₃, hResult, hAt, hOthers⟩ := t.splitInner_parts (L := L) (Nat.ne_of_lt hp) hType key
    (some separator) (by simpa using Nat.ne_of_lt hSeparator) (by simpa using hSelf)
  obtain ⟨hLeft, hRight⟩ := distributeInner_sizes L (t.nodes p)
    ({ t.freshSibling p with rightSibling := none } : Node K V) key (some separator)
  rw [hResult]
  refine ⟨?_, ?_, ?_, fun q hq => ?_⟩
  · rw [(t₃.adopt_frame _ _).1, hAt.count]
  · rw [adopt_size, hAt.left]
    exact hLeft
  · rw [adopt_size, hAt.right]
    exact hRight
  · simp only [List.mem_cons, List.not_mem_nil, or_false, not_or] at hq
    rw [adopt_size, hOthers q hq.1 hq.2]
    split <;> rfl

/-- A new root has one key. -/
theorem populated_createNewRoot {right : Nat} (h : ∀ q, q < t.count → 1 ≤ (t.nodes q).size)
    (hp : p < t.count) (hRight : right < t.count) :
    (t.createNewRoot p (some right) key).Populated := by
  obtain ⟨hCount, _, _, hNew, hOthers⟩ :=
    t.createNewRoot_nodes p right (Nat.ne_of_lt hp) (Nat.ne_of_lt hRight) key
  refine Or.inr fun q hq => ?_
  rw [hCount] at hq
  by_cases hEq : q = t.count
  · rw [hEq, hNew]
    exact Nat.le_refl 1
  · rw [hOthers q hEq]
    have hOld := h q (by omega)
    split
    · exact hOld
    · exact hOld

end Tree

section Runs

variable [LinearOrder K] {L : Layout K V} {t : Tree K V} {a : AbstractTree K V} {task : Task K V}
  {ex : Execution K V} {key : K} {value : V} {p : Nat}

theorem lookupExecute_tree (coreId : Nat) :
    (lookupExecute L coreId t task key value p).tree = t := by
  unfold lookupExecute
  dsimp only
  split
  · rfl
  split
  · rfl
  · rfl

theorem updateExecute_populated (coreId : Nat) (h : t.Populated) :
    (updateExecute L coreId t task key value p).tree.Populated := by
  unfold updateExecute
  dsimp only
  split
  · exact h
  split
  · exact h
  split
  · exact h
  split
  · exact h.write (Or.inr rfl)
  · exact h

variable [BoundedOrder K]

theorem insertValueExecute_populated (coreId : Nat) (h : t.Populated) (hp : p < t.count) :
    (insertValueExecute L coreId t task key value p).tree.Populated := by
  unfold insertValueExecute
  by_cases hle : (t.nodes p).highKey ≤ key
  · rw [if_pos hle]
    exact h
  by_cases hInner : (t.nodes p).isInner = true
  · rw [if_neg hle, if_pos hInner]
    exact h
  have hLeaf := Node.isLeaf_of_not_isInner hInner
  rw [if_neg hle, if_neg hInner]
  by_cases hReads : ((t.nodes p).isLeaf && task.isReadonly) = true
  · rw [if_pos hReads]
    exact h
  rw [if_neg hReads]
  dsimp only
  split
  · exact h
  split
  · exact h.write (Or.inl (Nat.le_add_left 1 _))
  have hSplit := Tree.splitLeaf_sizes L hp hLeaf key value
  have hAll := h.split hp hSplit
  have hCount := hSplit.count
  split
  · exact Or.inr hAll
  · refine Tree.populated_createNewRoot hAll (by omega) ?_
    rw [hCount]
    exact Nat.lt_succ_self _

variable [Zero V]

theorem insertSeparatorExecute_populated (coreId : Nat) {separator : Ptr} (hRep : Rep L t a)
    (hTask : TaskOK a task) (hBody : task.body = .insertSeparator key separator)
    (hAnn : task.annotatedResource = some p) (h : t.Populated) (hp : p < t.count) :
    (insertSeparatorExecute L coreId t task key separator p).tree.Populated := by
  unfold insertSeparatorExecute
  by_cases hle : (t.nodes p).highKey ≤ key
  · rw [if_pos hle]
    exact h
  rw [if_neg hle]
  dsimp only
  split
  · exact (h.write (Or.inl (Nat.le_add_left 1 _))).setParent _ _
  obtain ⟨_, q, _, rfl, _⟩ := hTask.separator key separator hBody
  have hFits := hTask.fits hRep hBody hAnn hle
  have hInner : (t.nodes p).isInner = true := by
    rw [(hRep.nodes p hFits.lt).isInner_iff]
    have := hFits.level_eq
    omega
  have hSplit := Tree.splitInner_sizes L hp hInner
    (by rw [hRep.count]; exact hFits.child_lt) hFits.ne key
  have hAll := h.split hp hSplit
  have hCount := hSplit.count
  split
  · exact Or.inr hAll
  · refine Tree.populated_createNewRoot hAll (by omega) ?_
    rw [hCount]
    exact Nat.lt_succ_self _

/-- No execution leaves a node without keys in a tree with more than one node. -/
theorem execute_populated {coreId : Nat} (hRep : Rep L t a) (hTask : TaskOK a task)
    (hEx : task.execute L coreId t = some ex) (h : t.Populated) : ex.tree.Populated := by
  obtain ⟨p, hAnn, hp, _⟩ := hTask.annotated
  rw [← hRep.count] at hp
  unfold Task.execute at hEx
  rw [hAnn] at hEx
  simp only [Option.some.injEq] at hEx
  subst hEx
  cases hBody : task.body with
  | insertValue key value => exact insertValueExecute_populated coreId h hp
  | insertSeparator key separator =>
      exact insertSeparatorExecute_populated coreId hRep hTask hBody hAnn h hp
  | lookup key value core => rw [lookupExecute_tree]; exact h
  | update key value => exact updateExecute_populated coreId h

/-- Over every run. -/
theorem populated_of_run [Nontrivial K] {memory : Nat → Node K V} {log : List (Event K V)}
    {s : State K V} (hRun : Verified.Run (Step L) (State.initial memory) log s) :
    s.tree.Populated := by
  obtain ⟨_, s', hRun', rfl, _⟩ := run_traced hRun
  refine (hRun'.invariant (P := fun s => (∃ a, TracedInv L s a) ∧ s.tree.Populated) ?_ ?_).2
  · exact ⟨TracedInv.run Verified.Run.nil, Or.inl rfl⟩
  · rintro e mid fin ⟨⟨a, hInv⟩, hPop⟩ hStep
    refine ⟨hInv.step hStep, ?_⟩
    cases hStep with
    | spawn request isReadonly hRequest => exact hPop
    | @execute coreId r task rest ex hTasks hEx =>
        have hIn : (r, task) ∈ mid.tasks := by rw [hTasks]; exact Multiset.mem_cons_self _ _
        show ex.tree.Populated
        by_cases hKey : task.body.key < ⊤
        · exact execute_populated hInv.inv.rep (hInv.ok hIn hKey).1 hEx hPop
        · obtain ⟨_, _, rfl⟩ := execute_top hEx (not_lt_top_iff.mp hKey)
          exact hPop

/-- In every state of every run the checker accepts the tree exactly if the map is not empty. -/
theorem accepted_iff [Nontrivial K] (L : Layout K V) (memory : Nat → Node K V)
    (log : List (Event K V)) (s : State K V)
    (hRun : Verified.Run (Step L) (State.initial memory) log s) :
    s.tree.Accepted L ↔ ∃ k v, mapAfter log k = some v := by
  obtain ⟨a, hRep, hValid, hRootOnly, hContains, _⟩ := Rep.of_run hRun
  have hRoot := hValid.root_lt
  -- with a key in every node some leaf has a record
  have hLeaf : ∀ p, p < a.count → (a.nodes p).level = 0 → 1 ≤ (s.tree.nodes p).size →
      ∃ k v, mapAfter log k = some v := by
    intro p hp hLevel hSize
    have hRecord := ((hRep.nodes p hp).holds hLevel).1.get (i := 0) hSize
    exact ⟨_, _, (hContains _ _).mp ⟨p, hp, hRecord⟩⟩
  obtain ⟨first, hFirst, hLevel, _⟩ := hValid.bottom 0 (Nat.zero_le _)
  rcases populated_of_run hRun with hOne | hAll
  · -- the only node is the root, and it is a leaf
    rw [hRep.count] at hOne
    obtain rfl : first = a.root := by omega
    have hNode := hRep.nodes a.root hRoot
    constructor
    · intro hAccepted
      refine hLeaf a.root hRoot hLevel (Nat.pos_of_ne_zero fun hZero => ?_)
      refine not_accepted_of_empty hRep.root (Bool.eq_false_iff.mpr ?_) hZero ?_ hAccepted
      · rw [Ne, hNode.isInner_iff, hLevel]
        exact lt_irrefl 0
      · cases hRight : (s.tree.nodes a.root).rightSibling with
        | none => rfl
        | some q =>
            rw [hNode.rightSibling] at hRight
            obtain ⟨hq, _, hLow⟩ := hValid.right_some a.root hRoot q hRight
            obtain rfl : q = a.root := by omega
            exact absurd (hValid.range a.root hRoot) (by rw [hLow]; exact lt_irrefl _)
    · rintro ⟨k, v, hMap⟩
      obtain ⟨p, hp, hRecord⟩ := (hContains k v).mpr hMap
      obtain rfl : p = a.root := by omega
      obtain ⟨i, hi, _⟩ := ((hNode.holds hLevel).1.maps k v).mp hRecord
      refine hRep.accepted hValid hRootOnly fun q hq => ?_
      obtain rfl : q = a.root := by omega
      omega
  · rw [hRep.count] at hAll
    exact ⟨fun _ => hLeaf first hFirst hLevel (hAll first hFirst),
      fun _ => hRep.accepted hValid hRootOnly hAll⟩

/-- The checker accepts a tree of three levels. -/
theorem accepted_threeLevels :
    ∃ log s, Verified.Run (Step Layout.smallest) (State.initial zeroMemory) log s ∧
      s.tree.count = 7 ∧ s.tree.Accepted Layout.smallest :=
  ⟨_, _, run_threeLevels.of_guarded, by decide,
    (accepted_iff _ _ _ _ run_threeLevels.of_guarded).mpr ⟨5, 50, by decide⟩⟩

/-- The checker does not accept the tree as it is constructed: nothing is in flight, and the last
key of the empty leaf is read in slot 65535. -/
theorem not_accepted_fresh :
    ∃ s, Verified.Run (Step Layout.benchmark) (State.initial zeroMemory) [] s ∧ s.tasks = 0 ∧
      ¬ s.tree.Accepted Layout.benchmark :=
  ⟨State.initial zeroMemory, Verified.Run.nil, rfl, not_accepted_of_empty rfl rfl rfl rfl⟩

end Runs

end MxTasking.BLinkTree
