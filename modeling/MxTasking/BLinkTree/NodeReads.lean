import MxTasking.BLinkTree.OptimisticRead
import MxTasking.Tasking.Snapshot

/-!
# Reading tasks, word by word

The tasks of the tree that may run as optimistic readers, as computations that read the words of
their node one after the other: `LookupTask::execute`, and `InsertValueTask::execute` and
`UpdateTask::execute` up to the leaf, with `Node::index` and `Node::child`.  The model of the tree
executes a task in one step on its node.  Here the node is changed by writers between any two
words that are read, and the worker validates the version at the end.

The type of a node is constant and its parent is read by no reader; they are not among the words.

## Main results

* `Task.run_reads` — on a node that does not change, the computation is the execution.
* `execution_of_run` — an accepted optimistic execution is an execution in one step.
-/

namespace MxTasking.BLinkTree

open MxTasking.Verified
open MxTasking.Tasking (Snapshot.Step Snapshot.State Snapshot.Event Snapshot.Passes
  Snapshot.sections Snapshot.snapshot_of_run Snapshot.validating_set)

/-- The words of a node. -/
inductive Field where
  | highKey
  | rightSibling
  | size
  | key (index : Nat)
  | value (index : Nat)
  | separator (index : Nat)
  deriving DecidableEq, Repr

def Field.Word (K V : Type) : Field → Type
  | .highKey => K
  | .rightSibling => Ptr
  | .size => Nat
  | .key _ => K
  | .value _ => V
  | .separator _ => Ptr

section Reads

variable {K V : Type}

/-- The words of a node that is at rest. -/
def Node.words (n : Node K V) : ∀ field : Field, field.Word K V
  | .highKey => n.highKey
  | .rightSibling => n.rightSibling
  | .size => n.size
  | .key index => n.keys index
  | .value index => n.values index
  | .separator index => n.separators index

/-- The node with the words that are in memory. -/
def Node.withWords (n : Node K V) (memory : ∀ field : Field, field.Word K V) : Node K V :=
  { n with
    highKey := memory .highKey
    rightSibling := memory .rightSibling
    size := memory .size
    keys := fun index => memory (.key index)
    values := fun index => memory (.value index)
    separators := fun index => memory (.separator index) }

@[simp] theorem Node.withWords_words (n : Node K V) : n.withWords n.words = n := rfl

@[simp] theorem Node.words_withWords (n : Node K V) (memory : ∀ field : Field, field.Word K V) :
    (n.withWords memory).words = memory := by
  funext field
  cases field <;> rfl

/-- A computation that reads a node. -/
abbrev NodeReads (K V α : Type) := Reads Field (Field.Word K V) α

namespace NodeReads

def highKey : NodeReads K V K := Reads.word Field.highKey

def rightSibling : NodeReads K V Ptr := Reads.word Field.rightSibling

def size : NodeReads K V Nat := Reads.word Field.size

def key (index : Nat) : NodeReads K V K := Reads.word (Field.key index)

def value (index : Nat) : NodeReads K V V := Reads.word (Field.value index)

def separator (index : Nat) : NodeReads K V Ptr := Reads.word (Field.separator index)

@[simp] theorem run_highKey (n : Node K V) : highKey.run n.words = n.highKey := rfl

@[simp] theorem run_rightSibling (n : Node K V) : rightSibling.run n.words = n.rightSibling := rfl

@[simp] theorem run_size (n : Node K V) : size.run n.words = n.size := rfl

@[simp] theorem run_key (n : Node K V) (index : Nat) :
    (key index).run n.words = n.keys index := rfl

@[simp] theorem run_value (n : Node K V) (index : Nat) :
    (value index).run n.words = n.values index := rfl

@[simp] theorem run_separator (n : Node K V) (index : Nat) :
    (separator index).run n.words = n.separators index := rfl

/-- `leaf_key(index)`. -/
def leafKey (L : Layout K V) (index : Nat) : NodeReads K V K :=
  if index < L.maxItems then key index
  else do
    let value ← value (index - L.maxItems)
    pure (L.keyOfValue value)

@[simp] theorem run_leafKey (L : Layout K V) (n : Node K V) (index : Nat) :
    (leafKey L index).run n.words = n.leafKey L index := by
  unfold leafKey Node.leafKey
  split <;> simp

variable [LinearOrder K]

/-- The loop of `std::lower_bound`. -/
def lowerBoundLoop (searched : K) : Nat → Nat → Nat → NodeReads K V Nat
  | 0, first, _ => pure first
  | fuel + 1, first, count =>
      if count = 0 then pure first
      else do
        let slotKey ← key (first + count / 2)
        if slotKey < searched then
          lowerBoundLoop searched fuel (first + count / 2 + 1) (count - (count / 2 + 1))
        else lowerBoundLoop searched fuel first (count / 2)

theorem run_lowerBoundLoop (n : Node K V) (searched : K) :
    ∀ fuel first count, (lowerBoundLoop searched fuel first count).run n.words =
      Slots.lowerBoundLoop n.keys searched fuel first count := by
  intro fuel
  induction fuel with
  | zero => exact fun _ _ => rfl
  | succ fuel ih =>
      intro first count
      rw [lowerBoundLoop, Slots.lowerBoundLoop]
      by_cases hCount : count = 0
      · rw [if_pos hCount, if_pos hCount, Reads.run_pure]
      · rw [if_neg hCount, if_neg hCount, Reads.run_bind, run_key, Reads.run_ite, ih, ih]

/-- `index(key)`. -/
def index (searched : K) : NodeReads K V Nat := do
  let size ← size
  lowerBoundLoop searched size 0 size

@[simp] theorem run_index (n : Node K V) (searched : K) :
    (index searched).run n.words = n.index searched := by
  simp [index, run_lowerBoundLoop, Node.index, Slots.lowerBound]

/-- The loop of `child(key)`. -/
def childLoop (searched : K) : Nat → Int → Int → NodeReads K V Int
  | 0, _, high => pure high
  | fuel + 1, low, high =>
      if low ≤ high then do
        let slotKey ← key ((low + high) / 2).toNat
        if slotKey ≤ searched then childLoop searched fuel ((low + high) / 2 + 1) high
        else childLoop searched fuel low ((low + high) / 2 - 1)
      else pure high

theorem run_childLoop (n : Node K V) (searched : K) :
    ∀ fuel low high, (childLoop searched fuel low high).run n.words =
      n.childLoop searched fuel low high := by
  intro fuel
  induction fuel with
  | zero => exact fun _ _ => rfl
  | succ fuel ih =>
      intro low high
      rw [childLoop, Node.childLoop]
      by_cases hle : low ≤ high
      · rw [if_pos hle, if_pos hle, Reads.run_bind, run_key, Reads.run_ite, ih, ih]
        rfl
      · rw [if_neg hle, if_neg hle, Reads.run_pure]

/-- `child(key)`. -/
def child (searched : K) : NodeReads K V Ptr := do
  let size ← size
  let high ← childLoop searched size 0 (size - 1)
  separator (high + 1).toNat

@[simp] theorem run_child (n : Node K V) (searched : K) :
    (child searched).run n.words = n.child searched := by
  simp [child, run_childLoop, Node.child]

/-- `LookupTask::execute` on a node of the type that `node` has. -/
def lookup (L : Layout K V) (coreId : Nat) (node : Node K V) (this : Task K V) (searched : K)
    (unset : V) : NodeReads K V (Task K V × TaskResult K V) := do
  let highKey ← highKey
  if highKey ≤ searched then
    let this := this.annotate (← rightSibling)
    pure (this, .makeSucceed this)
  else if node.isInner then
    let this := this.annotate (← child searched)
    pure (this, .makeSucceed this)
  else
    let index ← index searched
    let slotKey ← leafKey L index
    let value ← if slotKey = searched then value index else pure unset
    let this := { this with body := .lookup searched value coreId }
    pure (this, .makeRemove)

/-- `InsertValueTask::execute` and `UpdateTask::execute` of a reading task. -/
def descend (node : Node K V) (this : Task K V) (searched : K) :
    NodeReads K V (Task K V × TaskResult K V) := do
  let highKey ← highKey
  if highKey ≤ searched then
    let this := this.annotate (← rightSibling)
    pure (this, .makeSucceed this)
  else if node.isInner then
    let this := (this.annotate (← child searched)).setReadonly (!node.isBranch)
    pure (this, .makeSucceed this)
  else
    let this := this.setReadonly false
    pure (this, .makeSucceed this)

end NodeReads

variable [LinearOrder K]

/-- What a request reads of its node when it is executed as a reader. -/
def Task.reads (L : Layout K V) (coreId : Nat) (node : Node K V) (task : Task K V) :
    Option (NodeReads K V (Task K V × TaskResult K V)) :=
  match task.body with
  | .lookup key value _ => some (NodeReads.lookup L coreId node task key value)
  | .insertValue key _ => some (NodeReads.descend node task key)
  | .update key _ => some (NodeReads.descend node task key)
  | .insertSeparator _ _ => none

/-- A reading insertion or update after its visit of a node that is at rest. -/
def Task.descended (this : Task K V) (node : Node K V) (key : K) : Task K V :=
  if node.highKey ≤ key then this.annotate node.rightSibling
  else if node.isInner then (this.annotate (node.child key)).setReadonly (!node.isBranch)
  else this.setReadonly false

theorem NodeReads.run_descend (n : Node K V) (this : Task K V) (key : K) :
    (NodeReads.descend n this key).run n.words =
      (this.descended n key, .makeSucceed (this.descended n key)) := by
  unfold NodeReads.descend Task.descended
  rw [Reads.run_bind, NodeReads.run_highKey, Reads.run_ite]
  by_cases hRight : n.highKey ≤ key
  · simp [if_pos hRight]
  · rw [if_neg hRight, if_neg hRight, Reads.run_ite]
    by_cases hInner : n.isInner = true
    · simp [if_pos hInner]
    · simp [if_neg hInner]

section Execution

variable (L : Layout K V) (coreId : Nat) (t : Tree K V) {this : Task K V} (key : K) (value : V)
  (annotated : Nat)

theorem NodeReads.run_lookup :
    (NodeReads.lookup L coreId (t.nodes annotated) this key value).run (t.nodes annotated).words =
      ((lookupExecute L coreId t this key value annotated).this,
        (lookupExecute L coreId t this key value annotated).result) := by
  unfold NodeReads.lookup lookupExecute
  rw [Reads.run_bind, NodeReads.run_highKey, Reads.run_ite]
  by_cases hRight : (t.nodes annotated).highKey ≤ key
  · simp [if_pos hRight]
  · rw [if_neg hRight, Reads.run_ite]
    by_cases hInner : (t.nodes annotated).isInner = true
    · simp [if_neg hRight, if_pos hInner]
    · rw [if_neg hInner, Reads.run_bind, NodeReads.run_index, Reads.run_bind,
        NodeReads.run_leafKey]
      dsimp only
      rw [Reads.run_ite, if_neg hRight, if_neg hInner]
      by_cases hKey :
          (t.nodes annotated).leafKey L ((t.nodes annotated).index key) = key <;> simp [hKey]

theorem updateExecute_descended (hReader : this.isReadonly = true) :
    (updateExecute L coreId t this key value annotated).this =
        this.descended (t.nodes annotated) key ∧
      (updateExecute L coreId t this key value annotated).result =
        .makeSucceed (this.descended (t.nodes annotated) key) := by
  unfold updateExecute Task.descended
  dsimp only
  split
  · exact ⟨rfl, rfl⟩
  · split
    · exact ⟨rfl, rfl⟩
    · next hInner =>
        rw [if_pos (by rw [Node.isLeaf_of_not_isInner hInner, hReader]; rfl)]
        exact ⟨rfl, rfl⟩

variable [BoundedOrder K]

theorem insertValueExecute_descended (hReader : this.isReadonly = true) :
    (insertValueExecute L coreId t this key value annotated).this =
        this.descended (t.nodes annotated) key ∧
      (insertValueExecute L coreId t this key value annotated).result =
        .makeSucceed (this.descended (t.nodes annotated) key) := by
  unfold insertValueExecute Task.descended
  dsimp only
  split
  · exact ⟨rfl, rfl⟩
  · split
    · exact ⟨rfl, rfl⟩
    · next hInner =>
        rw [if_pos (by rw [Node.isLeaf_of_not_isInner hInner, hReader]; rfl)]
        exact ⟨rfl, rfl⟩

variable {L coreId t annotated} in
/-- On a node at rest the computation has the result of the execution. -/
theorem Task.run_reads [Zero V] {task : Task K V} {ex : Execution K V}
    {program : NodeReads K V (Task K V × TaskResult K V)} (hReader : task.isReadonly = true)
    (hAnn : task.annotatedResource = some annotated)
    (hReads : task.reads L coreId (t.nodes annotated) = some program)
    (hExecute : task.execute L coreId t = some ex) :
    program.run (t.nodes annotated).words = (ex.this, ex.result) := by
  rw [Task.execute, hAnn] at hExecute
  obtain rfl := Option.some.inj hExecute
  unfold Task.reads at hReads
  cases hBody : task.body with
  | insertValue key value =>
      rw [hBody] at hReads
      obtain rfl := Option.some.inj hReads
      obtain ⟨hThis, hResult⟩ :=
        insertValueExecute_descended L coreId t key value annotated hReader
      exact (NodeReads.run_descend ..).trans (Prod.ext hThis hResult).symm
  | insertSeparator key separator => simp [hBody] at hReads
  | lookup key value coreId' =>
      rw [hBody] at hReads
      obtain rfl := Option.some.inj hReads
      exact NodeReads.run_lookup L coreId t key value annotated
  | update key value =>
      rw [hBody] at hReads
      obtain rfl := Option.some.inj hReads
      obtain ⟨hThis, hResult⟩ :=
        updateExecute_descended L coreId t key value annotated hReader
      exact (NodeReads.run_descend ..).trans (Prod.ext hThis hResult).symm

end Execution

/-- What is read does not depend on the words, only on the type of the node. -/
@[simp] theorem Task.reads_withWords (L : Layout K V) (coreId : Nat) (node : Node K V)
    (memory : ∀ field : Field, field.Word K V) (task : Task K V) :
    task.reads L coreId (node.withWords memory) = task.reads L coreId node := rfl

/-- A reader of a node in the tree `t` whose words are changed by writers at any time.  If the
version it loaded was still valid when it was done, with fewer than `2 ^ 30` write sections
completed meanwhile, it returns what its execution in one step on the node returns, with the words
the node had when the version was loaded and has had ever since, and no writer was inside. -/
theorem execution_of_run [BoundedOrder K] [Zero V] (L : Layout K V) (coreId : Nat) (t : Tree K V)
    (annotated : Nat) (task : Task K V) (hReader : task.isReadonly = true)
    (hAnn : task.annotatedResource = some annotated)
    (program : NodeReads K V (Task K V × TaskResult K V))
    (hReads : task.reads L coreId (t.nodes annotated) = some program) (singleWriter : Bool)
    (before es : List (Snapshot.Event Field (Field.Word K V) (Task K V × TaskResult K V)))
    (s₀ s₁ s₂ s₃ : Snapshot.State Field (Field.Word K V) (Task K V × TaskResult K V)) (r : Nat)
    (returned : Task K V × TaskResult K V)
    (hBefore : Run (Snapshot.Step singleWriter) (.initial (t.nodes annotated).words) before s₀)
    (hBegin : Snapshot.Step singleWriter s₀ (.begin r program) s₁)
    (hRun : Run (Snapshot.Step singleWriter) s₁ es s₂) (hSame : ∀ e ∈ es, ¬ e.Bounds r)
    (hFinish : Snapshot.Step singleWriter s₂ (.finish r returned true) s₃)
    (hFew : Snapshot.sections es < 2 ^ 30) :
    (∃ ex, task.execute L coreId (t.write annotated ((t.nodes annotated).withWords s₀.memory)) =
        some ex ∧ ex.OnlyThis (t.write annotated ((t.nodes annotated).withWords s₀.memory)) ∧
        returned = (ex.this, ex.result)) ∧
      ∀ s, Snapshot.Passes singleWriter s₁ es s₂ s →
        ¬ s.lock.Locked ∧ s.memory = s₀.memory := by
  obtain ⟨hReturned, hUnchanged⟩ :=
    Snapshot.snapshot_of_run hBefore hBegin hRun hSame hFinish hFew
  refine ⟨?_, hUnchanged⟩
  have hRequest : task.body.IsRequest := by
    unfold Task.reads at hReads
    cases hBody : task.body with
    | insertSeparator key separator => simp [hBody] at hReads
    | _ => trivial
  obtain ⟨ex, hExecute, hOnly⟩ := execute_readonly L coreId
    (t.write annotated ((t.nodes annotated).withWords s₀.memory)) annotated hRequest hReader hAnn
  refine ⟨ex, hExecute, hOnly, ?_⟩
  have hAtRest := Task.run_reads hReader hAnn (by simpa [Tree.write] using hReads) hExecute
  rw [← hAtRest, hReturned]
  simp [Tree.write]

/-- A lookup finds a node that does not reach to its key, while a writer comes in front of the
lock. -/
theorem execution_of_run_beside_writer :
    let t : Tree (Fin (2 ^ 64)) (BitVec 64) := ⟨zeroMemory, 1, some 0, 1, []⟩
    let task : Task (Fin (2 ^ 64)) (BitVec 64) := ⟨.lookup 7 0 0, some 0, true⟩
    ∃ ex, task.execute Layout.benchmark 0 (t.write 0 ((t.nodes 0).withWords (t.nodes 0).words)) =
      some ex ∧ ex.this = task.annotate none := by
  intro t task
  let program := NodeReads.lookup Layout.benchmark 0 (t.nodes 0) task 7 0
  let s₀ : Snapshot.State Field (Field.Word (Fin (2 ^ 64)) (BitVec 64))
      (Task (Fin (2 ^ 64)) (BitVec 64) × TaskResult (Fin (2 ^ 64)) (BitVec 64)) :=
    ⟨.set .initial 0 .reading, (t.nodes 0).words, fun _ => none⟩
  let s₁ := { s₀ with
    lock := s₀.lock.set 0 (.validating 0b100)
    readers := Function.update s₀.readers 0 (some program) }
  have hCall : Snapshot.Step false (.initial (t.nodes 0).words) (.lock (.call 0)) s₀ :=
    .lock (.readValid 0 rfl) (Snapshot.validating_set (fun _ => nofun) (fun _ => nofun))
  have hBegin : Snapshot.Step false s₀ (.begin 0 program) s₁ :=
    .begin program rfl (.validRead 0 rfl (by decide : Tasking.isLocked 0b100 = false)) rfl
  have hHighKey := Run.single (show Snapshot.Step false s₁ (.read 0) _ from .read rfl)
  have hWriter := hHighKey.snoc (Snapshot.Step.lock (.lock 1 rfl rfl)
    (Snapshot.validating_set (fun _ => nofun) (fun _ => nofun)))
  have hRun := hWriter.snoc (.read (r := 0) rfl)
  obtain ⟨⟨ex, hExecute, -, hReturned⟩, -⟩ := execution_of_run Layout.benchmark 0 t 0 task rfl rfl
    program rfl false _ _ _ _ _ _ 0 _ (Run.single hCall) hBegin hRun
    (by simp [Snapshot.Event.Bounds]) (.finish rfl rfl (.isValid 0 0b100 rfl)) (by decide)
  exact ⟨ex, hExecute, (congrArg Prod.fst hReturned).symm⟩

end Reads

end MxTasking.BLinkTree
