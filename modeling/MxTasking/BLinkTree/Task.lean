import MxTasking.BLinkTree.Tree

/-!
# The tasks that work on the tree

`insert_value_task.h`, `insert_separator_task.h`, `lookup_task.h` and
`update_task.h`: the `execute()` of each task, one node visit at a time.  A
task is annotated with the node it visits next; `execute()` may change the
tree, changes the task itself, says what becomes of the task (`TaskResult`)
and reports to the listener.  `LookupTask` reports from its destructor.

What `execute()` dereferences first is the annotated node; for a null
annotation there is no execution (`Task.execute` is `none`).
-/

namespace MxTasking.BLinkTree

/-- The members of a task beside its annotation.  A `LookupTask` carries the
value it will report and the core it ran on; both are unset until its leaf step. -/
inductive TaskBody (K V : Type*) where
  | insertValue (key : K) (value : V)
  | insertSeparator (key : K) (separator : Ptr)
  | lookup (key : K) (value : V) (coreId : Nat)
  | update (key : K) (value : V)

/-- A task with its annotations. -/
structure Task (K V : Type*) where
  body : TaskBody K V
  annotatedResource : Ptr
  isReadonly : Bool

/-- The calls of `Listener`. -/
inductive ListenerCall (K V : Type*) where
  | inserted (coreId : Nat) (key : K) (value : V)
  | updated (coreId : Nat) (key : K) (value : V)
  | found (coreId : Nat) (key : K) (value : V)
  | missing (coreId : Nat) (key : K)
  deriving DecidableEq, Repr

/-- `TaskResult`: the task to spawn next, if any, and whether the executed task is
to be deleted. -/
structure TaskResult (K V : Type*) where
  successor : Option (Task K V)
  isRemove : Bool

namespace TaskResult

variable {K V : Type*}

def makeSucceed (successor : Task K V) : TaskResult K V := ⟨some successor, false⟩

def makeRemove : TaskResult K V := ⟨none, true⟩

def makeSucceedAndRemove (successor : Task K V) : TaskResult K V := ⟨some successor, true⟩

end TaskResult

/-- Everything one `execute()` leaves behind: the tree, the task object itself, its
result and the calls it made. -/
structure Execution (K V : Type*) where
  tree : Tree K V
  this : Task K V
  result : TaskResult K V
  calls : List (ListenerCall K V)

namespace TaskBody

variable {K V : Type*}

/-- `_key`. -/
def key : TaskBody K V → K
  | .insertValue key _ => key
  | .insertSeparator key _ => key
  | .lookup key _ _ => key
  | .update key _ => key

/-- What the destructor of the task reports. -/
def destructor : TaskBody K V → List (ListenerCall K V)
  | .lookup key value coreId => [.found coreId key value]
  | _ => []

end TaskBody

namespace Task

variable {K V : Type*}

def annotate (task : Task K V) (resource : Ptr) : Task K V :=
  { task with annotatedResource := resource }

def setReadonly (task : Task K V) (isReadonly : Bool) : Task K V :=
  { task with isReadonly := isReadonly }

end Task

section Execute

variable {K V : Type*} [LinearOrder K] [BoundedOrder K]

/-- `InsertValueTask::execute`. -/
def insertValueExecute (L : Layout K V) (coreId : Nat) (t : Tree K V)
    (this : Task K V) (key : K) (value : V) (annotated : Nat) : Execution K V :=
  let node := t.nodes annotated
  -- Is the node related to the key?
  if node.highKey ≤ key then
    let this := this.annotate node.rightSibling
    ⟨t, this, .makeSucceed this, []⟩
  -- If we are accessing an inner node, pick the next related child.
  else if node.isInner then
    let this := (this.annotate (node.child key)).setReadonly (!node.isBranch)
    ⟨t, this, .makeSucceed this, []⟩
  -- Is it a leaf, but we are still reading? Upgrade to writer.
  else if node.isLeaf && this.isReadonly then
    let this := this.setReadonly false
    ⟨t, this, .makeSucceed this, []⟩
  else
    let index := node.index key
    if index < node.size ∧ node.leafKey L index = key then
      ⟨t, this, .makeRemove, [.inserted coreId key value]⟩
    else if node.full L = false then
      ⟨t.write annotated (node.insertValue index value key), this, .makeRemove,
        [.inserted coreId key value]⟩
    else
      let (t, right, upKey) := t.splitLeaf L annotated key value
      match (t.nodes annotated).parent with
      | some parent =>
          ⟨t, this, .makeSucceedAndRemove
            ⟨.insertSeparator upKey (some right), some parent, false⟩, []⟩
      | none =>
          ⟨t.createNewRoot annotated (some right) upKey, this, .makeRemove,
            [.inserted coreId key value]⟩

/-- `InsertSeparatorTask::execute`. -/
def insertSeparatorExecute [Zero V] (L : Layout K V) (coreId : Nat) (t : Tree K V)
    (this : Task K V) (key : K) (separator : Ptr) (annotated : Nat) :
    Execution K V :=
  let node := t.nodes annotated
  -- Is the node related to the key?
  if node.highKey ≤ key then
    let this := this.annotate node.rightSibling
    ⟨t, this, .makeSucceed this, []⟩
  else if node.full L = false then
    let t := t.write annotated (node.insertSeparator (node.index key) separator key)
    ⟨t.setParent separator (some annotated), this, .makeRemove,
      [.inserted coreId key 0]⟩
  else
    let (t, right, upKey) := t.splitInner L annotated key separator
    match (t.nodes annotated).parent with
    | some parent =>
        let this := { this with body := .insertSeparator upKey (some right) }
        let this := this.annotate (some parent)
        ⟨t, this, .makeSucceed this, []⟩
    | none =>
        ⟨t.createNewRoot annotated (some right) upKey, this, .makeRemove,
          [.inserted coreId key 0]⟩

/-- `LookupTask::execute`. -/
def lookupExecute (L : Layout K V) (coreId : Nat) (t : Tree K V) (this : Task K V)
    (key : K) (value : V) (annotated : Nat) : Execution K V :=
  let node := t.nodes annotated
  -- Is the node related to the key?
  if node.highKey ≤ key then
    let this := this.annotate node.rightSibling
    ⟨t, this, .makeSucceed this, []⟩
  -- If we are accessing an inner node, pick the next related child.
  else if node.isInner then
    let this := this.annotate (node.child key)
    ⟨t, this, .makeSucceed this, []⟩
  -- We are accessing the correct leaf.
  else
    let index := node.index key
    let value := if node.leafKey L index = key then node.values index else value
    let this := { this with body := .lookup key value coreId }
    ⟨t, this, .makeRemove, []⟩

/-- `UpdateTask::execute`. -/
def updateExecute (L : Layout K V) (coreId : Nat) (t : Tree K V) (this : Task K V)
    (key : K) (value : V) (annotated : Nat) : Execution K V :=
  let node := t.nodes annotated
  -- Is the node related to the key?
  if node.highKey ≤ key then
    let this := this.annotate node.rightSibling
    ⟨t, this, .makeSucceed this, []⟩
  -- If we are accessing an inner node, pick the next related child.
  else if node.isInner then
    let this := (this.annotate (node.child key)).setReadonly (!node.isBranch)
    ⟨t, this, .makeSucceed this, []⟩
  -- If the task is still reading, but this is a leaf, spawn again as writer.
  else if node.isLeaf && this.isReadonly then
    let this := this.setReadonly false
    ⟨t, this, .makeSucceed this, []⟩
  -- We are accessing the correct leaf.
  else
    let index := node.index key
    let slotKey := node.leafKey L index
    if slotKey = key then
      ⟨t.write annotated (node.setValue index value), this, .makeRemove,
        [.updated coreId slotKey value]⟩
    else
      ⟨t, this, .makeRemove, [.missing coreId slotKey]⟩

/-- The virtual `execute()` of a task on its annotated node. -/
def Task.execute [Zero V] (L : Layout K V) (coreId : Nat) (t : Tree K V)
    (task : Task K V) : Option (Execution K V) :=
  match task.annotatedResource with
  | none => none
  | some annotated =>
      some <| match task.body with
      | .insertValue key value => insertValueExecute L coreId t task key value annotated
      | .insertSeparator key separator =>
          insertSeparatorExecute L coreId t task key separator annotated
      | .lookup key value _ => lookupExecute L coreId t task key value annotated
      | .update key value => updateExecute L coreId t task key value annotated

end Execute

end MxTasking.BLinkTree
