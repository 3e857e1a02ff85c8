import MxTasking.BLinkTree.Task
import MxTasking.Verified.TransitionSystem
import Mathlib.Data.Multiset.AddSub

/-!
# The tree with its tasks in flight

The state is the tree and the multiset of tasks in flight.  A step either
spawns a request, annotated with the root the tree has at that moment, or takes one task
in flight, in any order, and executes it atomically on its annotated node; that
one `execute()` at a time works on a node is what the synchronization primitive of
the node is for.  The worker then spawns the successor and deletes
the task if it was told to.

A request may be spawned as a reader or as a writer: the request scheduler
decides this by a height it read earlier, so both occur for every height.
-/

namespace MxTasking.BLinkTree

/-- The operations of a map. -/
inductive MapOp (K V : Type*) where
  | insert (key : K) (value : V)
  | lookup (key : K)
  | update (key : K) (value : V)
  deriving DecidableEq, Repr

/-- What a step did: the request spawned, or the task executed with its core, its listener
calls and, if this was the task's leaf step, the map operation. -/
inductive Event (K V : Type*) where
  | spawn (request : TaskBody K V)
  | execute (coreId : Nat) (task : Task K V) (calls : List (ListenerCall K V))
      (leafStep : Option (MapOp K V))

/-- The tree and the tasks in flight. -/
structure State (K V : Type*) where
  tree : Tree K V
  tasks : Multiset (Task K V)

namespace TaskBody

variable {K V : Type*}

/-- The tasks a client spawns. -/
def IsRequest : TaskBody K V → Prop
  | .insertSeparator _ _ => False
  | _ => True

/-- The map operation of a request. -/
def mapOp : TaskBody K V → Option (MapOp K V)
  | .insertValue key value => some (.insert key value)
  | .lookup key _ _ => some (.lookup key)
  | .update key value => some (.update key value)
  | .insertSeparator _ _ => none

/-- Whether the task must be a writer to work on the records of a leaf. -/
def writes : TaskBody K V → Bool
  | .lookup _ _ _ => false
  | _ => true

end TaskBody

section Step

variable {K V : Type*} [LinearOrder K] [BoundedOrder K]

/-- The leaf step of a task is the execution that works on the records: on a
leaf whose high key is above the key, as a writer unless the task only looks up. -/
def Task.leafStep (t : Tree K V) (task : Task K V) : Option (MapOp K V) :=
  match task.annotatedResource with
  | none => none
  | some annotated =>
      let node := t.nodes annotated
      if node.highKey ≤ task.body.key ∨ node.isInner ∨ (task.body.writes ∧ task.isReadonly)
      then none
      else task.body.mapOp

/-- The listener calls of an execution, those of the destructor included. -/
def Execution.allCalls (ex : Execution K V) : List (ListenerCall K V) :=
  ex.calls ++ if ex.result.isRemove then ex.this.body.destructor else []

/-- The steps of the system. -/
inductive Step [Zero V] (L : Layout K V) : State K V → Event K V → State K V → Prop where
  | spawn {s : State K V} (request : TaskBody K V) (isReadonly : Bool) :
      request.IsRequest →
      Step L s (.spawn request)
        { s with tasks := ⟨request, s.tree.root, isReadonly⟩ ::ₘ s.tasks }
  | execute {s : State K V} (coreId : Nat) {task : Task K V}
      {rest : Multiset (Task K V)} {ex : Execution K V} :
      s.tasks = task ::ₘ rest → task.execute L coreId s.tree = some ex →
      Step L s (.execute coreId task ex.allCalls (task.leafStep s.tree))
        { tree := ex.tree, tasks := ↑ex.result.successor.toList + rest }

/-- The state after `BLinkTree::BLinkTree` over the given memory. -/
def State.initial (memory : Nat → Node K V) : State K V :=
  { tree := Tree.construct memory, tasks := 0 }

/-- A request whose key is not the largest value of the key type. -/
def Event.KeyBelowMax : Event K V → Prop
  | .spawn request => request.key < ⊤
  | .execute _ _ _ _ => True

/-- The steps in which every request spawned has a key below the maximum. -/
def BoundedStep [Zero V] (L : Layout K V) : State K V → Event K V → State K V → Prop :=
  Verified.Guarded (Step L) (fun _ e => e.KeyBelowMax)

/-- Spawning a request with a key below the maximum. -/
theorem BoundedStep.spawn [Zero V] {L : Layout K V} (s : State K V)
    (request : TaskBody K V) (hRequest : request.IsRequest) (hKey : request.key < ⊤)
    (isReadonly : Bool) :
    BoundedStep L s (.spawn request)
      { s with tasks := ⟨request, s.tree.root, isReadonly⟩ ::ₘ s.tasks } :=
  ⟨hKey, Step.spawn request isReadonly hRequest⟩

/-- Executing a task in flight. -/
theorem BoundedStep.execute [Zero V] {L : Layout K V} {s : State K V} (coreId : Nat)
    (task : Task K V) (rest : Multiset (Task K V)) {ex : Execution K V}
    (hTasks : s.tasks = task ::ₘ rest) (hEx : task.execute L coreId s.tree = some ex) :
    BoundedStep L s (.execute coreId task ex.allCalls (task.leafStep s.tree))
      { tree := ex.tree, tasks := ↑ex.result.successor.toList + rest } :=
  ⟨trivial, Step.execute coreId hTasks hEx⟩

end Step

/-- Memory full of zeros. -/
def zeroMemory : Nat → Node (Fin (2 ^ 64)) (BitVec 64) := fun _ =>
  ⟨.leaf, 0, none, none, 0, fun _ => 0, fun _ => 0, fun _ => none⟩

section Map

variable {K V : Type*} [DecidableEq K]

/-- The effect of a map operation: an insert keeps a value that is there, an
update needs one. -/
def MapOp.apply (m : K → Option V) : MapOp K V → K → Option V
  | .insert key value => if m key = none then Function.update m key (some value) else m
  | .lookup _ => m
  | .update key value => if m key = none then m else Function.update m key (some value)

/-- The map operation of an event. -/
def Event.mapOp : Event K V → Option (MapOp K V)
  | .spawn _ => none
  | .execute _ _ _ leafStep => leafStep

/-- The map after the leaf steps of a log, in step order. -/
def mapAfter (log : List (Event K V)) : K → Option V :=
  (log.filterMap Event.mapOp).foldl MapOp.apply (fun _ => none)

/-- One more event. -/
theorem mapAfter_snoc (log : List (Event K V)) (e : Event K V) :
    mapAfter (log ++ [e]) = e.mapOp.elim (mapAfter log) (MapOp.apply (mapAfter log)) := by
  unfold mapAfter
  rw [List.filterMap_append, List.foldl_append]
  cases hOp : e.mapOp with
  | none => simp [hOp]
  | some op => simp [hOp]

end Map

end MxTasking.BLinkTree
