import MxTasking.BLinkTree.System

/-!
# Optimistic reads of the tree

`Worker::execute_optimistic_read` of `worker.cpp` with the `TaskStack` of `task_stack.h`: the task
is saved, executed without a latch on whatever the node shows at that moment, and restored and
executed again as long as the version of the node has changed meanwhile.  Only the bytes of the
task are restored, so an attempt that is not accepted must not have touched anything else.

The contents an attempt sees are part of the input: they may be a mixture of what writers left
there, and are put in place of the node before the attempt.  What the attempt does
to the tree, to the listener and to new tasks stays.

## Main results

* `optimisticLoop_eq` — if attempts leave the world alone, only the accepted one counts.
* `World.execute_readonly` — a reading lookup, update or insertion changes nothing but itself.
* `optimistic_read_of_readonly` — the two together.
-/

namespace MxTasking.BLinkTree

/-! ## The worker -/

section Worker

variable {σ τ ρ ω : Type*}

/-- `TaskStack`: room for one task. -/
structure TaskStack (τ : Type*) where
  data : τ

namespace TaskStack

/-- `save(task)`. -/
def save (task : τ) : TaskStack τ := ⟨task⟩

/-- `restore(task)`. -/
def restore (stack : TaskStack τ) : τ := stack.data

end TaskStack

/-- The loop of `execute_optimistic_read`.  An attempt sees some contents of the resource, and
its version is valid afterwards or not; without further attempts the loop is still running. -/
def optimisticLoop (execute : σ → τ → Option (σ × τ × ρ)) (see : σ → ω → σ)
    (stack : TaskStack τ) : σ → τ → List (ω × Bool) → Option (σ × τ × ρ)
  | _, _, [] => none
  | world, task, (contents, isVersionValid) :: attempts =>
      match execute (see world contents) task with
      | none => none
      | some (world, task, result) =>
          if isVersionValid then some (world, task, result)
          else optimisticLoop execute see stack world stack.restore attempts

/-- `execute_optimistic_read(…, task)`. -/
def executeOptimisticRead (execute : σ → τ → Option (σ × τ × ρ)) (see : σ → ω → σ)
    (world : σ) (task : τ) (attempts : List (ω × Bool)) : Option (σ × τ × ρ) :=
  optimisticLoop execute see (TaskStack.save task) world task attempts

/-- If an attempt leaves the world alone, what is left of the failed ones is overwritten by the
contents the next one sees. -/
theorem optimisticLoop_eq {execute : σ → τ → Option (σ × τ × ρ)} {see : σ → ω → σ} {saved : τ}
    (hFrame : ∀ world, ∃ task result, execute world saved = some (world, task, result))
    (hSee : ∀ world contents contents', see (see world contents) contents' = see world contents')
    (failed : List ω) (accepted : ω) (world : σ) :
    optimisticLoop execute see (TaskStack.save saved) world saved
      (failed.map (·, false) ++ [(accepted, true)]) = execute (see world accepted) saved := by
  induction failed generalizing world with
  | nil =>
      obtain ⟨task, result, hExecute⟩ := hFrame (see world accepted)
      simp [optimisticLoop, hExecute]
  | cons contents failed ih =>
      obtain ⟨task, result, hExecute⟩ := hFrame (see world contents)
      rw [List.map_cons, List.cons_append, optimisticLoop, hExecute]
      have hRest := ih (see world contents)
      rw [hSee] at hRest
      exact hRest

end Worker

/-! ## Reading tasks -/

section Tasks

variable {K V : Type*}

/-- The tree, what the listener has been told and the tasks that were made. -/
structure World (K V : Type*) where
  tree : Tree K V
  calls : List (ListenerCall K V)
  created : List (Task K V)

namespace World

/-- The node shows some contents. -/
def see (address : Nat) (world : World K V) (contents : Node K V) : World K V :=
  { world with tree := world.tree.write address contents }

theorem see_see (address : Nat) (world : World K V) (contents contents' : Node K V) :
    see address (see address world contents) contents' = see address world contents' := by
  simp [see, Tree.write]

variable [LinearOrder K] [BoundedOrder K] [Zero V]

/-- `task->execute(…)` with all it leaves behind.  A successor beside a task that is to be removed
is a new task. -/
def execute (L : Layout K V) (coreId : Nat) (world : World K V) (task : Task K V) :
    Option (World K V × Task K V × TaskResult K V) :=
  (task.execute L coreId world.tree).map fun ex =>
    ({ tree := ex.tree
       calls := world.calls ++ ex.calls
       created := world.created ++
        (if ex.result.isRemove then ex.result.successor.toList else []) },
      ex.this, ex.result)

end World

variable [LinearOrder K]

/-- The execution has left the tree alone, called nobody and made no task. -/
structure Execution.OnlyThis (t : Tree K V) (ex : Execution K V) : Prop where
  tree : ex.tree = t
  calls : ex.calls = []
  successor : ex.result = .makeSucceed ex.this ∨ ex.result = .makeRemove

section Execute

variable (L : Layout K V) (coreId : Nat) (t : Tree K V) {this : Task K V} (key : K) (value : V)
  (annotated : Nat)

theorem updateExecute_readonly (hReader : this.isReadonly = true) :
    (updateExecute L coreId t this key value annotated).OnlyThis t := by
  unfold updateExecute
  dsimp only
  split
  · exact ⟨rfl, rfl, Or.inl rfl⟩
  · split
    · exact ⟨rfl, rfl, Or.inl rfl⟩
    · next hInner =>
        rw [if_pos (by rw [Node.isLeaf_of_not_isInner hInner, hReader]; rfl)]
        exact ⟨rfl, rfl, Or.inl rfl⟩

/-- A lookup writes in no mode; its listener is called by its destructor. -/
theorem lookupExecute_onlyThis :
    (lookupExecute L coreId t this key value annotated).OnlyThis t := by
  unfold lookupExecute
  dsimp only
  split
  · exact ⟨rfl, rfl, Or.inl rfl⟩
  · split
    · exact ⟨rfl, rfl, Or.inl rfl⟩
    · exact ⟨rfl, rfl, Or.inr rfl⟩

variable [BoundedOrder K]

theorem insertValueExecute_readonly (hReader : this.isReadonly = true) :
    (insertValueExecute L coreId t this key value annotated).OnlyThis t := by
  unfold insertValueExecute
  dsimp only
  split
  · exact ⟨rfl, rfl, Or.inl rfl⟩
  · split
    · exact ⟨rfl, rfl, Or.inl rfl⟩
    · next hInner =>
        -- a leaf is not written by a reader, which comes back as a writer
        rw [if_pos (by rw [Node.isLeaf_of_not_isInner hInner, hReader]; rfl)]
        exact ⟨rfl, rfl, Or.inl rfl⟩

/-- Whatever the node shows, a reading request changes only itself. -/
theorem execute_readonly [Zero V] {task : Task K V} (hRequest : task.body.IsRequest)
    (hReader : task.isReadonly = true) (hAnn : task.annotatedResource = some annotated) :
    ∃ ex, task.execute L coreId t = some ex ∧ ex.OnlyThis t := by
  rw [Task.execute, hAnn]
  refine ⟨_, rfl, ?_⟩
  cases hBody : task.body with
  | insertValue key value =>
      exact insertValueExecute_readonly L coreId t key value annotated hReader
  | insertSeparator key separator =>
      rw [hBody] at hRequest
      exact hRequest.elim
  | lookup key value coreId' => exact lookupExecute_onlyThis L coreId t key value annotated
  | update key value => exact updateExecute_readonly L coreId t key value annotated hReader

theorem World.execute_readonly [Zero V] {task : Task K V} (hRequest : task.body.IsRequest)
    (hReader : task.isReadonly = true) (hAnn : task.annotatedResource = some annotated)
    (world : World K V) :
    ∃ task' result, world.execute L coreId task = some (world, task', result) ∧
      (result = .makeSucceed task' ∨ result = .makeRemove) := by
  obtain ⟨ex, hExecute, hOnly⟩ :=
    BLinkTree.execute_readonly L coreId world.tree annotated hRequest hReader hAnn
  refine ⟨ex.this, ex.result, ?_, hOnly.successor⟩
  have hCreated : (if ex.result.isRemove then ex.result.successor.toList else []) = [] := by
    rcases hOnly.successor with hResult | hResult <;> rw [hResult] <;> rfl
  rw [execute, hExecute, Option.map_some, hCreated, hOnly.tree, hOnly.calls, List.append_nil,
    List.append_nil]

end Execute

variable [BoundedOrder K]

/-- A lookup, an update or an insertion that is reading changes nothing but the task itself, in any
tree and on any contents of its node.  So, after any number of attempts on any contents, what an
optimistic read returns and leaves is what one execution of the task on the contents of
the accepted attempt returns and leaves. -/
theorem optimistic_read_of_readonly [Zero V] (L : Layout K V) (coreId : Nat) (task : Task K V)
    (address : Nat) (world : World K V) (hRequest : task.body.IsRequest)
    (hReader : task.isReadonly = true) (hAnn : task.annotatedResource = some address) :
    (∃ task' result, world.execute L coreId task = some (world, task', result) ∧
      (result = .makeSucceed task' ∨ result = .makeRemove)) ∧
    ∀ (failed : List (Node K V)) (accepted : Node K V),
      executeOptimisticRead (World.execute L coreId) (World.see address) world task
        (failed.map (·, false) ++ [(accepted, true)]) =
          (World.see address world accepted).execute L coreId task := by
  refine ⟨World.execute_readonly L coreId address hRequest hReader hAnn world,
    fun failed accepted => optimisticLoop_eq (fun world => ?_) (World.see_see address) failed
      accepted world⟩
  obtain ⟨task', result, hExecute, -⟩ :=
    World.execute_readonly L coreId address hRequest hReader hAnn world
  exact ⟨task', result, hExecute⟩

end Tasks

/-- An insertion that reads the root leaf, which shows a lower high key and a sibling to the
attempt that fails. -/
theorem optimistic_read_of_reading_insertion :
    executeOptimisticRead (World.execute Layout.benchmark 0) (World.see 0)
        ⟨Tree.construct zeroMemory, [], []⟩ ⟨.insertValue 5 7, some 0, true⟩
        [({ zeroMemory 0 with highKey := 3, rightSibling := some 4 }, false),
          ({ zeroMemory 0 with highKey := ⊤ }, true)] =
      (World.see 0 ⟨Tree.construct zeroMemory, [], []⟩
        { zeroMemory 0 with highKey := ⊤ }).execute Layout.benchmark 0
          ⟨.insertValue 5 7, some 0, true⟩ :=
  (optimistic_read_of_readonly Layout.benchmark 0 ⟨.insertValue 5 7, some 0, true⟩ 0
    ⟨Tree.construct zeroMemory, [], []⟩ trivial rfl rfl).2
      [{ zeroMemory 0 with highKey := 3, rightSibling := some 4 }]
      { zeroMemory 0 with highKey := ⊤ }

end MxTasking.BLinkTree
