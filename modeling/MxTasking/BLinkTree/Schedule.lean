import MxTasking.BLinkTree.System

/-!
# Runs by a schedule

The steps of the system leave open which task is executed next.  A schedule decides it: requests are
spawned one after the other, and it is always the newest task that is executed, with its successor
in its place.  What a schedule makes of the tree can be computed, and it is a run of the system.

The smallest nodes that a tree can have hold two keys.  With them a few inserts make a tree of
several levels.

## Main results

* `run_of_schedule` — a schedule that goes through is a run.
-/

namespace MxTasking.BLinkTree

/-- What a schedule does next. -/
inductive Choice (K V : Type*) where
  | spawn (request : TaskBody K V) (isReadonly : Bool)
  | execute (coreId : Nat)

/-- How far a schedule has come; the newest task is the first one. -/
structure Stage (K V : Type*) where
  log : List (Event K V)
  tree : Tree K V
  tasks : List (Task K V)

/-- The state of the system. -/
def Stage.state {K V : Type*} (o : Stage K V) : State K V := ⟨o.tree, ↑o.tasks⟩

instance TaskBody.decidableIsRequest {K V : Type*} (body : TaskBody K V) :
    Decidable body.IsRequest :=
  match body with
  | .insertValue _ _ | .lookup _ _ _ | .update _ _ => .isTrue trivial
  | .insertSeparator _ _ => .isFalse not_false

section Schedule

variable {K V : Type*} [LinearOrder K] [BoundedOrder K] [Zero V]

/-- One choice; it fails where there is no such step. -/
def Stage.perform (L : Layout K V) (o : Stage K V) : Choice K V → Option (Stage K V)
  | .spawn request isReadonly =>
      if request.IsRequest ∧ request.key < ⊤ then
        some
          { o with
            log := o.log ++ [.spawn request]
            tasks := ⟨request, o.tree.root, isReadonly⟩ :: o.tasks }
      else none
  | .execute coreId =>
      match o.tasks with
      | [] => none
      | task :: rest => (task.execute L coreId o.tree).map fun ex =>
          { log := o.log ++ [.execute coreId task ex.allCalls (task.leafStep o.tree)]
            tree := ex.tree
            tasks := ex.result.successor.toList ++ rest }

variable {L : Layout K V} {o o' : Stage K V}

theorem step_of_perform {choice : Choice K V} (h : o.perform L choice = some o') :
    ∃ e, o'.log = o.log ++ [e] ∧ BoundedStep L o.state e o'.state := by
  cases choice with
  | spawn request isReadonly =>
      by_cases hRequest : request.IsRequest ∧ request.key < ⊤
      · rw [Stage.perform, if_pos hRequest] at h
        obtain rfl := Option.some.inj h
        exact ⟨_, rfl, BoundedStep.spawn o.state request hRequest.1 hRequest.2 isReadonly⟩
      · rw [Stage.perform, if_neg hRequest] at h
        exact absurd h nofun
  | execute coreId =>
      cases hTasks : o.tasks with
      | nil =>
          simp only [Stage.perform, hTasks] at h
          exact absurd h nofun
      | cons task rest =>
          simp only [Stage.perform, hTasks] at h
          obtain ⟨ex, hEx, rfl⟩ := Option.map_eq_some_iff.mp h
          have hState : o.state.tasks = task ::ₘ ↑rest := by
            rw [Stage.state, hTasks, Multiset.cons_coe]
          exact ⟨_, rfl, BoundedStep.execute coreId task ↑rest hState hEx⟩

/-- What a schedule does is a run of the system. -/
theorem run_of_schedule {s : State K V} (choices : List (Choice K V)) :
    ∀ o : Stage K V, Verified.Run (BoundedStep L) s o.log o.state →
      choices.foldlM (Stage.perform L) o = some o' →
        Verified.Run (BoundedStep L) s o'.log o'.state := by
  induction choices with
  | nil =>
      intro o hRun h
      obtain rfl := Option.some.inj h
      exact hRun
  | cons choice choices ih =>
      intro o hRun h
      obtain ⟨mid, hFirst, hRest⟩ := Option.bind_eq_some_iff.mp h
      obtain ⟨e, hLog, hStep⟩ := step_of_perform hFirst
      refine ih mid ?_ hRest
      rw [hLog]
      exact hRun.snoc hStep

end Schedule

/-! ## Splits -/

/-- The layout for a `config::node_size()` of 112 bytes, the least one with two keys for a node. -/
def Layout.smallest : Layout (Fin (2 ^ 64)) (BitVec 64) where
  maxKeys := (112 - 40 - 32 - 8) / 16
  maxItems := (112 - 40 - 32) / 16
  keyOfValue := BitVec.toFin
  two_le_maxKeys := by decide
  maxKeys_lt := by decide
  two_le_maxItems := by decide
  maxItems_lt := by decide

/-- The schedule over a new tree. -/
def afterSchedule (choices : List (Choice (Fin (2 ^ 64)) (BitVec 64))) :
    Option (Stage (Fin (2 ^ 64)) (BitVec 64)) :=
  choices.foldlM (Stage.perform Layout.smallest) ⟨[], Tree.construct zeroMemory, []⟩

/-- The third insert splits the first leaf and makes a root above it, the fourth one splits the
second leaf. -/
def fourInserts : List (Choice (Fin (2 ^ 64)) (BitVec 64)) :=
  [.spawn (.insertValue 1 10) false, .execute 0,
   .spawn (.insertValue 2 20) false, .execute 0,
   .spawn (.insertValue 3 30) false, .execute 0,
   .spawn (.insertValue 4 40) false, .execute 0, .execute 0]

/-- The separator for the third leaf is on its way to the root. -/
def carrying : Stage (Fin (2 ^ 64)) (BitVec 64) := (afterSchedule fourInserts).get (by decide)

/-- The fifth insert splits the third leaf, and its separator splits the root. -/
def threeLevels : Stage (Fin (2 ^ 64)) (BitVec 64) :=
  (afterSchedule (fourInserts ++ [.execute 0,
    .spawn (.insertValue 5 50) false, .execute 0, .execute 0, .execute 0])).get (by decide)

theorem run_carrying :
    Verified.Run (BoundedStep Layout.smallest) (State.initial zeroMemory) carrying.log
      carrying.state :=
  run_of_schedule _ _ Verified.Run.nil (Option.some_get _).symm

theorem run_threeLevels :
    Verified.Run (BoundedStep Layout.smallest) (State.initial zeroMemory) threeLevels.log
      threeLevels.state :=
  run_of_schedule _ _ Verified.Run.nil (Option.some_get _).symm

example : carrying.tree.count = 4 ∧ carrying.tasks.length = 1 ∧ carrying.tree.height = 2 := by
  decide

example : threeLevels.tree.count = 7 ∧ threeLevels.tasks.length = 0 ∧
    threeLevels.tree.height = 3 := by decide

end MxTasking.BLinkTree
