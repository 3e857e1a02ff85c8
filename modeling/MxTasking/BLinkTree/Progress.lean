import MxTasking.BLinkTree.Requests
import Mathlib.Algebra.Order.BigOperators.Group.Multiset
import Mathlib.Algebra.Order.Group.Nat
import Mathlib.Order.WellFounded

/-!
# Every task gets to its end

Two questions about a task on its way.  Does it ever follow a null pointer?  Not if its key is
below the maximum of the key type; a request with that maximum goes right on the root level until
there is no right sibling.  And does it come to an end?  It does, whatever the other tasks do.

No single number goes down with every step, since a split puts new nodes in the way of
the others.  But splits are limited.  The tree cannot grow by more levels than there are inserts in
flight, and an insert, with the separator task that succeeds it, splits at most once on
every level (`splitsLeft`).  Between two splits the shape of the tree stands still, and
there a task only moves to the right on its level, down, or from reader to writer (`wayLeft`).

## Main results

* `links_of_run` — which requests follow null pointers.
* `tasks_finish` — without new requests every order of executions is finite and leaves no
  task behind.
-/

namespace MxTasking.BLinkTree

open AbstractTree
open MxTasking.Verified.IntervalChain

variable {K V : Type*}

/-! ## The measure -/

section Definitions

variable [LinearOrder K]

namespace AbstractTree

/-- The level of the root. -/
def top (a : AbstractTree K V) : Nat := (a.nodes a.root).level

/-- The nodes behind `p` on its level. -/
def behind (a : AbstractTree K V) (p : Nat) : Finset Nat :=
  (a.levelSet (a.nodes p).level).filter fun q => (a.nodes p).low < (a.nodes q).low

/-- The two trees have the same nodes on the same levels under the same root. -/
structure SameShape (a a' : AbstractTree K V) : Prop where
  grows : a.Extends a'
  count_eq : a'.count = a.count
  root_eq : a'.root = a.root

end AbstractTree

/-- The node a task is annotated with. -/
def Task.node (task : Task K V) : Nat := task.annotatedResource.getD 0

/-- Whether the task may still split nodes. -/
def Task.inserting (task : Task K V) : Nat :=
  match task.body with
  | .insertValue _ _ => 1
  | .insertSeparator _ _ => 1
  | _ => 0

/-- No more levels than this can exist before the tasks in flight have ended. -/
def levelBound (a : AbstractTree K V) (tasks : Multiset (Task K V)) : Nat :=
  a.top + (tasks.map Task.inserting).sum

/-- How often a task and its successors can still split a node, and one more for its end. -/
def Task.splits (a : AbstractTree K V) (bound : Nat) (task : Task K V) : Nat :=
  match task.body with
  | .insertValue _ _ => bound + 2
  | .insertSeparator _ _ => bound + 1 - (a.nodes task.node).level
  | _ => 0

/-- How far a task is from its end while the tree keeps its shape. -/
def Task.way (a : AbstractTree K V) (task : Task K V) : Nat :=
  1 + (a.nodes task.node).level * (2 * a.count + 3) + 2 * (a.behind task.node).card +
    if task.isReadonly then 1 else 0

def splitsLeft (a : AbstractTree K V) (tasks : Multiset (Task K V)) : Nat :=
  (tasks.map (Task.splits a (levelBound a tasks))).sum

def wayLeft (a : AbstractTree K V) (tasks : Multiset (Task K V)) : Nat :=
  (tasks.map (Task.way a)).sum

end Definitions

section Measure

variable {a a' : AbstractTree K V} {task next : Task K V} {tasks : Multiset (Task K V)} {b b' : Nat}

namespace AbstractTree.SameShape

theorem top_eq (h : a.SameShape a') (hRoot : a.root < a.count) : a'.top = a.top := by
  unfold top
  rw [h.root_eq, h.grows.level_eq _ hRoot]

theorem symm (h : a.SameShape a') : a'.SameShape a :=
  { grows :=
      { count_le := le_of_eq h.count_eq
        level_eq := fun p hp => (h.grows.level_eq p (by rw [← h.count_eq]; exact hp)).symm
        low_eq := fun p hp => (h.grows.low_eq p (by rw [← h.count_eq]; exact hp)).symm }
    count_eq := h.count_eq.symm
    root_eq := h.root_eq.symm }

end AbstractTree.SameShape

/-- Later trees and smaller bounds leave fewer splits. -/
theorem Task.splits_mono (hExt : a.Extends a') (hb : b' ≤ b) (hp : task.node < a.count) :
    task.splits a' b' ≤ task.splits a b := by
  unfold Task.splits
  cases task.body with
  | insertValue key value => exact Nat.add_le_add_right hb 2
  | insertSeparator key separator =>
      simp only [hExt.level_eq _ hp]
      omega
  | lookup key value core => exact le_refl _
  | update key value => exact le_refl _

theorem levelBound_cons (a : AbstractTree K V) (task : Task K V) (tasks : Multiset (Task K V)) :
    levelBound a (task ::ₘ tasks) = levelBound a tasks + task.inserting := by
  rw [levelBound, levelBound, Multiset.map_cons, Multiset.sum_cons]
  omega

theorem splitsLeft_cons (a : AbstractTree K V) (task : Task K V) (tasks : Multiset (Task K V)) :
    splitsLeft a (task ::ₘ tasks) =
      task.splits a (levelBound a (task ::ₘ tasks)) +
        (tasks.map (Task.splits a (levelBound a (task ::ₘ tasks)))).sum := by
  rw [splitsLeft, Multiset.map_cons, Multiset.sum_cons]

theorem inserting_of_inserts (h : task.body.Inserts) : task.inserting = 1 := by
  unfold Task.inserting
  cases hBody : task.body <;> simp_all [TaskBody.Inserts]

theorem inserting_of_not_inserts (h : ¬ task.body.Inserts) : task.inserting = 0 := by
  unfold Task.inserting
  cases hBody : task.body <;> simp_all [TaskBody.Inserts]

theorem splits_pos (h : task.body.Inserts) (hLevel : (a.nodes task.node).level ≤ b) :
    0 < task.splits a b := by
  unfold Task.splits
  cases hBody : task.body with
  | insertValue key value => exact Nat.succ_pos _
  | insertSeparator key separator => simp only; omega
  | _ => rw [hBody] at h; exact absurd h not_false

theorem splits_of_not_inserts (h : ¬ task.body.Inserts) (b : Nat) : task.splits a b = 0 := by
  unfold Task.splits
  cases hBody : task.body <;> simp_all [TaskBody.Inserts]

variable [LinearOrder K]

theorem AbstractTree.behind_card_le (a : AbstractTree K V) (p : Nat) :
    (a.behind p).card ≤ a.count := by
  have hSub : a.behind p ⊆ Finset.range a.count := by
    intro q hq
    exact Finset.mem_range.mpr (mem_levelSet.mp (Finset.mem_filter.mp hq).1).1
  simpa using Finset.card_le_card hSub

theorem AbstractTree.SameShape.behind_eq (h : a.SameShape a') {p : Nat} (hp : p < a.count) :
    a'.behind p = a.behind p := by
  ext q
  simp only [behind, Finset.mem_filter, mem_levelSet, h.count_eq, h.grows.level_eq p hp,
    h.grows.low_eq p hp]
  constructor
  · rintro ⟨⟨hq, hLevel⟩, hLow⟩
    rw [h.grows.level_eq q hq] at hLevel
    rw [h.grows.low_eq q hq] at hLow
    exact ⟨⟨hq, hLevel⟩, hLow⟩
  · rintro ⟨⟨hq, hLevel⟩, hLow⟩
    rw [h.grows.level_eq q hq, h.grows.low_eq q hq]
    exact ⟨⟨hq, hLevel⟩, hLow⟩

namespace AbstractTree.SameShape

theorem way_eq (h : a.SameShape a') (hp : task.node < a.count) : task.way a' = task.way a := by
  unfold Task.way
  rw [h.grows.level_eq _ hp, h.count_eq, h.behind_eq hp]

end AbstractTree.SameShape

theorem wayLeft_cons (a : AbstractTree K V) (task : Task K V) (tasks : Multiset (Task K V)) :
    wayLeft a (task ::ₘ tasks) = task.way a + wayLeft a tasks := by
  rw [wayLeft, wayLeft, Multiset.map_cons, Multiset.sum_cons]

variable [BoundedOrder K]

theorem TaskOK.node_lt (h : TaskOK a task) : task.node < a.count := by
  obtain ⟨p, hAnn, hp, _⟩ := h.annotated
  rw [Task.node, hAnn]
  exact hp

/-- Behind the right sibling there are fewer nodes. -/
theorem AbstractTree.Valid.behind_right (h : a.Valid) {p q : Nat} (hp : p < a.count)
    (hRight : (a.nodes p).right = some q) : (a.behind q).card < (a.behind p).card := by
  obtain ⟨hq, hLevel, hLow⟩ := h.right_some p hp q hRight
  unfold behind
  rw [hLevel]
  exact @Tiles.card_behind_next _ _ _ _ (fun x => (a.nodes x).low) p q
    (mem_levelSet.mpr ⟨hq, hLevel⟩) (by rw [hLow]; exact h.range p hp)

namespace AbstractTree.SameShape

theorem wayLeft_eq (h : a.SameShape a') (hOk : ∀ task ∈ tasks, TaskOK a task) :
    wayLeft a' tasks = wayLeft a tasks := by
  unfold wayLeft
  rw [Multiset.map_congr rfl fun task hTask => h.way_eq (hOk task hTask).node_lt]

end AbstractTree.SameShape

theorem sum_splits_mono (hExt : a.Extends a') (hb : b' ≤ b)
    (hOk : ∀ task ∈ tasks, TaskOK a task) :
    (tasks.map (Task.splits a' b')).sum ≤ (tasks.map (Task.splits a b)).sum :=
  Multiset.sum_map_le_sum_map _ _ fun task hTask =>
    Task.splits_mono hExt hb (hOk task hTask).node_lt

theorem AbstractTree.SameShape.splitsLeft_eq (h : a.SameShape a') (hValid : a.Valid)
    (hOk : ∀ task ∈ tasks, TaskOK a task) : splitsLeft a' tasks = splitsLeft a tasks := by
  have hBound : levelBound a' tasks = levelBound a tasks := by
    rw [levelBound, levelBound, h.top_eq hValid.root_lt]
  unfold splitsLeft
  rw [hBound]
  refine le_antisymm (sum_splits_mono h.grows (le_refl _) hOk) ?_
  exact sum_splits_mono h.symm.grows (le_refl _) fun x hx => (hOk x hx).mono h.grows

/-- An insert that has come to its end takes its splits with it, also if it raised the tree by
a level. -/
theorem splitsLeft_of_ends (hExt : a.Extends a') (hTop : a'.top ≤ a.top + 1)
    (hInserts : task.body.Inserts) (hLevel : (a.nodes task.node).level ≤ a.top)
    (hOk : ∀ x ∈ tasks, TaskOK a x) :
    splitsLeft a' tasks < splitsLeft a (task ::ₘ tasks) := by
  have hCons := levelBound_cons a task tasks
  rw [inserting_of_inserts hInserts] at hCons
  have hBound : levelBound a' tasks ≤ levelBound a (task ::ₘ tasks) := by
    rw [hCons]
    unfold levelBound
    omega
  have hPos : 0 < task.splits a (levelBound a (task ::ₘ tasks)) :=
    splits_pos hInserts (by rw [hCons]; unfold levelBound; omega)
  have hRest := sum_splits_mono hExt hBound hOk
  rw [splitsLeft_cons]
  unfold splitsLeft
  omega

/-- A split uses up one of the splits of the task that made it. -/
theorem splitsLeft_of_climbs {key : K} {separator : Ptr} (hExt : a.Extends a')
    (hTop : a'.top = a.top) (hInserts : task.body.Inserts)
    (hBody : next.body = .insertSeparator key separator)
    (hLevel : (a'.nodes next.node).level = (a.nodes task.node).level + 1)
    (hLe : (a'.nodes next.node).level ≤ a'.top) (hOk : ∀ x ∈ tasks, TaskOK a x) :
    splitsLeft a' (next ::ₘ tasks) < splitsLeft a (task ::ₘ tasks) := by
  have hNext : next.inserting = 1 := inserting_of_inserts (by rw [hBody]; trivial)
  have hBound : levelBound a' (next ::ₘ tasks) = levelBound a (task ::ₘ tasks) := by
    rw [levelBound_cons, levelBound_cons, hNext, inserting_of_inserts hInserts, levelBound,
      levelBound, hTop]
  have hTopLe : a.top ≤ levelBound a (task ::ₘ tasks) := Nat.le_add_right _ _
  have hRest := sum_splits_mono hExt (le_refl (levelBound a (task ::ₘ tasks))) hOk
  have hLess : next.splits a' (levelBound a (task ::ₘ tasks)) <
      task.splits a (levelBound a (task ::ₘ tasks)) := by
    unfold Task.splits
    rw [hBody]
    cases hTask : task.body with
    | insertValue key value => simp only; omega
    | insertSeparator key separator => simp only; omega
    | _ => rw [hTask] at hInserts; exact absurd hInserts not_false
  rw [splitsLeft_cons, splitsLeft_cons, hBound]
  omega

end Measure

variable [LinearOrder K]

/-! ## One execution -/

section Execute

variable {L : Layout K V} {t : Tree K V} {a a' : AbstractTree K V} {task next : Task K V}
  {tasks rest : Multiset (Task K V)}

/-- The tree is the same up to contents when count and root are. -/
theorem Rep.sameShape {t' : Tree K V} (h : Rep L t a) (h' : Rep L t' a') (hExt : a.Extends a')
    (hKeeps : t.Keeps t') : a.SameShape a' := by
  refine ⟨hExt, ?_, ?_⟩
  · rw [← h'.count, ← h.count]; exact hKeeps.1
  · have hRoot := hKeeps.2
    rw [h'.root, h.root] at hRoot
    exact Option.some.inj hRoot

variable [BoundedOrder K]

/-- The new root is one level above the node it was put over. -/
theorem Rep.top_le_of_grows {t' : Tree K V} {p : Nat} (h' : Rep L t' a') (hValid : a.Valid)
    (hValid' : a'.Valid) (hExt : a.Extends a') (hp : p < a.count) (hGrows : t.Grows t' p) :
    a'.top ≤ a.top + 1 := by
  obtain ⟨_, hRoot, hFirst⟩ := hGrows
  have hEq : a'.root = t.count + 1 := by simpa [h'.root] using hRoot
  rw [← hEq] at hFirst
  unfold AbstractTree.top
  rcases Nat.eq_zero_or_pos (a'.nodes a'.root).level with hZero | hPos
  · omega
  obtain ⟨q, hq, _, hLevel, _⟩ :=
    h'.separator_spec hValid' hValid'.root_lt hPos (i := 0) (Nat.zero_le _)
  obtain rfl : p = q := by simpa [hq] using hFirst.symm
  rw [hExt.level_eq p hp] at hLevel
  have := hValid.level_le p hp
  omega

/-- A move leaves the number of splits and shortens the way. -/
theorem Task.Moves.decreases (h : task.Moves t next) (hRep : Rep L t a) (hValid : a.Valid)
    (hOk : TaskOK a task) (hNext : TaskOK a next) (bound : Nat) :
    next.splits a bound = task.splits a bound ∧ next.way a < task.way a := by
  obtain ⟨p, hAnn, hp, hLow⟩ := hOk.annotated
  have hNode : task.node = p := by rw [Task.node, hAnn]; rfl
  cases h with
  | @right p' hAnn' hle =>
      obtain rfl : p = p' := by simpa [hAnn] using hAnn'
      obtain ⟨q, hq, _⟩ := hNext.annotated
      have hRight : (a.nodes p).right = some q := by
        rw [← (hRep.nodes p hp).rightSibling]; exact hq
      have hNextNode : (task.annotate (t.nodes p).rightSibling).node = q := by
        rw [Task.node, hq]; rfl
      have hLevel := (hValid.right_some p hp q hRight).2.1
      have hLess := hValid.behind_right hp hRight
      constructor
      · unfold Task.splits
        rw [hNextNode, hNode, hLevel]
        rfl
      · unfold Task.way
        rw [hNextNode, hNode, hLevel]
        exact Nat.add_lt_add_right (by omega) _
  | @down p' isReadonly hAnn' hRequest _ hInner =>
      obtain rfl : p = p' := by simpa [hAnn] using hAnn'
      obtain ⟨q, hChild, _, hLevel, _⟩ := hRep.child_spec hValid hp hLow hInner
      have hNextNode : ((task.annotate ((t.nodes p).child task.body.key)).setReadonly
          isReadonly).node = q := by
        simp [Task.node, Task.annotate, Task.setReadonly, hChild]
      constructor
      · unfold Task.splits
        cases hBody : task.body with
        | insertSeparator key separator =>
            rw [hBody] at hRequest
            exact absurd hRequest (by simp [TaskBody.IsRequest])
        | _ => simp [Task.annotate, Task.setReadonly, hBody]
      · have hBehind := a.behind_card_le q
        have hBit : (if ((task.annotate ((t.nodes p).child task.body.key)).setReadonly
            isReadonly).isReadonly = true then 1 else 0) ≤ 1 := by split <;> omega
        unfold Task.way
        rw [hNextNode, hNode, ← hLevel, Nat.add_mul]
        omega
  | upgrade hReads =>
      refine ⟨rfl, ?_⟩
      unfold Task.way
      have hSame : (task.setReadonly false).node = task.node := rfl
      rw [hSame, hReads]
      simp [Task.setReadonly]

/-- Every execution leaves fewer splits, or as many and a shorter way. -/
theorem Inv.execute_decreases [Zero V] {s : State K V} {coreId : Nat} {ex : Execution K V}
    (h : Inv L s a) (hTasks : s.tasks = task ::ₘ rest)
    (hEx : task.execute L coreId s.tree = some ex) :
    ∃ a', Inv L ⟨ex.tree, ↑ex.result.successor.toList + rest⟩ a' ∧
      Prod.Lex (· < ·) (· < ·)
        (splitsLeft a' (↑ex.result.successor.toList + rest),
          wayLeft a' (↑ex.result.successor.toList + rest))
        (splitsLeft a (task ::ₘ rest), wayLeft a (task ::ₘ rest)) := by
  obtain ⟨a', hInv, hExt, _⟩ := h.step (BoundedStep.execute coreId task rest hTasks hEx)
  refine ⟨a', hInv, ?_⟩
  have hOk : TaskOK a task := h.tasks task (by rw [hTasks]; exact Multiset.mem_cons_self _ _)
  have hRest : ∀ x ∈ rest, TaskOK a x := fun x hx =>
    h.tasks x (by rw [hTasks]; exact Multiset.mem_cons_of_mem hx)
  have hLevel : (a.nodes task.node).level ≤ a.top := h.valid.level_le _ hOk.node_lt
  have hNextOk : ∀ next, ex.result.successor = some next → TaskOK a' next := fun next hSucc =>
    hInv.tasks next (by simp [hSucc])
  cases execute_shape hEx with
  | moves next hTree _ _ hSucc hMoves =>
      have hShape : a.SameShape a' :=
        h.rep.sameShape hInv.rep hExt (by rw [show ex.tree = s.tree from hTree]; exact ⟨rfl, rfl⟩)
      have hNext : TaskOK a next := (hNextOk next hSucc).mono hShape.symm.grows
      have hInserting : next.inserting = task.inserting := by
        unfold Task.inserting; rw [hMoves.body_eq]
      have hBound : levelBound a (next ::ₘ rest) = levelBound a (task ::ₘ rest) := by
        rw [levelBound_cons, levelBound_cons, hInserting]
      obtain ⟨hSplits, hWay⟩ := hMoves.decreases h.rep h.valid hOk hNext
        (levelBound a (task ::ₘ rest))
      have hAll : ∀ x ∈ next ::ₘ rest, TaskOK a x := by
        intro x hx
        rcases Multiset.mem_cons.mp hx with rfl | hIn
        exacts [hNext, hRest x hIn]
      rw [hSucc]
      simp only [Option.toList_some, Multiset.coe_singleton, Multiset.singleton_add]
      rw [hShape.splitsLeft_eq h.valid hAll, hShape.wayLeft_eq hAll, splitsLeft_cons a next, hBound,
        hSplits, ← splitsLeft_cons]
      refine Prod.Lex.right _ ?_
      rw [wayLeft_cons, wayLeft_cons]
      omega
  | ends call _ _ hSucc _ hTree =>
      rw [hSucc]
      simp only [Option.toList_none, Multiset.coe_nil, Multiset.zero_add]
      rcases hTree with hKeeps | ⟨hInserts, p, hAnn, hGrows⟩
      · have hShape : a.SameShape a' := h.rep.sameShape hInv.rep hExt hKeeps
        by_cases hInserts : task.body.Inserts
        · refine Prod.Lex.left _ _ (splitsLeft_of_ends hExt ?_ hInserts hLevel hRest)
          rw [hShape.top_eq h.valid.root_lt]
          omega
        · rw [hShape.splitsLeft_eq h.valid hRest, hShape.wayLeft_eq hRest, wayLeft_cons,
            splitsLeft_cons, levelBound_cons, inserting_of_not_inserts hInserts,
            splits_of_not_inserts hInserts, zero_add]
          refine Prod.Lex.right _ ?_
          unfold Task.way
          omega
      · refine Prod.Lex.left _ _ (splitsLeft_of_ends hExt ?_ hInserts hLevel hRest)
        obtain ⟨p', hAnn', hp, _⟩ := hOk.annotated
        obtain rfl : p = p' := by simpa [hAnn] using hAnn'
        exact hInv.rep.top_le_of_grows h.valid hInv.valid hExt hp hGrows
  | climbs next key separator p _ hInserts hSucc hBody hAnn hParent hCount hRoot =>
      rw [hSucc]
      simp only [Option.toList_some, Multiset.coe_singleton, Multiset.singleton_add]
      have hTop : a'.top = a.top := by
        have hRoot' : ex.tree.root = s.tree.root := hRoot
        rw [show ex.tree.root = some a'.root from hInv.rep.root, h.rep.root] at hRoot'
        unfold AbstractTree.top
        rw [Option.some.inj hRoot', hExt.level_eq _ h.valid.root_lt]
      obtain ⟨p', hAnn', hp, _⟩ := hOk.annotated
      obtain rfl : p = p' := by simpa [hAnn] using hAnn'
      have hp' : p < a'.count := lt_of_lt_of_le hp hExt.count_le
      obtain ⟨q, hq, _⟩ := (hNextOk next hSucc).annotated
      have hParent' : (a'.nodes p).parent = some q := by
        rw [← (hInv.rep.nodes p hp').parent, ← hq]
        exact hParent.symm
      obtain ⟨hqLt, hqLevel, _⟩ := hInv.valid.parent_some p hp' q hParent'
      have hNode : next.node = q := by rw [Task.node, hq]; rfl
      refine Prod.Lex.left _ _ (splitsLeft_of_climbs hExt hTop hInserts hBody ?_ ?_ hRest)
      · rw [hNode, hqLevel, hExt.level_eq p hp, Task.node, hAnn]
        rfl
      · rw [hNode]
        exact hInv.valid.level_le q hqLt

end Execute

/-! ## The tasks of a finite workload finish -/

section Finish

variable [BoundedOrder K] [Zero V] (L : Layout K V)

/-- One task in flight is executed. -/
def ExecuteStep (s s' : State K V) : Prop :=
  ∃ coreId task calls leafStep, Step L s (.execute coreId task calls leafStep) s'

variable {L} in
theorem ExecuteStep.decreases {s s' : State K V} {a : AbstractTree K V} (h : Inv L s a)
    (hStep : ExecuteStep L s s') :
    ∃ a', Inv L s' a' ∧ Prod.Lex (· < ·) (· < ·) (splitsLeft a' s'.tasks, wayLeft a' s'.tasks)
      (splitsLeft a s.tasks, wayLeft a s.tasks) := by
  obtain ⟨coreId, task, calls, leafStep, hStep⟩ := hStep
  cases hStep with
  | execute _ hTasks hEx =>
      obtain ⟨a', hInv, hLess⟩ := h.execute_decreases hTasks hEx
      exact ⟨a', hInv, by rw [hTasks]; exact hLess⟩

/-- From every state a run reaches, without further requests, no order of executions goes on
for ever, and when none is possible any more no task is left. -/
theorem tasks_finish [Nontrivial K] (memory : Nat → Node K V) (log : List (Event K V))
    (s : State K V) (hRun : Verified.Run (BoundedStep L) (State.initial memory) log s) :
    (¬ ∃ order : Nat → State K V, order 0 = s ∧
      ∀ n, ExecuteStep L (order n) (order (n + 1))) ∧
    ∀ s', Relation.ReflTransGen (ExecuteStep L) s s' →
      (∀ s'', ¬ ExecuteStep L s' s'') → s'.tasks = 0 := by
  obtain ⟨a, hInv, _⟩ := Inv.run hRun
  constructor
  · have hAcc : Acc (fun s' s => ExecuteStep L s s') s :=
      Verified.acc_of_decreasing (Nat.lt_wfRel.wf.prod_lex Nat.lt_wfRel.wf)
        (P := fun s m => ∃ a, Inv L s a ∧ m = (splitsLeft a s.tasks, wayLeft a s.tasks))
        (fun s m s' ⟨a, hInv, hm⟩ hStep => by
          obtain ⟨a', hInv', hLess⟩ := hStep.decreases hInv
          exact ⟨_, ⟨a', hInv', rfl⟩, by rw [hm]; exact hLess⟩) _ s ⟨a, hInv, rfl⟩
    exact fun hOrder => not_acc_iff_exists_descending_chain.mpr hOrder hAcc
  · intro s' hReach hStuck
    have hInv' : ∃ a', Inv L s' a' := by
      clear hStuck
      induction hReach with
      | refl => exact ⟨a, hInv⟩
      | tail _ hStep ih =>
          obtain ⟨b, hb⟩ := ih
          obtain ⟨a', hInv', _⟩ := hStep.decreases hb
          exact ⟨a', hInv'⟩
    obtain ⟨a', hInv'⟩ := hInv'
    by_contra hTasks
    obtain ⟨task, hMem⟩ := Multiset.exists_mem_of_ne_zero hTasks
    obtain ⟨rest, hRest⟩ := Multiset.exists_cons_of_mem hMem
    -- the annotation of a task in flight is not null, so it can be executed
    obtain ⟨p, hAnn, _⟩ := (hInv'.tasks task hMem).annotated
    obtain ⟨ex, hEx⟩ : ∃ ex, task.execute L 0 s'.tree = some ex := by
      unfold Task.execute
      rw [hAnn]
      exact ⟨_, rfl⟩
    exact hStuck _ ⟨0, task, _, _, Step.execute 0 hRest hEx⟩

/-- The one insert of a run finishes. -/
theorem tasks_finish_insert :
    ∃ log s, Verified.Run (BoundedStep Layout.benchmark) (State.initial zeroMemory) log s ∧
      s.tasks ≠ 0 ∧ ¬ ∃ order : Nat → State (Fin (2 ^ 64)) (BitVec 64), order 0 = s ∧
        ∀ n, ExecuteStep Layout.benchmark (order n) (order (n + 1)) := by
  have hSpawn := BoundedStep.spawn (L := Layout.benchmark) (State.initial zeroMemory)
    (.insertValue 5 7) trivial (by decide) false
  exact ⟨_, _, Verified.Run.single hSpawn, by simp,
    (tasks_finish _ _ _ _ (Verified.Run.single hSpawn)).1⟩

end Finish

/-! ## Null links -/

section Links

variable [BoundedOrder K] (L : Layout K V)

/-- The next execution of the task follows a null pointer: to the right or, as a request on an
inner node, down. -/
def Task.FollowsNull (t : Tree K V) (task : Task K V) : Prop :=
  ∃ p, task.annotatedResource = some p ∧
    (((t.nodes p).highKey ≤ task.body.key ∧ (t.nodes p).rightSibling = none) ∨
      (¬ (t.nodes p).highKey ≤ task.body.key ∧ task.body.IsRequest ∧
        (t.nodes p).isInner = true ∧ (t.nodes p).child task.body.key = none))

variable {L} in
theorem TaskOK.not_followsNull {t : Tree K V} {a : AbstractTree K V} {task : Task K V}
    (h : TaskOK a task) (hRep : Rep L t a) (hValid : a.Valid) : ¬ task.FollowsNull t := by
  rintro ⟨p, hAnn, ⟨hle, hNull⟩ | ⟨_, hRequest, hInner, hNull⟩⟩
  · obtain ⟨q, hq, _⟩ := (h.annotate_right hRep hValid hAnn hle).annotated
    exact absurd (hNull.symm.trans hq) (by simp)
  · obtain ⟨q, hq, _⟩ := (h.annotate_child hRep hValid hAnn hRequest hInner).annotated
    exact absurd (hNull.symm.trans hq) (by simp)

variable [Zero V]

variable {L} in
/-- A task with the largest key runs to the end of its level and there follows the null pointer.
The induction is on the number of nodes behind its own. -/
theorem runs_to_null {s : State K V} {a : AbstractTree K V} (hRep : Rep L s.tree a)
    (hValid : a.Valid) (rest : Multiset (Task K V)) :
    ∀ (n : Nat) (task : Task K V) (p : Nat), task.body.key = ⊤ →
      task.annotatedResource = some p → p < a.count → (a.behind p).card < n →
      ∃ log s', Verified.Run (Step L) ⟨s.tree, task ::ₘ rest⟩ log s' ∧
        ∃ task' ∈ s'.tasks, task'.body = task.body ∧ task'.annotatedResource = none := by
  intro n
  induction n with
  | zero => intro task p _ _ _ hLess; omega
  | succ n ih =>
      intro task p hTop hAnn hp hLess
      obtain ⟨ex, hEx⟩ : ∃ ex, task.execute L 0 s.tree = some ex := by
        unfold Task.execute
        rw [hAnn]
        exact ⟨_, rfl⟩
      obtain ⟨p', hAnn', rfl⟩ := execute_top hEx hTop
      obtain rfl : p = p' := by simpa [hAnn] using hAnn'
      have hStep := Step.execute (s := ⟨s.tree, task ::ₘ rest⟩) 0 rfl hEx
      simp only [TaskResult.makeSucceed, Option.toList_some, Multiset.coe_singleton,
        Multiset.singleton_add] at hStep
      cases hRight : (s.tree.nodes p).rightSibling with
      | none =>
          refine ⟨_, _, Verified.Run.single hStep, _, Multiset.mem_cons_self _ _, rfl, ?_⟩
          exact hRight
      | some q =>
          have hLink : (a.nodes p).right = some q := by
            rw [← (hRep.nodes p hp).rightSibling]; exact hRight
          have hBehind := hValid.behind_right hp hLink
          obtain ⟨log, s', hRun, task', hMem, hBody, hNull⟩ :=
            ih (task.annotate (s.tree.nodes p).rightSibling) q hTop hRight
              (hValid.right_some p hp q hLink).1 (by omega)
          exact ⟨_, s', (Verified.Run.single hStep).append hRun, task', hMem, hBody, hNull⟩

/-- While every request has a key below the maximum, no task is annotated with a null node or
about to be.  A request with the maximum, spawned after any run, can be run until it is. -/
theorem links_of_run [Nontrivial K] (memory : Nat → Node K V) :
    (∀ log s, Verified.Run (BoundedStep L) (State.initial memory) log s →
      ∀ task ∈ s.tasks, task.annotatedResource ≠ none ∧ ¬ task.FollowsNull s.tree) ∧
    ∀ log s, Verified.Run (Step L) (State.initial memory) log s →
      ∀ request : TaskBody K V, request.IsRequest → request.key = ⊤ →
        ∃ log' s', Verified.Run (Step L) s (.spawn request :: log') s' ∧
          ∃ task ∈ s'.tasks, task.body = request ∧ task.annotatedResource = none := by
  refine ⟨fun log s hRun task hMem => ?_, fun log s hRun request hRequest hTop => ?_⟩
  · obtain ⟨a, hInv, _⟩ := Inv.run hRun
    have hOk := hInv.tasks task hMem
    obtain ⟨p, hAnn, _⟩ := hOk.annotated
    exact ⟨by rw [hAnn]; simp, hOk.not_followsNull hInv.rep hInv.valid⟩
  · obtain ⟨log₁, s₁, hRun₁, rfl, _⟩ := run_traced hRun
    obtain ⟨a, h⟩ := TracedInv.run hRun₁
    have hRep : Rep L s₁.untraced.tree a := h.inv.rep
    have hSpawn := Step.spawn (L := L) (s := s₁.untraced) request true hRequest
    obtain ⟨log', s', hRun', task, hMem, hBody, hNull⟩ :=
      runs_to_null hRep h.inv.valid s₁.untraced.tasks _
        ⟨request, s₁.untraced.tree.root, true⟩ a.root hTop hRep.root h.inv.valid.root_lt
        (Nat.lt_succ_self _)
    exact ⟨log', s', (Verified.Run.single hSpawn).append hRun', task, hMem, hBody, hNull⟩

/-- The insert of a key below the maximum. -/
theorem links_of_run_insert :
    ∃ log s, Verified.Run (BoundedStep Layout.benchmark) (State.initial zeroMemory) log s ∧
      ∃ task ∈ s.tasks, task.annotatedResource ≠ none ∧ ¬ task.FollowsNull s.tree := by
  have hSpawn := BoundedStep.spawn (L := Layout.benchmark) (State.initial zeroMemory)
    (.insertValue 5 7) trivial (by decide) false
  have hRun := Verified.Run.single hSpawn
  have hMem := Multiset.mem_cons_self
    (⟨.insertValue 5 7, some 0, false⟩ : Task (Fin (2 ^ 64)) (BitVec 64)) 0
  exact ⟨_, _, hRun, _, hMem, (links_of_run Layout.benchmark zeroMemory).1 _ _ hRun _ hMem⟩

/-- The insert of the largest key follows the null pointer of the first leaf. -/
theorem insert_max_followsNull :
    ∃ log s, Verified.Run (Step Layout.benchmark) (State.initial zeroMemory) log s ∧
      log = [.spawn (.insertValue ⊤ 7)] ∧ ∃ task ∈ s.tasks, task.FollowsNull s.tree := by
  have hSpawn := Step.spawn (L := Layout.benchmark) (s := State.initial zeroMemory)
    (.insertValue ⊤ 7) false trivial
  have hMem := Multiset.mem_cons_self
    (⟨.insertValue ⊤ 7, some 0, false⟩ : Task (Fin (2 ^ 64)) (BitVec 64)) 0
  exact ⟨_, _, Verified.Run.single hSpawn, rfl, _, hMem, 0, rfl,
    Or.inl ⟨le_refl (⊤ : Fin (2 ^ 64)), rfl⟩⟩

end Links

end MxTasking.BLinkTree
