import MxTasking.BLinkTree.Structure

/-!
# Requests and what the listener is told about them

A request is spawned as one task.  From then on there is one task at a time that works for it, the
task itself or, after a split, the `InsertSeparatorTask` that climbs the tree, and the last of them
calls the listener.  Here every task in flight carries the number of its request and every
node the request whose execution created it; otherwise the system is the one of
`MxTasking.BLinkTree.System` (`TracedStep.forget`).

## Main results

* `completion_of_run` — one task or one call per request, and what a request has built is
  in the tree before the listener hears of it.
-/

namespace MxTasking.BLinkTree

open AbstractTree
open MxTasking.Verified.Slots

variable {K V : Type*} [LinearOrder K] [BoundedOrder K]

/-! ## The system -/

/-- A call of the listener, the request it was made for and the map at that moment. -/
structure Completion (K V : Type*) where
  request : Nat
  call : ListenerCall K V
  map : K → Option V

/-- The tree, and the tasks in flight with the numbers of their requests. -/
structure TracedState (K V : Type*) where
  tree : Tree K V
  tasks : Multiset (Nat × Task K V)
  requests : List (TaskBody K V)
  /-- What the leaf steps so far have made of the map. -/
  map : K → Option V
  completions : List (Completion K V)
  /-- The request whose execution created the node. -/
  creator : Nat → Option Nat

inductive TracedEvent (K V : Type*) where
  | spawn (request : TaskBody K V)
  | execute (request coreId : Nat) (task : Task K V)

/-- The state without the numbers. -/
def TracedState.untraced (s : TracedState K V) : State K V := ⟨s.tree, s.tasks.map Prod.snd⟩

/-- The state without the numbers and without the tasks whose key is the largest value of the
key type: these follow right links until there is none, and the tree does not depend on them. -/
def TracedState.forget (s : TracedState K V) : State K V :=
  ⟨s.tree, s.untraced.tasks.filter fun task => task.body.key < ⊤⟩

/-- What an execution for `request` leaves behind. -/
def TracedState.after (s : TracedState K V) (request : Nat) (task : Task K V)
    (rest : Multiset (Nat × Task K V)) (ex : Execution K V) : TracedState K V where
  tree := ex.tree
  tasks := ↑(ex.result.successor.map (Prod.mk request)).toList + rest
  requests := s.requests
  map := (task.leafStep s.tree).elim s.map (MapOp.apply s.map)
  completions := s.completions ++ ex.allCalls.map fun call => ⟨request, call, s.map⟩
  creator p := if s.tree.count ≤ p ∧ p < ex.tree.count then some request else s.creator p

inductive TracedStep [Zero V] (L : Layout K V) :
    TracedState K V → TracedEvent K V → TracedState K V → Prop where
  | spawn {s : TracedState K V} (request : TaskBody K V) (isReadonly : Bool) :
      request.IsRequest →
      TracedStep L s (.spawn request)
        { s with
          tasks := (s.requests.length, ⟨request, s.tree.root, isReadonly⟩) ::ₘ s.tasks
          requests := s.requests ++ [request] }
  | execute {s : TracedState K V} (coreId : Nat) {request : Nat} {task : Task K V}
      {rest : Multiset (Nat × Task K V)} {ex : Execution K V} :
      s.tasks = (request, task) ::ₘ rest → task.execute L coreId s.tree = some ex →
      TracedStep L s (.execute request coreId task) (s.after request task rest ex)

/-- The state after the construction of the tree. -/
def TracedState.initial (memory : Nat → Node K V) : TracedState K V where
  tree := Tree.construct memory
  tasks := 0
  requests := []
  map _ := none
  completions := []
  creator _ := none

/-- Without the numbers a step is one of the system. -/
theorem TracedStep.untraced [Zero V] {L : Layout K V} {s s' : TracedState K V}
    {e : TracedEvent K V} (h : TracedStep L s e s') : ∃ e', Step L s.untraced e' s'.untraced := by
  cases h with
  | spawn request isReadonly hRequest =>
      refine ⟨.spawn request, ?_⟩
      have hStep := Step.spawn (L := L) (s := s.untraced) request isReadonly hRequest
      simpa [TracedState.untraced] using hStep
  | @execute coreId request task rest ex hTasks hEx =>
      have hUntraced : s.untraced.tasks = task ::ₘ rest.map Prod.snd := by
        rw [TracedState.untraced, hTasks, Multiset.map_cons]
      have hStep := Step.execute (s := s.untraced) coreId hUntraced hEx
      refine ⟨.execute coreId task ex.allCalls (task.leafStep s.tree), ?_⟩
      cases hSucc : ex.result.successor <;>
        simpa [TracedState.untraced, TracedState.after, hSucc] using hStep

/-- Every step of the system is one of the traced system, and the map moves on with the leaf
step. -/
theorem Step.traced [Zero V] {L : Layout K V} {s : TracedState K V} {u : State K V}
    {e : Event K V} (h : Step L s.untraced e u) :
    ∃ e' s', TracedStep L s e' s' ∧ s'.untraced = u ∧
      s'.map = e.mapOp.elim s.map (MapOp.apply s.map) := by
  cases h with
  | spawn request isReadonly hRequest =>
      exact ⟨_, _, .spawn request isReadonly hRequest, by simp [TracedState.untraced], rfl⟩
  | @execute coreId task rest ex hTasks hEx =>
      have hMem : task ∈ s.tasks.map Prod.snd := by
        rw [show s.tasks.map Prod.snd = task ::ₘ rest from hTasks]
        exact Multiset.mem_cons_self task rest
      obtain ⟨⟨r, _⟩, hIn, rfl⟩ := Multiset.mem_map.mp hMem
      obtain ⟨rest', hRest'⟩ := Multiset.exists_cons_of_mem hIn
      have hRest : rest'.map Prod.snd = rest := by
        have hTasks' : s.tasks.map Prod.snd = _ := hTasks
        rw [hRest', Multiset.map_cons] at hTasks'
        exact (Multiset.cons_inj_right _).mp hTasks'
      refine ⟨_, _, .execute coreId hRest' hEx, ?_, rfl⟩
      cases hSucc : ex.result.successor <;>
        simp [TracedState.untraced, TracedState.after, hSucc, hRest]

/-- A run of the system, with numbers. -/
theorem run_traced [Zero V] {L : Layout K V} {memory : Nat → Node K V}
    {log : List (Event K V)} {s : State K V}
    (hRun : Verified.Run (Step L) (State.initial memory) log s) :
    ∃ log' s', Verified.Run (TracedStep L) (TracedState.initial memory) log' s' ∧
      s'.untraced = s ∧ s'.map = mapAfter log := by
  induction hRun with
  | nil => exact ⟨[], _, Verified.Run.nil, by simp [TracedState.untraced, TracedState.initial,
      State.initial], rfl⟩
  | snoc _ hStep ih =>
      obtain ⟨log', s', hRun', rfl, hMap⟩ := ih
      obtain ⟨e, s'', hStep', hEq, hMap'⟩ := hStep.traced
      exact ⟨_, s'', hRun'.snoc hStep', hEq, by rw [hMap', hMap, mapAfter_snoc]⟩

/-! ## What one execution can do -/

/-- What a task says about itself in the call that ends it. -/
def TaskBody.Reports [Zero V] (coreId : Nat) : TaskBody K V → ListenerCall K V → Prop
  | .insertValue key value, call => call = .inserted coreId key value
  | .insertSeparator key _, call => call = .inserted coreId key 0
  | .lookup key _ _, call => ∃ value, call = .found coreId key value
  | .update key value, call => call = .updated coreId key value ∨
      ∃ other, other ≠ key ∧ call = .missing coreId other

/-- The task works on inserting something. -/
def TaskBody.Inserts : TaskBody K V → Prop
  | .insertValue _ _ => True
  | .insertSeparator _ _ => True
  | _ => False

/-- How a task moves on over the unchanged tree: to the right sibling, down to a child, or to
the same leaf as a writer. -/
inductive Task.Moves (t : Tree K V) (task : Task K V) : Task K V → Prop where
  | right {p : Nat} : task.annotatedResource = some p →
      (t.nodes p).highKey ≤ task.body.key → Moves t task (task.annotate (t.nodes p).rightSibling)
  | down {p : Nat} (isReadonly : Bool) : task.annotatedResource = some p →
      task.body.IsRequest → ¬ (t.nodes p).highKey ≤ task.body.key →
      (t.nodes p).isInner = true →
      Moves t task ((task.annotate ((t.nodes p).child task.body.key)).setReadonly isReadonly)
  | upgrade : task.isReadonly = true → Moves t task (task.setReadonly false)

/-- The nodes are those of `t`, under the same root. -/
def Tree.Keeps (t t' : Tree K V) : Prop := t'.count = t.count ∧ t'.root = t.root

/-- `p` has been split and stands now under a new root. -/
def Tree.Grows (t t' : Tree K V) (p : Nat) : Prop :=
  t'.count = t.count + 2 ∧ t'.root = some (t.count + 1) ∧
    (t'.nodes (t.count + 1)).separators 0 = some p

omit [LinearOrder K] [BoundedOrder K] in
/-- Inserting a separator behind the first one leaves the first one alone. -/
theorem Node.insertSeparator_first (n : Node K V) (first separator : Ptr) (key : K) :
    ((n.setSeparator 0 first).insertSeparator 0 separator key).separators 0 = first := by
  by_cases hSize : 0 < n.size <;>
    simp [insertSeparator, setSeparator, memmove, memcpy, hSize]

theorem Tree.createNewRoot_grows {t t' : Tree K V} (h : t'.count = t.count + 1) (left : Nat)
    (right : Ptr) (key : K) : t.Grows (t'.createNewRoot left right key) left := by
  refine ⟨?_, ?_, ?_⟩
  · simp [createNewRoot, write, createInnerNode, createNode, h]
  · rw [← h]; rfl
  · rw [← h]
    unfold createNewRoot
    dsimp only [createInnerNode, createNode]
    rw [write_self]
    exact Node.insertSeparator_first _ _ _ _

theorem Tree.splitInner_frame (L : Layout K V) (t : Tree K V) (p : Nat) (key : K)
    (separator : Ptr) : (t.splitInner L p key separator).1.count = t.count + 1 ∧
      (t.splitInner L p key separator).1.root = t.root := by
  unfold splitInner
  dsimp only
  rw [(adopt_frame _ _ _).1, (adopt_frame _ _ _).2.1]
  split <;> simp [write, createInnerNode, createNode]

section Shape

variable [Zero V] {L : Layout K V} {t : Tree K V} {task : Task K V} {coreId : Nat}
  {ex : Execution K V} {p : Nat} {key : K} {value : V}

/-- The three things an execution can come to: the task moves on as it is, it ends with
one call of the listener, or it has split its node and is succeeded by a task that climbs to the
parent with the new one. -/
inductive Shape (coreId : Nat) (t : Tree K V) (task : Task K V) (ex : Execution K V) : Prop where
  | moves (next : Task K V) : ex.tree = t → ex.allCalls = [] → task.leafStep t = none →
      ex.result.successor = some next → task.Moves t next → Shape coreId t task ex
  | ends (call : ListenerCall K V) : ex.allCalls = [call] → task.body.Reports coreId call →
      ex.result.successor = none → task.leafStep t = task.body.mapOp →
      t.Keeps ex.tree ∨ (task.body.Inserts ∧
        ∃ p, task.annotatedResource = some p ∧ t.Grows ex.tree p) → Shape coreId t task ex
  | climbs (next : Task K V) (key : K) (separator : Ptr) (p : Nat) : ex.allCalls = [] →
      task.body.Inserts → ex.result.successor = some next →
      next.body = .insertSeparator key separator → task.annotatedResource = some p →
      next.annotatedResource = (ex.tree.nodes p).parent → ex.tree.count = t.count + 1 →
      ex.tree.root = t.root → Shape coreId t task ex

omit [BoundedOrder K] [Zero V] in
theorem Task.Moves.body_eq {next : Task K V} (h : task.Moves t next) : next.body = task.body := by
  cases h <;> rfl

omit [BoundedOrder K] in
/-- The way of a writer to its leaf: right, down and, at the leaf, from reader to writer. -/
theorem writer_shape (hAnn : task.annotatedResource = some p) (hRequest : task.body.IsRequest)
    (hWrites : task.body.writes = true)
    (hLeaf : task.leafStep t = task.body.mapOp → Shape coreId t task ex) :
    Shape coreId t task
      (if (t.nodes p).highKey ≤ task.body.key then
        ⟨t, task.annotate (t.nodes p).rightSibling,
          .makeSucceed (task.annotate (t.nodes p).rightSibling), []⟩
      else if (t.nodes p).isInner then
        ⟨t, (task.annotate ((t.nodes p).child task.body.key)).setReadonly (!(t.nodes p).isBranch),
          .makeSucceed ((task.annotate ((t.nodes p).child task.body.key)).setReadonly
            (!(t.nodes p).isBranch)), []⟩
      else if (t.nodes p).isLeaf && task.isReadonly then
        ⟨t, task.setReadonly false, .makeSucceed (task.setReadonly false), []⟩
      else ex) := by
  by_cases hle : (t.nodes p).highKey ≤ task.body.key
  · rw [if_pos hle]
    exact .moves _ rfl rfl (leafStep_of_right hAnn hle) rfl (.right hAnn hle)
  by_cases hInner : (t.nodes p).isInner = true
  · rw [if_neg hle, if_pos hInner]
    exact .moves _ rfl rfl (leafStep_of_inner hAnn hInner) rfl (.down _ hAnn hRequest hle hInner)
  by_cases hReads : task.isReadonly = true
  · rw [if_neg hle, if_neg hInner, if_pos (by simp [Node.isLeaf_of_not_isInner hInner, hReads])]
    exact .moves _ rfl rfl (leafStep_of_reader hAnn hWrites hReads) rfl (.upgrade hReads)
  · rw [if_neg hle, if_neg hInner, if_neg (by simp [hReads])]
    exact hLeaf (leafStep_of_leaf hAnn hle hInner fun h => hReads h.2)

omit [BoundedOrder K] in
theorem lookupExecute_shape {core : Nat} (hAnn : task.annotatedResource = some p)
    (hBody : task.body = .lookup key value core) :
    Shape coreId t task (lookupExecute L coreId t task key value p) := by
  have hWrites : task.body.writes = false := by rw [hBody]; rfl
  have hReports : ∀ v, task.body.Reports coreId (.found coreId key v) := by
    intro v; rw [hBody]; exact ⟨v, rfl⟩
  obtain rfl : task.body.key = key := by rw [hBody]; rfl
  have hRequest : task.body.IsRequest := by rw [hBody]; trivial
  unfold lookupExecute
  by_cases hle : (t.nodes p).highKey ≤ task.body.key
  · simp only [if_pos hle]
    exact .moves _ rfl rfl (leafStep_of_right hAnn hle) rfl (.right hAnn hle)
  by_cases hInner : (t.nodes p).isInner = true
  · simp only [if_neg hle, if_pos hInner]
    exact .moves _ rfl rfl (leafStep_of_inner hAnn hInner) rfl
      (.down task.isReadonly hAnn hRequest hle hInner)
  simp only [if_neg hle, if_neg hInner]
  exact .ends _ rfl (hReports _) rfl
    (leafStep_of_leaf hAnn hle hInner (by simp [hWrites])) (Or.inl ⟨rfl, rfl⟩)

theorem insertValueExecute_shape (hAnn : task.annotatedResource = some p)
    (hBody : task.body = .insertValue key value) :
    Shape coreId t task (insertValueExecute L coreId t task key value p) := by
  obtain rfl : task.body.key = key := by rw [hBody]; rfl
  refine writer_shape hAnn (by rw [hBody]; trivial) (by rw [hBody]; rfl) fun hLeafStep => ?_
  have hDestructor : task.body.destructor = [] := by rw [hBody]; rfl
  have hReports : task.body.Reports coreId (.inserted coreId task.body.key value) := by
    rw [hBody]; rfl
  have hInserts : task.body.Inserts := by rw [hBody]; trivial
  dsimp only
  split
  · exact .ends _ (by simp [Execution.allCalls, TaskResult.makeRemove, hDestructor]) hReports rfl
      hLeafStep (Or.inl ⟨rfl, rfl⟩)
  split
  · exact .ends _ (by simp [Execution.allCalls, TaskResult.makeRemove, hDestructor]) hReports rfl
      hLeafStep (Or.inl ⟨rfl, rfl⟩)
  split
  · rename_i parent hParent
    exact .climbs _ _ _ p
      (by simp [Execution.allCalls, TaskResult.makeSucceedAndRemove, hDestructor]) hInserts rfl rfl
      hAnn hParent.symm rfl rfl
  · exact .ends _ (by simp [Execution.allCalls, TaskResult.makeRemove, hDestructor]) hReports rfl
      hLeafStep (Or.inr ⟨hInserts, p, hAnn, Tree.createNewRoot_grows rfl p _ _⟩)

theorem insertSeparatorExecute_shape {separator : Ptr}
    (hAnn : task.annotatedResource = some p)
    (hBody : task.body = .insertSeparator key separator) :
    Shape coreId t task (insertSeparatorExecute L coreId t task key separator p) := by
  have hLeafStep : task.leafStep t = task.body.mapOp := by
    unfold Task.leafStep
    rw [hAnn, hBody]
    simp [TaskBody.mapOp]
  have hDestructor : task.body.destructor = [] := by rw [hBody]; rfl
  obtain rfl : task.body.key = key := by rw [hBody]; rfl
  have hReports : task.body.Reports coreId (.inserted coreId task.body.key 0) := by rw [hBody]; rfl
  have hInserts : task.body.Inserts := by rw [hBody]; trivial
  obtain ⟨hCount, hRoot⟩ := t.splitInner_frame L p task.body.key separator
  unfold insertSeparatorExecute
  dsimp only
  split
  · rename_i hle
    exact .moves _ rfl rfl (hLeafStep.trans (by rw [hBody]; rfl)) rfl (.right hAnn hle)
  split
  · exact .ends _ (by simp [Execution.allCalls, TaskResult.makeRemove, hDestructor]) hReports rfl
      hLeafStep (Or.inl ⟨Tree.setParent_count _ _ _, Tree.setParent_root _ _ _⟩)
  split
  · rename_i parent hParent
    exact .climbs _ _ _ p rfl hInserts rfl rfl hAnn hParent.symm hCount hRoot
  · exact .ends _ (by simp [Execution.allCalls, TaskResult.makeRemove, hDestructor]) hReports rfl
      hLeafStep (Or.inr ⟨hInserts, p, hAnn, Tree.createNewRoot_grows hCount p _ _⟩)

omit [BoundedOrder K] in
theorem updateExecute_shape (hAnn : task.annotatedResource = some p)
    (hBody : task.body = .update key value) :
    Shape coreId t task (updateExecute L coreId t task key value p) := by
  have hUpdated : task.body.Reports coreId (.updated coreId key value) := by
    rw [hBody]; exact Or.inl rfl
  have hMissing : ∀ other, other ≠ key → task.body.Reports coreId (.missing coreId other) := by
    intro other hne; rw [hBody]; exact Or.inr ⟨other, hne, rfl⟩
  obtain rfl : task.body.key = key := by rw [hBody]; rfl
  refine writer_shape hAnn (by rw [hBody]; trivial) (by rw [hBody]; rfl) fun hLeafStep => ?_
  have hDestructor : task.body.destructor = [] := by rw [hBody]; rfl
  dsimp only
  split
  · rename_i hSlot
    exact .ends _ (by simp [Execution.allCalls, TaskResult.makeRemove, hDestructor]; rfl)
      (by rw [hSlot]; exact hUpdated) rfl hLeafStep (Or.inl ⟨rfl, rfl⟩)
  · rename_i hSlot
    exact .ends _ (by simp [Execution.allCalls, TaskResult.makeRemove, hDestructor])
      (hMissing _ hSlot) rfl hLeafStep (Or.inl ⟨rfl, rfl⟩)

/-- Every execution has one of the three shapes. -/
theorem execute_shape (h : task.execute L coreId t = some ex) : Shape coreId t task ex := by
  unfold Task.execute at h
  split at h
  · exact absurd h (by simp)
  · rename_i p hAnn
    rw [Option.some.injEq] at h
    subst h
    cases hBody : task.body with
    | insertValue key value => exact insertValueExecute_shape hAnn hBody
    | insertSeparator key separator => exact insertSeparatorExecute_shape hAnn hBody
    | lookup key value core => exact lookupExecute_shape hAnn hBody
    | update key value => exact updateExecute_shape hAnn hBody

/-- No high key is above the largest key: a task with this key goes right wherever it is. -/
theorem execute_top (h : task.execute L coreId t = some ex) (hTop : task.body.key = ⊤) :
    ∃ p, task.annotatedResource = some p ∧
      ex = ⟨t, task.annotate (t.nodes p).rightSibling,
        .makeSucceed (task.annotate (t.nodes p).rightSibling), []⟩ := by
  unfold Task.execute at h
  split at h
  · exact absurd h (by simp)
  · rename_i p hAnn
    refine ⟨p, hAnn, ?_⟩
    rw [Option.some.injEq] at h
    subst h
    cases hBody : task.body with
    | insertValue key value =>
        obtain rfl : key = ⊤ := by rw [hBody] at hTop; exact hTop
        simp [insertValueExecute]
    | insertSeparator key separator =>
        obtain rfl : key = ⊤ := by rw [hBody] at hTop; exact hTop
        simp [insertSeparatorExecute]
    | lookup key value core =>
        obtain rfl : key = ⊤ := by rw [hBody] at hTop; exact hTop
        simp [lookupExecute]
    | update key value =>
        obtain rfl : key = ⊤ := by rw [hBody] at hTop; exact hTop
        simp [updateExecute]

end Shape

/-! ## The invariant -/

/-- `task` works for `request`: it is the task spawned for it or, after a split, a separator
task of an insert. -/
def TaskBody.ServedBy (request task : TaskBody K V) : Prop :=
  task = request ∨ ∃ key value key' separator,
    request = .insertValue key value ∧ task = .insertSeparator key' separator

/-- The invariant of the traced system; `a` is the abstract tree in memory. -/
structure TracedInv (L : Layout K V) (s : TracedState K V) (a : AbstractTree K V) : Prop where
  inv : Inv L s.forget a
  contains : a.Contains s.map
  separators_lt : ∀ r task, (r, task) ∈ s.tasks → ¬ task.body.IsRequest → task.body.key < ⊤
  balance : ∀ r, (s.tasks.map Prod.fst).count r +
    (s.completions.map Completion.request).count r = if r < s.requests.length then 1 else 0
  creator : ∀ r task q, (r, task) ∈ s.tasks → task.carried = some q → s.creator q = some r
  created : ∀ q r, s.creator q = some r → q < s.tree.count
  requests : ∀ request ∈ s.requests, request.IsRequest
  served : ∀ r task, (r, task) ∈ s.tasks →
    ∃ request, s.requests[r]? = some request ∧ request.ServedBy task.body

omit [LinearOrder K] [BoundedOrder K] in
theorem TaskBody.ServedBy.climbs {request task : TaskBody K V} (h : request.ServedBy task)
    (hRequest : request.IsRequest) (hInserts : task.Inserts) (key : K) (separator : Ptr) :
    request.ServedBy (.insertSeparator key separator) := by
  rcases h with rfl | ⟨k, v, _, _, rfl, _⟩
  · cases task with
    | insertValue k v => exact Or.inr ⟨k, v, key, separator, rfl, rfl⟩
    | insertSeparator _ _ => exact absurd hRequest (by simp [TaskBody.IsRequest])
    | lookup _ _ _ => exact absurd hInserts (by simp [TaskBody.Inserts])
    | update _ _ => exact absurd hInserts (by simp [TaskBody.Inserts])
  · exact Or.inr ⟨k, v, key, separator, rfl, rfl⟩

omit [LinearOrder K] [BoundedOrder K] in
theorem carried_of_isRequest (task : Task K V) (h : task.body.IsRequest) :
    task.carried = none := by
  cases hBody : task.body with
  | insertSeparator _ _ => rw [hBody] at h; exact absurd h (by simp [TaskBody.IsRequest])
  | _ => simp [Task.carried, hBody]

theorem mem_forget {s : TracedState K V} {task : Task K V} :
    task ∈ s.forget.tasks ↔ (∃ r, (r, task) ∈ s.tasks) ∧ task.body.key < ⊤ := by
  simp [TracedState.forget, TracedState.untraced]

/-- The tasks after an execution, without the numbers. -/
theorem forget_after (s : TracedState K V) (r : Nat) (task : Task K V)
    (rest : Multiset (Nat × Task K V)) (ex : Execution K V) :
    (s.after r task rest ex).forget =
      ⟨ex.tree, (↑ex.result.successor.toList : Multiset (Task K V)).filter
          (fun task => task.body.key < ⊤) +
        (rest.map Prod.snd).filter fun task => task.body.key < ⊤⟩ := by
  unfold TracedState.forget TracedState.untraced TracedState.after
  cases ex.result.successor with
  | none => simp
  | some next => simp [-Multiset.singleton_add, Multiset.filter_add]

omit [BoundedOrder K] in
theorem mem_after {s : TracedState K V} {r r' : Nat} {task task' : Task K V}
    {rest : Multiset (Nat × Task K V)} {ex : Execution K V} :
    (r', task') ∈ (s.after r task rest ex).tasks ↔
      (r' = r ∧ ex.result.successor = some task') ∨ (r', task') ∈ rest := by
  unfold TracedState.after
  cases hSucc : ex.result.successor with
  | none => simp
  | some next => simp [eq_comm]

section Steps

variable {L : Layout K V} {s s' : TracedState K V} {a : AbstractTree K V} {r coreId : Nat}
  {task : Task K V} {rest : Multiset (Nat × Task K V)} {ex : Execution K V}

theorem TracedInv.spawn (h : TracedInv L s a) {request : TaskBody K V}
    (hRequest : request.IsRequest) (isReadonly : Bool) :
    TracedInv L { s with
      tasks := (s.requests.length, ⟨request, s.tree.root, isReadonly⟩) ::ₘ s.tasks
      requests := s.requests ++ [request] } a := by
  have hNone : (⟨request, s.tree.root, isReadonly⟩ : Task K V).carried = none :=
    carried_of_isRequest _ hRequest
  refine
    { inv := ?_
      contains := h.contains
      separators_lt := ?_
      balance := ?_
      creator := ?_
      created := h.created
      requests := ?_
      served := ?_ }
  · by_cases hKey : request.key < ⊤
    · have hSpawn := h.inv.spawn hRequest hKey isReadonly
      simpa [TracedState.forget, TracedState.untraced, Multiset.filter_cons_of_pos, hKey]
        using hSpawn
    · have hInv := h.inv
      simpa [TracedState.forget, TracedState.untraced, Multiset.filter_cons_of_neg, hKey] using hInv
  · intro r' task' hMem hNot
    rcases Multiset.mem_cons.mp hMem with hEq | hIn
    · obtain ⟨_, rfl⟩ := Prod.mk.inj hEq
      exact absurd hRequest hNot
    · exact h.separators_lt r' task' hIn hNot
  · intro r'
    have hBalance := h.balance r'
    rw [Multiset.map_cons, List.length_append, List.length_singleton]
    by_cases hEq : r' = s.requests.length
    · subst hEq
      rw [Multiset.count_cons_self, if_pos (Nat.lt_succ_self _), Nat.add_right_comm, hBalance,
        if_neg (lt_irrefl _)]
    · rw [Multiset.count_cons_of_ne hEq, hBalance]
      exact if_congr (by omega) rfl rfl
  · intro r' task' q hMem hq
    rcases Multiset.mem_cons.mp hMem with hEq | hIn
    · obtain ⟨_, rfl⟩ := Prod.mk.inj hEq
      exact absurd (hNone.symm.trans hq) (by simp)
    · exact h.creator r' task' q hIn hq
  · intro x hx
    rcases List.mem_append.mp hx with hOld | hNew
    · exact h.requests x hOld
    · rwa [List.mem_singleton.mp hNew]
  · intro r' task' hMem
    rcases Multiset.mem_cons.mp hMem with hEq | hIn
    · obtain ⟨rfl, rfl⟩ := Prod.mk.inj hEq
      exact ⟨request, by simp, Or.inl rfl⟩
    · obtain ⟨x, hx, hServed⟩ := h.served r' task' hIn
      have hLt := (List.getElem?_eq_some_iff.mp hx).1
      exact ⟨x, by rw [List.getElem?_append_left hLt]; exact hx, hServed⟩

variable [Zero V]

/-- The part of a step that is one of the tree and its tasks. -/
theorem TracedInv.outcome (h : TracedInv L s a) (hTasks : s.tasks = (r, task) ::ₘ rest)
    (hEx : task.execute L coreId s.tree = some ex) :
    ∃ a', Inv L (s.after r task rest ex).forget a' ∧
      a'.Contains (s.after r task rest ex).map ∧ s.tree.count ≤ ex.tree.count ∧
      ∀ next, ex.result.successor = some next →
        (¬ next.body.IsRequest → next.body.key < ⊤) ∧
        ∀ q, next.carried = some q →
          task.carried = some q ∨ (s.tree.count ≤ q ∧ q < ex.tree.count) := by
  have hIn : (r, task) ∈ s.tasks := by rw [hTasks]; exact Multiset.mem_cons_self _ _
  rw [forget_after]
  by_cases hKey : task.body.key < ⊤
  · have hMem : task ∈ s.forget.tasks := mem_forget.mpr ⟨⟨r, hIn⟩, hKey⟩
    have hForget : s.forget.tasks =
        task ::ₘ (rest.map Prod.snd).filter fun task => task.body.key < ⊤ := by
      rw [TracedState.forget, TracedState.untraced, hTasks, Multiset.map_cons]
      exact Multiset.filter_cons_of_pos _ hKey
    have hUnposted : ∀ q, task.carried = some q → a.Unposted q := by
      intro q hq
      rw [← h.inv.carried q, hForget, carriedSeparators_cons, hq]
      simp
    obtain ⟨a', hOut⟩ := execute_outcome coreId h.inv.rep h.inv.valid h.inv.rootOnly
      (h.inv.tasks task hMem) hUnposted hEx
    obtain ⟨done, fresh, hAdv, hCarry⟩ := hOut.advance
    have hInv := h.inv.advance hForget hOut.rep hAdv hOut.ok hCarry
    refine ⟨a', ?_, hOut.contains _ h.contains, ?_, fun next hNext => ⟨fun _ => ?_, fun q hq => ?_⟩⟩
    · -- the successor has a key below the maximum, so it is not forgotten
      cases hSucc : ex.result.successor with
      | none => simpa [hSucc] using hInv
      | some next =>
          have hNextKey : next.body.key < ⊤ := (hOut.ok next hSucc).key_lt
          simpa [hSucc, Multiset.filter_singleton, hNextKey] using hInv
    · rw [hOut.rep.count, show s.tree.count = a.count from h.inv.rep.count]
      exact hAdv.grows.count_le
    · exact (hOut.ok next hNext).key_lt
    · rw [hNext, Option.bind_some] at hCarry
      rcases hCarry with ⟨_, hFresh⟩ | ⟨_, _, hSame⟩
      · refine Or.inr ⟨?_, ?_⟩
        · rw [show s.tree.count = a.count from h.inv.rep.count]
          exact hAdv.fresh_le q (hFresh.symm.trans hq)
        · rw [hOut.rep.count]
          exact ((hAdv.unposted q).mpr (Or.inl (hFresh.symm.trans hq))).1
      · exact Or.inl (hSame.symm.trans hq)
  · have hTop : task.body.key = ⊤ := not_lt_top_iff.mp hKey
    have hRequest : task.body.IsRequest := by
      by_contra hNot
      exact hKey (h.separators_lt r task hIn hNot)
    have hLeafStep : task.leafStep s.tree = none := by
      obtain ⟨p, hAnn, _⟩ := execute_top hEx hTop
      exact leafStep_of_right hAnn (by rw [hTop]; exact le_top)
    obtain ⟨p, hAnn, rfl⟩ := execute_top hEx hTop
    refine ⟨a, ?_, ?_, le_refl _, fun next hNext => ?_⟩
    · have hForget : s.forget.tasks =
          (rest.map Prod.snd).filter fun task => task.body.key < ⊤ := by
        rw [TracedState.forget, TracedState.untraced, hTasks, Multiset.map_cons]
        exact Multiset.filter_cons_of_neg _ hKey
      have hNext : ¬ (task.annotate (s.tree.nodes p).rightSibling).body.key < ⊤ := hKey
      have hInv : Inv L ⟨s.tree, s.forget.tasks⟩ a := h.inv
      simpa [TaskResult.makeSucceed, Multiset.filter_singleton, hNext, hForget] using hInv
    · simpa [TracedState.after, hLeafStep] using h.contains
    · obtain rfl : task.annotate (s.tree.nodes p).rightSibling = next := by
        simpa [TaskResult.makeSucceed] using hNext
      refine ⟨fun hNot => absurd hRequest hNot, fun q hq => ?_⟩
      exact absurd ((carried_of_isRequest (task.annotate _) hRequest).symm.trans hq) (by simp)

/-- One task or one call: an execution hands the request on or completes it. -/
theorem count_after (hTasks : s.tasks = (r, task) ::ₘ rest)
    (hEx : task.execute L coreId s.tree = some ex) (r' : Nat) :
    ((s.after r task rest ex).tasks.map Prod.fst).count r' +
        ((s.after r task rest ex).completions.map Completion.request).count r' =
      (s.tasks.map Prod.fst).count r' + (s.completions.map Completion.request).count r' := by
  have hOne : (ex.allCalls = [] ∧ ∃ next, ex.result.successor = some next) ∨
      (∃ call, ex.allCalls = [call]) ∧ ex.result.successor = none := by
    cases execute_shape hEx with
    | moves next _ hCalls _ hSucc _ => exact Or.inl ⟨hCalls, next, hSucc⟩
    | ends call hCalls _ hSucc _ _ => exact Or.inr ⟨⟨call, hCalls⟩, hSucc⟩
    | climbs next _ _ _ hCalls _ hSucc => exact Or.inl ⟨hCalls, next, hSucc⟩
  rcases hOne with ⟨hCalls, next, hSucc⟩ | ⟨⟨call, hCalls⟩, hSucc⟩
  · have hSame : (s.after r task rest ex).tasks = (r, next) ::ₘ rest := by
      simp [TracedState.after, hSucc]
    have hCompletions : (s.after r task rest ex).completions = s.completions := by
      simp [TracedState.after, hCalls]
    rw [hSame, hCompletions, hTasks, Multiset.map_cons, Multiset.map_cons]
  · have hGone : (s.after r task rest ex).tasks = rest := by simp [TracedState.after, hSucc]
    have hCompletions : (s.after r task rest ex).completions.map Completion.request =
        s.completions.map Completion.request ++ [r] := by simp [TracedState.after, hCalls]
    rw [hGone, hCompletions, hTasks, Multiset.map_cons, List.count_append]
    by_cases hr : r' = r
    · subst hr
      rw [Multiset.count_cons_self, List.count_singleton_self]
      omega
    · rw [Multiset.count_cons_of_ne hr, List.count_singleton, if_neg (by simpa using Ne.symm hr)]
      omega

theorem TracedInv.execute (h : TracedInv L s a) (hTasks : s.tasks = (r, task) ::ₘ rest)
    (hEx : task.execute L coreId s.tree = some ex) :
    ∃ a', TracedInv L (s.after r task rest ex) a' := by
  obtain ⟨a', hInv, hContains, hCount, hNext⟩ := h.outcome hTasks hEx
  have hIn : (r, task) ∈ s.tasks := by rw [hTasks]; exact Multiset.mem_cons_self _ _
  have hRest : ∀ x, x ∈ rest → x ∈ s.tasks := fun x hx => by
    rw [hTasks]; exact Multiset.mem_cons_of_mem hx
  have hOld : ∀ q r', s.creator q = some r' →
      (s.after r task rest ex).creator q = some r' := by
    intro q r' hq
    have hLt := h.created q r' hq
    exact (if_neg (by omega)).trans hq
  refine ⟨a',
    { inv := hInv
      contains := hContains
      separators_lt := ?_
      balance := fun r' => (count_after hTasks hEx r').trans (h.balance r')
      creator := ?_
      created := ?_
      requests := h.requests
      served := ?_ }⟩
  · intro r' task' hMem
    rcases mem_after.mp hMem with ⟨_, hSucc⟩ | hIn'
    · exact (hNext task' hSucc).1
    · exact h.separators_lt r' task' (hRest _ hIn')
  · intro r' task' q hMem hq
    rcases mem_after.mp hMem with ⟨rfl, hSucc⟩ | hIn'
    · rcases (hNext task' hSucc).2 q hq with hSame | hNew
      · exact hOld q r' (h.creator r' task q hIn hSame)
      · exact if_pos hNew
    · exact hOld q r' (h.creator r' task' q (hRest _ hIn') hq)
  · intro q r' hq
    change (if s.tree.count ≤ q ∧ q < ex.tree.count then some r else s.creator q) = some r' at hq
    split at hq
    · rename_i hNew
      exact hNew.2
    · exact lt_of_lt_of_le (h.created q r' hq) hCount
  · intro r' task' hMem
    rcases mem_after.mp hMem with ⟨rfl, hSucc⟩ | hIn'
    · obtain ⟨request, hRequest, hServed⟩ := h.served r' task hIn
      refine ⟨request, hRequest, ?_⟩
      cases execute_shape hEx with
      | moves next _ _ _ hSucc' hMoves =>
          obtain rfl : next = task' := by simpa [hSucc] using hSucc'.symm
          rwa [hMoves.body_eq]
      | ends _ _ _ hSucc' _ _ => exact absurd (hSucc.symm.trans hSucc') (by simp)
      | climbs next key separator _ _ hInserts hSucc' hBody =>
          obtain rfl : next = task' := by simpa [hSucc] using hSucc'.symm
          rw [hBody]
          exact hServed.climbs (h.requests _ (List.mem_of_getElem? hRequest)) hInserts key separator
    · exact h.served r' task' (hRest _ hIn')

theorem TracedInv.step {e : TracedEvent K V} (h : TracedInv L s a) (hStep : TracedStep L s e s') :
    ∃ a', TracedInv L s' a' := by
  cases hStep with
  | spawn request isReadonly hRequest => exact ⟨a, h.spawn hRequest isReadonly⟩
  | execute coreId hTasks hEx => exact h.execute hTasks hEx

theorem TracedInv.run [Nontrivial K] {memory : Nat → Node K V} {log : List (TracedEvent K V)}
    (hRun : Verified.Run (TracedStep L) (TracedState.initial memory) log s) :
    ∃ a, TracedInv L s a := by
  refine hRun.invariant (P := fun s => ∃ a, TracedInv L s a) ?_ ?_
  · exact ⟨_,
      { inv := Inv.initial L memory
        contains := fun k v => by simp [Stores, TracedState.initial]
        separators_lt := fun r task hMem => absurd hMem (Multiset.notMem_zero _)
        balance := fun r => by simp [TracedState.initial]
        creator := fun r task q hMem => absurd hMem (Multiset.notMem_zero _)
        created := fun q r hq => absurd hq (by simp [TracedState.initial])
        requests := fun request hMem => absurd hMem (by simp [TracedState.initial])
        served := fun r task hMem => absurd hMem (Multiset.notMem_zero _) }⟩
  · rintro e mid fin ⟨a, h⟩ hStep
    exact h.step hStep

/-- After every run of the system, whatever the keys: the tree in memory, the map it contains, and
with nothing in flight every node besides the root is posted. -/
theorem Rep.of_run [Nontrivial K] {memory : Nat → Node K V} {log : List (Event K V)}
    {u : State K V} (hRun : Verified.Run (Step L) (State.initial memory) log u) :
    ∃ a : AbstractTree K V, Rep L u.tree a ∧ a.Valid ∧ a.RootOnly ∧ a.Contains (mapAfter log) ∧
      (u.tasks = 0 → ∀ q, ¬ a.Unposted q) := by
  obtain ⟨_, s', hRun', rfl, hMap⟩ := run_traced hRun
  obtain ⟨a, h⟩ := TracedInv.run hRun'
  refine ⟨a, h.inv.rep, h.inv.valid, h.inv.rootOnly, hMap ▸ h.contains, fun hTasks q hq => ?_⟩
  rw [← h.inv.carried q, TracedState.forget, hTasks] at hq
  exact absurd hq (by simp [carriedSeparators])

end Steps

/-! ## One completion per request -/

/-- `q` is separator `i` of the inner node `p`. -/
def Tree.SeparatorAt (t : Tree K V) (q p i : Nat) : Prop :=
  p < t.count ∧ (t.nodes p).isInner = true ∧ i ≤ (t.nodes p).size ∧
    (t.nodes p).separators i = some q

/-- A node is a separator in one place only: the parent link names the inner node, the low
bound the slot. -/
theorem Rep.separatorAt_unique {L : Layout K V} {t : Tree K V} {a : AbstractTree K V}
    (h : Rep L t a) (hValid : a.Valid) {q p i p' i' : Nat} (hAt : t.SeparatorAt q p i)
    (hAt' : t.SeparatorAt q p' i') : p = p' ∧ i = i' := by
  obtain ⟨hp, hInner, hi, hSep⟩ := hAt
  obtain ⟨hp', hInner', hi', hSep'⟩ := hAt'
  rw [h.count] at hp hp'
  have hPos := (h.nodes p hp).isInner_iff.mp hInner
  obtain ⟨x, hx, _, _, hLow, hChild⟩ := h.separator_spec hValid hp hPos hi
  obtain ⟨x', hx', _, _, hLow', hChild'⟩ :=
    h.separator_spec hValid hp' ((h.nodes p' hp').isInner_iff.mp hInner') hi'
  obtain rfl : q = x := by simpa [hSep] using hx
  obtain rfl : q = x' := by simpa [hSep'] using hx'
  obtain ⟨_, _, _, hParent, _⟩ := hValid.child_some p hp _ q hChild
  obtain ⟨_, _, _, hParent', _⟩ := hValid.child_some p' hp' _ q hChild'
  obtain rfl : p = p' := by simpa [hParent] using hParent'
  refine ⟨rfl, ?_⟩
  have hAscending := ((h.nodes p hp).routes hPos).1.ascending
  have hSlot : ∀ j, insertSlot (t.nodes p).keys 0 (a.nodes p).low j =
      if j = 0 then (a.nodes p).low else (t.nodes p).keys (j - 1) := by
    intro j
    cases j <;> simp
  refine hAscending.inj (Nat.lt_succ_of_le hi) (Nat.lt_succ_of_le hi') ?_
  rw [hSlot, hSlot, ← hLow, ← hLow']

section Completions

variable [Nontrivial K] [Zero V] (L : Layout K V) (memory : Nat → Node K V)
  (log : List (TracedEvent K V)) (s : TracedState K V)

/-- How often the listener was called for request `r`. -/
def TracedState.calls (s : TracedState K V) (r : Nat) : Nat :=
  (s.completions.map Completion.request).count r

/-- After every run: the listener was called at most once for a request, and once exactly when
no task works for it any more; what a request that was reported has built is in the tree, as the
root or as a separator; and when every request was reported, nothing is in flight and every node
besides the root is a separator in exactly one place. -/
theorem completion_of_run
    (hRun : Verified.Run (TracedStep L) (TracedState.initial memory) log s) :
    (∀ r, s.calls r ≤ 1) ∧
    (∀ r, r < s.requests.length → (s.calls r = 1 ↔ ∀ task, (r, task) ∉ s.tasks)) ∧
    (∀ r, s.calls r = 1 → ∀ q, s.creator q = some r →
      s.tree.root = some q ∨ s.tree.IsSeparator q) ∧
    ((∀ r, r < s.requests.length → s.calls r = 1) →
      s.tasks = 0 ∧ ∀ q, q < s.tree.count → s.tree.root ≠ some q →
        ∃ p i, s.tree.SeparatorAt q p i ∧
          ∀ p' i', s.tree.SeparatorAt q p' i' → p' = p ∧ i' = i) := by
  obtain ⟨a, h⟩ := TracedInv.run hRun
  have hRep : Rep L s.tree a := h.inv.rep
  have hBalance : ∀ r, (s.tasks.map Prod.fst).count r + s.calls r =
      if r < s.requests.length then 1 else 0 := h.balance
  have hInFlight : ∀ r, (s.tasks.map Prod.fst).count r = 0 ↔ ∀ task, (r, task) ∉ s.tasks := by
    intro r
    rw [Multiset.count_eq_zero, Multiset.mem_map]
    constructor
    · exact fun hNot task hIn => hNot ⟨(r, task), hIn, rfl⟩
    · rintro hNot ⟨⟨_, task⟩, hIn, rfl⟩
      exact hNot task hIn
  -- a node that is not in the tree yet is carried by a task of the request that created it
  have hMissing : ∀ q, q < s.tree.count → s.tree.root ≠ some q → ¬ s.tree.IsSeparator q →
      ∃ r task, (r, task) ∈ s.tasks ∧ task.carried = some q := by
    intro q hq hRoot hSep
    rw [hRep.isSeparator_iff h.inv.valid] at hSep
    have hUnposted : a.Unposted q :=
      ⟨by rw [← hRep.count]; exact hq, fun hEq => hRoot (by rw [hRep.root, hEq]), hSep⟩
    obtain ⟨task, hTask, hCarried⟩ :=
      (Multiset.mem_filterMap _ _).mp ((h.inv.carried q).mpr hUnposted)
    obtain ⟨⟨r, hIn⟩, _⟩ := mem_forget.mp hTask
    exact ⟨r, task, hIn, hCarried⟩
  refine ⟨fun r => ?_, fun r hr => ?_, fun r hCall q hq => ?_, fun hAll => ?_⟩
  · have := hBalance r
    split at this <;> omega
  · have := hBalance r
    rw [if_pos hr] at this
    rw [← hInFlight]
    omega
  · by_contra hNot
    rw [not_or] at hNot
    obtain ⟨r', task, hIn, hCarried⟩ := hMissing q (h.created q r hq) hNot.1 hNot.2
    obtain rfl : r' = r := by simpa [hq] using (h.creator r' task q hIn hCarried).symm
    have hSome : (s.tasks.map Prod.fst).count r' ≠ 0 := fun hZero =>
      (hInFlight r').mp hZero task hIn
    have := hBalance r'
    split at this <;> omega
  · have hNone : ∀ x, x ∉ s.tasks := by
      rintro ⟨r, task⟩ hIn
      obtain ⟨request, hRequest, _⟩ := h.served r task hIn
      have hr := (List.getElem?_eq_some_iff.mp hRequest).1
      have := hBalance r
      rw [if_pos hr, hAll r hr] at this
      exact (hInFlight r).mp (by omega) task hIn
    refine ⟨Multiset.eq_zero_of_forall_notMem hNone, fun q hq hRoot => ?_⟩
    by_contra hNot
    refine hNot ?_
    have hSep : s.tree.IsSeparator q := by
      by_contra hSep
      obtain ⟨r, task, hIn, _⟩ := hMissing q hq hRoot hSep
      exact hNone _ hIn
    obtain ⟨p, i, hAt⟩ := hSep
    exact ⟨p, i, hAt, fun p' i' hAt' => hRep.separatorAt_unique h.inv.valid hAt' hAt⟩

/-- The run of one insert ends with one call and nothing in flight. -/
theorem completion_of_run_insert :
    ∃ log s, Verified.Run (TracedStep Layout.benchmark) (TracedState.initial zeroMemory) log s ∧
      log.length = 2 ∧ s.requests.length = 1 ∧ s.tasks = 0 ∧ s.calls 0 = 1 := by
  have hSpawn := TracedStep.spawn (L := Layout.benchmark) (s := TracedState.initial zeroMemory)
    (.insertValue 5 7) false trivial
  have hExecute := TracedStep.execute (L := Layout.benchmark)
    (s := { TracedState.initial zeroMemory with
      tasks := (0, ⟨.insertValue 5 7, some 0, false⟩) ::ₘ 0
      requests := [.insertValue 5 7] })
    0 (show _ = (0, ⟨.insertValue 5 7, some 0, false⟩) ::ₘ 0 from rfl) rfl
  have hRun := (Verified.Run.single hSpawn).snoc hExecute
  refine ⟨_, _, hRun, rfl, rfl, rfl, ?_⟩
  refine ((completion_of_run _ _ _ _ hRun).2.1 0 Nat.zero_lt_one).mpr fun task hIn => ?_
  exact absurd hIn (Multiset.notMem_zero _)

end Completions

end MxTasking.BLinkTree
