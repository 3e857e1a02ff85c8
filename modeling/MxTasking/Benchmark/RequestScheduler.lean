import MxTasking.Benchmark.RequestContainer
import MxTasking.BLinkTree.Durability
import MxTasking.Verified.Counting
import MxTasking.Verified.Parts

/-!
# A phase of the benchmark

`RequestSchedulerTask` of `request_scheduler.h`, with `Benchmark::start` and
`Benchmark::requests_finished` of `benchmark.cpp`, over the request containers and the tree with
its tasks in flight.  Each core has a scheduler.  It takes portions of indices from its container
and spawns a request for each; the listener of a request is the container it came from.  When the
container says that it is finished, the scheduler counts itself as done, deletes the container and
dies; the last one stops the benchmark.

A task of the tree works on its node, calls its listener, returns from `execute()`, and only then
its worker spawns the successor and deletes the task, which for a lookup makes the call.  These are
steps of their own: between the call and the return other workers go on, and so may the scheduler
that has been told.  Schedulers and executions are interleaved in any order.

## Main results

* `PhaseInv.step` — the invariant over one step.
* `phase_of_run` — nothing refers to a container that was deleted; and when the last scheduler is
  done, every request was reported once, the tree has the keys it had and those of the inserts, and
  the executions that are left have only to end.
-/

namespace MxTasking.Benchmark

open MxTasking.Verified
open MxTasking.BLinkTree (TaskBody Task Execution ListenerCall Layout TracedState TracedStep
  TracedEvent TracedInv Durable)

/-! ## Tuples and the tasks for them -/

/-- `NumericTuple::Type`. -/
inductive TupleType where
  | insert
  | lookup
  | update
  | delete
  deriving DecidableEq, Repr

/-- `NumericTuple`. -/
structure NumericTuple (K V : Type*) where
  type : TupleType
  key : K
  value : V
  deriving DecidableEq, Repr

/-- The task for a tuple and whether it is a reader, by the height of the tree that was read.  The
value of a new `LookupTask` is whatever lies there; for `DELETE` there is no task. -/
def NumericTuple.newTask {K V : Type*} (tuple : NumericTuple K V) (height : UInt8) (unset : V) :
    Option (TaskBody K V × Bool) :=
  match tuple.type with
  | .insert => some (.insertValue tuple.key tuple.value, decide (1 < height))
  | .lookup => some (.lookup tuple.key unset 0, true)
  | .update => some (.update tuple.key tuple.value, decide (1 < height))
  | .delete => none

/-- The core that calls the listener. -/
def callingCore {K V : Type*} : ListenerCall K V → Nat
  | .inserted coreId _ _ => coreId
  | .updated coreId _ _ => coreId
  | .found coreId _ _ => coreId
  | .missing coreId _ => coreId

/-! ## The start of a phase -/

/-- `config::max_parallel_requests()`. -/
def maxParallelRequests : Nat := 1500

/-- The containers over the workload after one more was constructed. -/
def State.constructed {ι : Type*} [DecidableEq ι] (s : State ι) (i : ι)
    (coreId maxOpenRequests : Nat) : State ι :=
  { s with
    workload := (RequestContainer.construct coreId maxOpenRequests s.workload).2
    containers := Function.update s.containers i
      (some (RequestContainer.construct coreId maxOpenRequests s.workload).1) }

/-- The containers of `n` cores, whose schedulers `start()` constructs one after the other. -/
def State.start (n size : Nat) : State (Fin n) :=
  (List.finRange n).foldl (fun s i => s.constructed i i (maxParallelRequests / n))
    (State.initial size)

/-! ## The system -/

/-- An execution that has worked on its node: the calls of listeners it has still to make, and
until `execute()` has returned what it returns. -/
structure Running (K V : Type*) where
  request : Nat
  calls : List (ListenerCall K V)
  returns : Option (Execution K V)

section Running

variable {K V : Type*}

/-- The calls that are made when the worker deletes the task. -/
def deletion (ex : Execution K V) : List (ListenerCall K V) :=
  if ex.result.isRemove then ex.this.body.destructor else []

/-- All calls that are still to come. -/
def Running.pending (e : Running K V) : List (ListenerCall K V) :=
  e.calls ++ (e.returns.map deletion).getD []

/-- The task that the worker will spawn. -/
def Running.successor (e : Running K V) : Multiset (Nat × Task K V) :=
  ↑((e.returns.bind fun ex => ex.result.successor).map (Prod.mk e.request)).toList

/-- Nothing is left to do but to return and to delete the task. -/
def Running.Spent (e : Running K V) : Prop := e.pending = [] ∧ e.successor = 0

end Running

/-- The containers, the tree with the tasks in the channels, the executions that are not over yet,
and what is left of the loop over a portion.  `origin` names the scheduler and the index a request
of the tree was made for; it is `none` for a request of an earlier phase. -/
structure PhaseState (ι K V : Type*) where
  containers : State ι
  tree : TracedState K V
  running : Multiset (Running K V)
  portion : ι → List Nat
  origin : List (Option (ι × Nat))
  /-- Whether the scheduler has deleted its container and itself. -/
  removed : ι → Bool
  openRequests : Nat

/-- The state after a round of the loop of the scheduler `i`, which has made `request` for the
index `x`. -/
def PhaseState.afterSpawn {ι K V : Type*} [DecidableEq ι] (s : PhaseState ι K V) (i : ι) (x : Nat)
    (rest : List Nat) (request : TaskBody K V) (isReadonly : Bool) : PhaseState ι K V where
  containers := s.containers
  tree := { s.tree with
    tasks := (s.tree.requests.length, ⟨request, s.tree.tree.root, isReadonly⟩) ::ₘ s.tree.tasks
    requests := s.tree.requests ++ [request] }
  running := s.running
  portion := Function.update s.portion i rest
  origin := s.origin ++ [some (i, x)]
  removed := s.removed
  openRequests := s.openRequests

inductive PhaseEvent (ι K V : Type*) where
  | load (i : ι)
  | next (i : ι)
  | spawn (i : ι) (request : TaskBody K V)
  | execute (request coreId : Nat) (task : Task K V)
  | report (request coreId : Nat)
  | returned (request : Nat)
  | deleted (request : Nat)
  | finish (i : ι)

section System

variable {ι K V : Type*} [DecidableEq ι] [LinearOrder K] [BoundedOrder K] [Zero V]

inductive PhaseStep (L : Layout K V) (tuples : List (NumericTuple K V)) :
    PhaseState ι K V → PhaseEvent ι K V → PhaseState ι K V → Prop where
  /-- `execute()` of a scheduler begins, in the container. -/
  | load {s : PhaseState ι K V} {i : ι} {c : RequestContainer} :
      s.containers.finished i = false → s.portion i = [] →
      s.containers.containers i = some c → s.containers.loaded i = none →
      PhaseStep L tuples s (.load i)
        { s with containers :=
            { s.containers with
              loaded := Function.update s.containers.loaded i (some c.finishedRequests.load) } }
  | next {s : PhaseState ι K V} {i : ι} {c : RequestContainer} {finishedRequests : Nat} :
      s.containers.containers i = some c → s.containers.loaded i = some finishedRequests →
      PhaseStep L tuples s (.next i)
        { s with
          containers := s.containers.afterNext i (c.next s.containers.workload finishedRequests)
          portion := Function.update s.portion i
            (c.next s.containers.workload finishedRequests).2.2.indices }
  /-- One round of the loop over the portion. -/
  | spawn {s : PhaseState ι K V} {i : ι} {x : Nat} {rest : List Nat} {tuple : NumericTuple K V}
      {request : TaskBody K V} {isReadonly : Bool} (height : UInt8) (unset : V) :
      s.portion i = x :: rest → tuples[x]? = some tuple →
      tuple.newTask height unset = some (request, isReadonly) →
      PhaseStep L tuples s (.spawn i request) (s.afterSpawn i x rest request isReadonly)
  /-- A task has worked on its node. -/
  | execute {s : PhaseState ι K V} (coreId : Nat) {request : Nat} {task : Task K V}
      {rest : Multiset (Nat × Task K V)} {ex : Execution K V} :
      s.tree.tasks = (request, task) ::ₘ rest → task.execute L coreId s.tree.tree = some ex →
      PhaseStep L tuples s (.execute request coreId task)
        { s with
          tree := { s.tree.after request task rest ex with tasks := rest }
          running := ⟨request, ex.calls, some ex⟩ ::ₘ s.running }
  /-- It calls its listener, in `execute()` or in the destructor: the container counts the call. -/
  | report {s : PhaseState ι K V} {request : Nat} {call : ListenerCall K V}
      {calls : List (ListenerCall K V)} {returns : Option (Execution K V)}
      {rest : Multiset (Running K V)} {i : ι} {x : Nat} {c : RequestContainer} :
      s.running = ⟨request, call :: calls, returns⟩ ::ₘ rest →
      s.origin[request]? = some (some (i, x)) → s.containers.containers i = some c →
      PhaseStep L tuples s (.report request (callingCore call))
        { s with
          containers :=
            { s.containers with
              containers := Function.update s.containers.containers i
                (some { c with finishedRequests := c.finishedRequests.add (callingCore call) 1 })
              reported := Function.update s.containers.reported i
                (x :: s.containers.reported i) }
          running := ⟨request, calls, returns⟩ ::ₘ rest }
  /-- `execute()` returns, and the worker spawns the successor. -/
  | returned {s : PhaseState ι K V} {request : Nat} {ex : Execution K V}
      {rest : Multiset (Running K V)} :
      s.running = ⟨request, [], some ex⟩ ::ₘ rest →
      PhaseStep L tuples s (.returned request)
        { s with
          tree := { s.tree with
            tasks := ↑(ex.result.successor.map (Prod.mk request)).toList + s.tree.tasks }
          running := ⟨request, deletion ex, none⟩ ::ₘ rest }
  /-- The task is deleted, if it was to be. -/
  | deleted {s : PhaseState ι K V} {request : Nat} {rest : Multiset (Running K V)} :
      s.running = ⟨request, [], none⟩ ::ₘ rest →
      PhaseStep L tuples s (.deleted request) { s with running := rest }
  /-- `requests_finished()`, and the scheduler and its container are gone. -/
  | finish {s : PhaseState ι K V} {i : ι} :
      s.containers.finished i = true → s.removed i = false →
      PhaseStep L tuples s (.finish i)
        { s with
          removed := Function.update s.removed i true
          openRequests := (s.openRequests + (2 ^ 16 - 1)) % 2 ^ 16 }

end System

/-- The state after `start()`, over the tree that is there. -/
def PhaseState.start {K V : Type*} (n size : Nat) (tree : TracedState K V) :
    PhaseState (Fin n) K V where
  containers := State.start n size
  tree := tree
  running := 0
  portion _ := []
  origin := List.replicate tree.requests.length none
  removed _ := false
  openRequests := n % 2 ^ 16

/-! ## The invariant -/

section Invariant

variable {ι K V : Type*}

/-- What the scheduler spawns is a request. -/
theorem NumericTuple.isRequest (tuple : NumericTuple K V) {height : UInt8} {unset : V}
    {request : TaskBody K V} {isReadonly : Bool}
    (h : tuple.newTask height unset = some (request, isReadonly)) : request.IsRequest := by
  cases hType : tuple.type <;> simp [newTask, hType] at h
  all_goals
    obtain ⟨rfl, _⟩ := h
    trivial

/-- The request `r` was made for index `x` of the scheduler `i`. -/
def PhaseState.From (s : PhaseState ι K V) (r : Nat) (i : ι) (x : Nat) : Prop :=
  s.origin[r]? = some (some (i, x))

theorem PhaseState.From.lt {s : PhaseState ι K V} {r : Nat} {i : ι} {x : Nat}
    (h : s.From r i x) : r < s.origin.length :=
  (List.getElem?_eq_some_iff.mp h).1

/-- The tree when every execution has returned. -/
def PhaseState.settled (s : PhaseState ι K V) : TracedState K V :=
  { s.tree with tasks := s.running.bind Running.successor + s.tree.tasks }

/-- The tasks that are to be spawned show in the tree when all have returned. -/
theorem PhaseState.mem_settled {s : PhaseState ι K V} {p : Nat × Task K V} :
    p ∈ s.settled.tasks ↔ (∃ e ∈ s.running, p ∈ e.successor) ∨ p ∈ s.tree.tasks := by
  rw [settled, Multiset.mem_add, Multiset.mem_bind]

/-- The tree when no task is to be spawned. -/
theorem PhaseState.settled_eq {s : PhaseState ι K V}
    (hSpent : ∀ e ∈ s.running, e.Spent) : s.settled = s.tree := by
  have hNone : s.running.bind Running.successor = 0 := by
    refine Multiset.eq_zero_of_forall_notMem fun p hp => ?_
    obtain ⟨e, he, hIn⟩ := Multiset.mem_bind.mp hp
    rw [(hSpent e he).2] at hIn
    exact Multiset.notMem_zero p hIn
  rw [settled, hNone, Multiset.zero_add]

theorem Running.request_eq {e : Running K V} {r : Nat} {task : Task K V}
    (h : (r, task) ∈ e.successor) : e.request = r := by
  obtain ⟨_, _, hEq⟩ := Option.map_eq_some_iff.mp (Option.mem_toList.mp (Multiset.mem_coe.mp h))
  exact (Prod.mk.inj hEq).1

/-- The requests whose listeners are still to be called, each for every call. -/
def due (running : Multiset (Running K V)) : Multiset Nat :=
  running.bind fun e => Multiset.replicate e.pending.length e.request

theorem due_cons (e : Running K V) (rest : Multiset (Running K V)) :
    due (e ::ₘ rest) = Multiset.replicate e.pending.length e.request + due rest :=
  Multiset.cons_bind ..

/-- An execution from which no call is to come. -/
theorem Running.pending_eq_nil {e : Running K V} {running : Multiset (Running K V)}
    (hIn : e ∈ running) (hDue : (due running).count e.request = 0) : e.pending = [] := by
  obtain ⟨rest, rfl⟩ := Multiset.exists_cons_of_mem hIn
  rw [due_cons, Multiset.count_add, Multiset.count_replicate_self] at hDue
  exact List.eq_nil_of_length_eq_zero (Nat.eq_zero_of_add_eq_zero_right hDue)

variable [DecidableEq ι]

/-- The indices for which a scheduler has spawned requests, in order. -/
def PhaseState.spawned (s : PhaseState ι K V) (i : ι) : List Nat :=
  s.origin.filterMap fun o => o.bind fun p => if p.1 = i then some p.2 else none

theorem PhaseState.From.mem {s : PhaseState ι K V} {r : Nat} {i : ι} {x : Nat}
    (h : s.From r i x) : x ∈ s.spawned i :=
  List.mem_filterMap.mpr ⟨_, List.mem_of_getElem? h, by simp⟩

theorem PhaseState.exists_from {s : PhaseState ι K V} {i : ι} {x : Nat}
    (h : x ∈ s.spawned i) : ∃ r, s.From r i x := by
  obtain ⟨o, hMem, hFound⟩ := List.mem_filterMap.mp h
  obtain ⟨⟨j, y⟩, rfl, hSame⟩ := Option.bind_eq_some_iff.mp hFound
  obtain ⟨hj, rfl⟩ : j = i ∧ y = x := by simpa using hSame
  subst hj
  exact List.getElem?_of_mem hMem

theorem PhaseState.from_afterSpawn {s : PhaseState ι K V} {i j : ι} {x y r : Nat}
    {rest : List Nat} {request : TaskBody K V} {isReadonly : Bool} :
    (s.afterSpawn i x rest request isReadonly).From r j y ↔
      s.From r j y ∨ (r = s.origin.length ∧ j = i ∧ y = x) := by
  show (s.origin ++ [some (i, x)])[r]? = some (some (j, y)) ↔ _
  rcases Nat.lt_trichotomy r s.origin.length with hLess | rfl | hMore
  · rw [List.getElem?_append_left hLess]
    exact ⟨Or.inl, fun h => h.resolve_right fun hNew => absurd hNew.1 hLess.ne⟩
  · have hNot : ¬ s.From s.origin.length j y := fun h => Nat.lt_irrefl _ h.lt
    rw [List.getElem?_concat_length]
    simp [hNot, eq_comm]
  · have hNot : ¬ s.From r j y := fun h => absurd h.lt (by omega)
    rw [List.getElem?_eq_none (by simp; omega)]
    simp [hNot, hMore.ne']

variable [LinearOrder K]

/-- The calls after an execution. -/
theorem calls_after (s : TracedState K V) (r r' : Nat) (task : Task K V)
    (rest : Multiset (Nat × Task K V)) (ex : Execution K V) :
    (s.after r task rest ex).calls r' =
      (Multiset.replicate ex.allCalls.length r).count r' + s.calls r' := by
  unfold TracedState.calls TracedState.after
  rw [List.map_append, List.count_append, List.map_map, Nat.add_comm, ← Multiset.coe_replicate,
    Multiset.coe_count, ← List.map_const']
  rfl

variable [BoundedOrder K] [Zero V]

/-- The invariant.  The executions that have not returned do not show in the tree.  A request of
this phase has been handed out by its container; and a call of its listener is still to come, or
the container has counted it. -/
structure PhaseInv [Fintype ι] (L : Layout K V) (tuples : List (NumericTuple K V))
    (t : TracedState K V) (s : PhaseState ι K V) : Prop where
  containers : Inv tuples.length s.containers
  tree : ∃ log, Run (TracedStep L) t log s.settled
  length_eq : s.origin.length = s.tree.requests.length
  older : ∀ r, s.origin[r]? = some none → r < t.requests.length
  asked : ∀ r i x, s.From r i x → ∃ tuple request height unset isReadonly,
    tuples[x]? = some tuple ∧ s.tree.requests[r]? = some request ∧
      tuple.newTask height unset = some (request, isReadonly)
  working : ∀ r task, (r, task) ∈ s.tree.tasks → ∃ i x, s.From r i x
  running : ∀ e ∈ s.running, ∃ i x, s.From e.request i x
  spawned : ∀ i, s.spawned i ++ s.portion i = s.containers.handedOut i
  reported : ∀ i x, x ∈ s.containers.reported i → ∃ r, s.From r i x
  counted : ∀ r i x, s.From r i x →
    s.tree.calls r = (due s.running).count r + (s.containers.reported i).count x
  called : ∀ i, s.containers.loaded i ≠ none →
    s.portion i = [] ∧ s.containers.finished i = false
  finished : ∀ i, s.containers.finished i = true → s.portion i = []
  removed : ∀ i, s.removed i = true → s.containers.finished i = true
  openRequests : s.openRequests = number (fun isRemoved => !isRemoved) s.removed

namespace PhaseInv

variable [Fintype ι] {L : Layout K V} {tuples : List (NumericTuple K V)} {t : TracedState K V}
  {s : PhaseState ι K V} {i : ι} {c : RequestContainer}

theorem mem_handedOut (h : PhaseInv L tuples t s) {r x : Nat} (hFrom : s.From r i x) :
    x ∈ s.containers.handedOut i := by
  rw [← h.spawned i]
  exact List.mem_append_left _ hFrom.mem

theorem handedOut_nodup (h : PhaseInv L tuples t s) (i : ι) :
    (s.containers.handedOut i).Nodup :=
  (h.containers.shares.nodup i).sublist (List.sublist_append_left _ _)

/-- One request for an index. -/
theorem from_unique (h : PhaseInv L tuples t s) {r r' x : Nat} (hFrom : s.From r i x)
    (hFrom' : s.From r' i x) : r = r' := by
  have hNodup : (s.spawned i).Nodup := by
    have hAll := h.handedOut_nodup i
    rw [← h.spawned i] at hAll
    exact hAll.of_append_left
  exact eq_of_nodup_filterMap hNodup hFrom hFrom' (x := x) (by simp) (by simp)

theorem traced (h : PhaseInv L tuples t s) [Nontrivial K] {memory : Nat → BLinkTree.Node K V}
    {log : List (TracedEvent K V)}
    (hBefore : Run (TracedStep L) (TracedState.initial memory) log t) :
    ∃ a, TracedInv L s.settled a := by
  obtain ⟨log', hRun⟩ := h.tree
  exact TracedInv.run (hBefore.append hRun)

/-- Loading the number of finished requests. -/
theorem load (h : PhaseInv L tuples t s) (hFinished : s.containers.finished i = false)
    (hPortion : s.portion i = []) (hc : s.containers.containers i = some c) :
    PhaseInv L tuples t { s with containers :=
      { s.containers with
        loaded := Function.update s.containers.loaded i (some c.finishedRequests.load) } } :=
  { h with
    containers := h.containers.load hc
    called := fun j hj => by
      by_cases hji : j = i
      · subst hji
        exact ⟨hPortion, hFinished⟩
      · exact h.called j (by simpa [hji] using hj) }

/-- The rest of a call of `next()`. -/
theorem next (h : PhaseInv L tuples t s) (hc : s.containers.containers i = some c) {f : Nat}
    (hLoaded : s.containers.loaded i = some f)
    (hWrap : batchSize * (c.next s.containers.workload f).2.1.calls < 2 ^ 64 + batchSize) :
    PhaseInv L tuples t { s with
      containers := s.containers.afterNext i (c.next s.containers.workload f)
      portion := Function.update s.portion i
        (c.next s.containers.workload f).2.2.indices } := by
  obtain ⟨hPortion, hFinished⟩ := h.called i (by rw [hLoaded]; exact Option.some_ne_none f)
  generalize hResult : c.next s.containers.workload f = result
  refine { h with
    containers := hResult ▸ h.containers.next hc hLoaded hWrap
    spawned := fun j => ?_
    called := fun j hj => ?_
    finished := fun j hj => ?_
    removed := fun j hj => ?_ }
  · have hOld := h.spawned j
    by_cases hji : j = i
    · subst hji
      rw [hPortion, List.append_nil] at hOld
      show s.spawned j ++ Function.update s.portion j _ j =
        Function.update s.containers.handedOut j _ j
      rw [Function.update_self, Function.update_self, hOld]
    · show s.spawned j ++ Function.update s.portion i _ j =
        Function.update s.containers.handedOut i _ j
      rwa [Function.update_of_ne hji, Function.update_of_ne hji]
  · obtain ⟨hji, hOld⟩ : j ≠ i ∧ s.containers.loaded j ≠ none := by
      have hNotNone : Function.update s.containers.loaded i none j ≠ none := hj
      by_cases hji : j = i
      · exact absurd hNotNone (by simp [hji])
      · exact ⟨hji, by simpa [hji] using hNotNone⟩
    simpa [State.afterNext, hji] using h.called j hOld
  · by_cases hji : j = i
    · subst hji
      have hFlag : (!result.2.2.hasNew && result.2.2.isFinished) = true := by
        simpa [State.afterNext, hFinished] using hj
      have hNone : result.2.2.count = 0 := by
        simpa [RequestIndex.hasNew] using (Bool.and_eq_true_iff.mp hFlag).1
      simp [RequestIndex.indices, hNone]
    · simpa [hji] using h.finished j (by simpa [State.afterNext, hji] using hj)
  · by_cases hji : j = i
    · subst hji
      simp [State.afterNext, h.removed j hj]
    · simpa [State.afterNext, hji] using h.removed j hj

theorem due_from (h : PhaseInv L tuples t s) {r : Nat} (hIn : r ∈ due s.running) :
    ∃ i x, s.From r i x := by
  obtain ⟨e, he, hEq⟩ := Multiset.mem_bind.mp hIn
  exact Multiset.eq_of_mem_replicate hEq ▸ h.running e he

/-- Nothing has happened for the next request. -/
theorem fresh (h : PhaseInv L tuples t s) {a : BLinkTree.AbstractTree K V}
    (hTraced : TracedInv L s.settled a) :
    s.tree.calls s.tree.requests.length = 0 ∧
      (due s.running).count s.tree.requests.length = 0 := by
  constructor
  · have hBalance := hTraced.balance s.settled.requests.length
    rw [if_neg (Nat.lt_irrefl _)] at hBalance
    exact Nat.eq_zero_of_add_eq_zero_left hBalance
  · rw [Multiset.count_eq_zero]
    intro hIn
    obtain ⟨j, y, hFrom⟩ := h.due_from hIn
    have hLt := hFrom.lt
    rw [h.length_eq] at hLt
    exact Nat.lt_irrefl _ hLt

/-- What is left of a portion has not been reported. -/
theorem not_reported (h : PhaseInv L tuples t s) {x : Nat} (hx : x ∈ s.portion i) :
    x ∉ s.containers.reported i := by
  intro hIn
  obtain ⟨r, hFrom⟩ := h.reported i x hIn
  have hNodup := h.handedOut_nodup i
  rw [← h.spawned i] at hNodup
  exact (List.nodup_append'.mp hNodup).2.2 hFrom.mem hx

/-- A round of the loop. -/
theorem spawn (h : PhaseInv L tuples t s) {a : BLinkTree.AbstractTree K V}
    (hTraced : TracedInv L s.settled a) {x : Nat} {rest : List Nat} {tuple : NumericTuple K V}
    {request : TaskBody K V} {isReadonly : Bool} {height : UInt8} {unset : V}
    (hPortion : s.portion i = x :: rest) (hTuple : tuples[x]? = some tuple)
    (hTask : tuple.newTask height unset = some (request, isReadonly)) :
    PhaseInv L tuples t (s.afterSpawn i x rest request isReadonly) := by
  have hFrom : ∀ {r j y}, s.From r j y → (s.afterSpawn i x rest request isReadonly).From r j y :=
    fun hOld => PhaseState.from_afterSpawn.mpr (Or.inl hOld)
  have hBusy : ∀ j, s.portion j = [] →
      (s.afterSpawn i x rest request isReadonly).portion j = [] := by
    intro j hNone
    have hji : j ≠ i := by
      rintro rfl
      rw [hPortion] at hNone
      exact List.cons_ne_nil _ _ hNone
    exact (Function.update_of_ne hji ..).trans hNone
  have hSettled : { s.settled with
      tasks := (s.settled.requests.length, ⟨request, s.settled.tree.root, isReadonly⟩) ::ₘ
        s.settled.tasks
      requests := s.settled.requests ++ [request] } =
        (s.afterSpawn i x rest request isReadonly).settled := by
    simp only [PhaseState.settled, PhaseState.afterSpawn, Multiset.add_cons]
  obtain ⟨log, hRun⟩ := h.tree
  refine
    { containers := h.containers
      tree := ⟨_, (hRun.snoc (TracedStep.spawn request isReadonly (tuple.isRequest hTask))).cast
        hSettled⟩
      length_eq := ?_
      older := fun r hr => ?_
      asked := fun r j y hNew => ?_
      working := fun r task hIn => ?_
      running := fun e he => (h.running e he).imp fun _ => Exists.imp fun _ => hFrom
      spawned := fun j => ?_
      reported := fun j y hIn => ?_
      counted := fun r j y hNew => ?_
      called := fun j hj => (h.called j hj).imp_left (hBusy j)
      finished := fun j hj => hBusy j (h.finished j hj)
      removed := h.removed
      openRequests := h.openRequests }
  · show (s.origin ++ [some (i, x)]).length = (s.tree.requests ++ [request]).length
    rw [List.length_append, List.length_append, h.length_eq]
    rfl
  · have hr' : (s.origin ++ [some (i, x)])[r]? = some none := hr
    by_cases hLt : r < s.origin.length
    · rw [List.getElem?_append_left hLt] at hr'
      exact h.older r hr'
    · rw [List.getElem?_append_right (by omega)] at hr'
      exact absurd (List.mem_of_getElem? hr') (by simp)
  · rcases PhaseState.from_afterSpawn.mp hNew with hOld | ⟨rfl, rfl, rfl⟩
    · obtain ⟨tuple, request', height, unset, isReadonly, hTuple, hAt, hTask⟩ := h.asked r j y hOld
      refine ⟨tuple, request', height, unset, isReadonly, hTuple, ?_, hTask⟩
      exact (List.getElem?_append_left (by rw [← h.length_eq]; exact hOld.lt)).trans hAt
    · refine ⟨tuple, request, height, unset, isReadonly, hTuple, ?_, hTask⟩
      rw [h.length_eq]
      exact List.getElem?_concat_length
  · rcases Multiset.mem_cons.mp hIn with hEq | hIn
    · obtain ⟨rfl, -⟩ := Prod.mk.inj hEq
      exact ⟨i, x, PhaseState.from_afterSpawn.mpr (Or.inr ⟨h.length_eq.symm, rfl, rfl⟩)⟩
    · obtain ⟨j, y, hOld⟩ := h.working r task hIn
      exact ⟨j, y, hFrom hOld⟩
  · have hOld := h.spawned j
    show (s.origin ++ [some (i, x)]).filterMap _ ++ Function.update s.portion i rest j =
      s.containers.handedOut j
    rw [List.filterMap_append]
    by_cases hji : j = i
    · subst hji
      rw [hPortion] at hOld
      rw [Function.update_self, List.append_assoc]
      simpa [PhaseState.spawned] using hOld
    · rw [Function.update_of_ne hji]
      simpa [Ne.symm hji, PhaseState.spawned] using hOld
  · obtain ⟨r, hOld⟩ := h.reported j y hIn
    exact ⟨r, hFrom hOld⟩
  · rcases PhaseState.from_afterSpawn.mp hNew with hOld | ⟨rfl, rfl, rfl⟩
    · exact h.counted r j y hOld
    · obtain ⟨hCalls, hDue⟩ := h.fresh hTraced
      have hReported : (s.containers.reported j).count y = 0 :=
        List.count_eq_zero.mpr (h.not_reported (by rw [hPortion]; exact List.mem_cons_self))
      show s.tree.calls _ = (due s.running).count _ + (s.containers.reported j).count y
      rw [h.length_eq, hCalls, hDue, hReported]

/-- A task works on its node. -/
theorem execute (h : PhaseInv L tuples t s) {coreId r : Nat} {task : Task K V}
    {rest : Multiset (Nat × Task K V)} {ex : Execution K V}
    (hTasks : s.tree.tasks = (r, task) ::ₘ rest)
    (hEx : task.execute L coreId s.tree.tree = some ex) :
    PhaseInv L tuples t { s with
      tree := { s.tree.after r task rest ex with tasks := rest }
      running := ⟨r, ex.calls, some ex⟩ ::ₘ s.running } := by
  have hSettled : s.settled.tasks = (r, task) ::ₘ (s.running.bind Running.successor + rest) := by
    rw [PhaseState.settled, hTasks, Multiset.add_cons]
  obtain ⟨log, hRun⟩ := h.tree
  refine { h with
    tree := ⟨_, (hRun.snoc (TracedStep.execute coreId hSettled hEx)).cast ?_⟩
    working := fun r' task' hIn =>
      h.working r' task' (by rw [hTasks]; exact Multiset.mem_cons_of_mem hIn)
    running := fun e he => ?_
    counted := fun r' j y hFrom => ?_ }
  · simp only [PhaseState.settled, TracedState.after, Multiset.cons_bind, Multiset.add_assoc]
    rfl
  · rcases Multiset.mem_cons.mp he with rfl | hOld
    · exact h.working r task (by rw [hTasks]; exact Multiset.mem_cons_self _ _)
    · exact h.running e hOld
  · have hOld := h.counted r' j y hFrom
    rw [due_cons, Multiset.count_add, Nat.add_assoc, ← hOld]
    exact calls_after s.tree r r' task rest ex

/-- A call that is to come: its request has been handed out and was not reported. -/
theorem report_open (h : PhaseInv L tuples t s) {a : BLinkTree.AbstractTree K V}
    (hTraced : TracedInv L s.settled a) {r x : Nat} (hDue : 0 < (due s.running).count r)
    (hFrom : s.From r i x) :
    (s.containers.reported i).count x < (s.containers.handedOut i).count x := by
  have hBalance : (s.settled.tasks.map Prod.fst).count r + s.tree.calls r =
      if r < s.tree.requests.length then 1 else 0 := hTraced.balance r
  have hCounted := h.counted r i x hFrom
  have hHanded := List.count_pos_iff.mpr (h.mem_handedOut hFrom)
  split at hBalance <;> omega

/-- A call of a listener. -/
theorem report (h : PhaseInv L tuples t s) {a : BLinkTree.AbstractTree K V}
    (hTraced : TracedInv L s.settled a) {r x coreId : Nat} {call : ListenerCall K V}
    {calls : List (ListenerCall K V)} {returns : Option (Execution K V)}
    {rest : Multiset (Running K V)} (hRunning : s.running = ⟨r, call :: calls, returns⟩ ::ₘ rest)
    (hFrom : s.From r i x) (hc : s.containers.containers i = some c) :
    PhaseInv L tuples t { s with
      containers :=
        { s.containers with
          containers := Function.update s.containers.containers i
            (some { c with finishedRequests := c.finishedRequests.add coreId 1 })
          reported := Function.update s.containers.reported i (x :: s.containers.reported i) }
      running := ⟨r, calls, returns⟩ ::ₘ rest } := by
  have hDue : due s.running = r ::ₘ due (⟨r, calls, returns⟩ ::ₘ rest) := by
    rw [hRunning, due_cons, due_cons, ← Multiset.cons_add]
    rfl
  have hSome : 0 < (due s.running).count r := by
    rw [hDue, Multiset.count_cons_self]
    exact Nat.succ_pos _
  refine { h with
    containers := h.containers.report hc coreId (h.report_open hTraced hSome hFrom)
    tree := ?_
    running := fun e he => ?_
    reported := fun j y hIn => ?_
    counted := fun r' j y hFrom' => ?_ }
  · have hSettled : s.settled =
        PhaseState.settled { s with running := ⟨r, calls, returns⟩ ::ₘ rest } := by
      simp only [PhaseState.settled, hRunning, Multiset.cons_bind]
      rfl
    exact hSettled ▸ h.tree
  · rcases Multiset.mem_cons.mp he with rfl | hOld
    · exact ⟨i, x, hFrom⟩
    · exact h.running e (by rw [hRunning]; exact Multiset.mem_cons_of_mem hOld)
  · by_cases hji : j = i
    · subst hji
      rcases List.mem_cons.mp (by simpa using hIn) with rfl | hOld
      · exact ⟨r, hFrom⟩
      · exact h.reported j y hOld
    · exact h.reported j y (by simpa [hji] using hIn)
  · have hOld := h.counted r' j y hFrom'
    rw [hDue] at hOld
    show s.tree.calls r' = (due (⟨r, calls, returns⟩ ::ₘ rest)).count r' +
      (Function.update s.containers.reported i (x :: s.containers.reported i) j).count y
    by_cases hr : r' = r
    · subst hr
      obtain ⟨rfl, rfl⟩ : i = j ∧ x = y := by simpa using hFrom.symm.trans hFrom'
      rw [Multiset.count_cons_self] at hOld
      rw [Function.update_self, List.count_cons_self]
      omega
    · rw [Multiset.count_cons_of_ne hr] at hOld
      by_cases hji : j = i
      · subst hji
        -- another index of this container
        have hy : x ≠ y := by
          rintro rfl
          exact hr (h.from_unique hFrom' hFrom)
        rwa [Function.update_self, List.count_cons_of_ne hy]
      · rwa [Function.update_of_ne hji]

/-- `execute()` returns. -/
theorem returned (h : PhaseInv L tuples t s) {r : Nat} {ex : Execution K V}
    {rest : Multiset (Running K V)} (hRunning : s.running = ⟨r, [], some ex⟩ ::ₘ rest) :
    PhaseInv L tuples t { s with
      tree := { s.tree with
        tasks := ↑(ex.result.successor.map (Prod.mk r)).toList + s.tree.tasks }
      running := ⟨r, deletion ex, none⟩ ::ₘ rest } := by
  have hThis : ∃ i x, s.From r i x :=
    h.running ⟨r, [], some ex⟩ (by rw [hRunning]; exact Multiset.mem_cons_self _ _)
  refine { h with
    tree := ?_
    working := fun r' task hIn => ?_
    running := fun e he => ?_
    counted := fun r' j y hFrom => ?_ }
  · have hSettled : s.settled = PhaseState.settled { s with
        tree := { s.tree with
          tasks := ↑(ex.result.successor.map (Prod.mk r)).toList + s.tree.tasks }
        running := ⟨r, deletion ex, none⟩ ::ₘ rest } := by
      simp only [PhaseState.settled, hRunning, Multiset.cons_bind, Running.successor,
        Option.bind_some, Option.bind_none, Option.map_none, Option.toList_none, Multiset.coe_nil,
        Multiset.zero_add]
      rw [Multiset.add_assoc, Multiset.add_comm (rest.bind _) s.tree.tasks,
        ← Multiset.add_assoc, Multiset.add_comm _ (rest.bind _)]
    exact hSettled ▸ h.tree
  · rcases Multiset.mem_add.mp hIn with hNew | hOld
    · have hSame : r = r' := Running.request_eq (e := ⟨r, [], some ex⟩) hNew
      exact hSame ▸ hThis
    · exact h.working r' task hOld
  · rcases Multiset.mem_cons.mp he with rfl | hOld
    · exact hThis
    · exact h.running e (by rw [hRunning]; exact Multiset.mem_cons_of_mem hOld)
  · have hOld := h.counted r' j y hFrom
    rw [hRunning, due_cons] at hOld
    rw [due_cons]
    have hSame : (⟨r, deletion ex, none⟩ : Running K V).pending = deletion ex := List.append_nil _
    rwa [hSame]

/-- The task is deleted. -/
theorem deleted (h : PhaseInv L tuples t s) {r : Nat} {rest : Multiset (Running K V)}
    (hRunning : s.running = ⟨r, [], none⟩ ::ₘ rest) :
    PhaseInv L tuples t { s with running := rest } := by
  have hSettled : s.settled = PhaseState.settled { s with running := rest } := by
    rw [PhaseState.settled, hRunning, Multiset.cons_bind]
    exact congrArg (fun tasks => { s.tree with tasks := tasks + s.tree.tasks })
      (Multiset.zero_add _)
  have hDue : due s.running = due rest := by
    rw [hRunning, due_cons]
    exact Multiset.zero_add _
  exact { h with
    tree := hSettled ▸ h.tree
    running := fun e he => h.running e (by rw [hRunning]; exact Multiset.mem_cons_of_mem he)
    counted := fun r' j y hFrom => hDue ▸ h.counted r' j y hFrom }

/-- A scheduler is done. -/
theorem finish (h : PhaseInv L tuples t s) (hCard : Fintype.card ι < 2 ^ 16)
    (hFinished : s.containers.finished i = true) (hThere : s.removed i = false) :
    PhaseInv L tuples t { s with
      removed := Function.update s.removed i true
      openRequests := (s.openRequests + (2 ^ 16 - 1)) % 2 ^ 16 } := by
  refine { h with
    removed := fun j hj => ?_
    openRequests := ?_ }
  · by_cases hji : j = i
    · exact hji ▸ hFinished
    · exact h.removed j (by simpa [hji] using hj)
  · have hUpdate : number (fun isRemoved => !isRemoved) (Function.update s.removed i true) +
        (!s.removed i).toNat = number (fun isRemoved => !isRemoved) s.removed + (!true).toNat :=
      number_update true
    have hLe : number (fun isRemoved => !isRemoved) s.removed ≤ Fintype.card ι := number_le
    have hOpen := h.openRequests
    simp only [hThere, Bool.not_false, Bool.not_true, Bool.toNat_true, Bool.toNat_false] at hUpdate
    show (s.openRequests + (2 ^ 16 - 1)) % 2 ^ 16 =
      number (fun isRemoved => !isRemoved) (Function.update s.removed i true)
    omega

/-- One step keeps the invariant, as long as the index of the workload has not wrapped. -/
theorem step [Nontrivial K] {memory : Nat → BLinkTree.Node K V} {before : List (TracedEvent K V)}
    (hBefore : Run (TracedStep L) (TracedState.initial memory) before t)
    (hCard : Fintype.card ι < 2 ^ 16) {s' : PhaseState ι K V} {e : PhaseEvent ι K V}
    (h : PhaseInv L tuples t s) (hStep : PhaseStep L tuples s e s')
    (hWrap : batchSize * s'.containers.workload.calls < 2 ^ 64 + batchSize) :
    PhaseInv L tuples t s' := by
  obtain ⟨a, hTraced⟩ := h.traced hBefore
  cases hStep with
  | load hFinished hPortion hc _ => exact h.load hFinished hPortion hc
  | next hc hLoaded => exact h.next hc hLoaded hWrap
  | spawn height unset hPortion hTuple hTask => exact h.spawn hTraced hPortion hTuple hTask
  | execute coreId hTasks hEx => exact h.execute hTasks hEx
  | report hRunning hFrom hc => exact h.report hTraced hRunning hFrom hc
  | returned hRunning => exact h.returned hRunning
  | deleted hRunning => exact h.deleted hRunning
  | finish hFinished hThere => exact h.finish hCard hFinished hThere

/-- Every request of a scheduler whose container is finished was reported, once, and nothing will
call the container any more. -/
theorem done (h : PhaseInv L tuples t s) {a : BLinkTree.AbstractTree K V}
    (hTraced : TracedInv L s.settled a) (hFinished : s.containers.finished i = true) {r x : Nat}
    (hFrom : s.From r i x) :
    (s.containers.reported i).count x = 1 ∧ (∀ task, (r, task) ∉ s.settled.tasks) ∧
      ∀ e ∈ s.running, e.request = r → e.Spent := by
  obtain ⟨hThere, hLength, -, -⟩ := h.containers.finished i hFinished
  obtain ⟨c, hc⟩ := Option.ne_none_iff_exists'.mp hThere
  have hPerm : (s.containers.reported i).Perm (s.containers.handedOut i) :=
    (h.containers.container i c hc).subperm.perm_of_length_le hLength.ge
  have hReported : 0 < (s.containers.reported i).count x := by
    rw [hPerm.count_eq]
    exact List.count_pos_iff.mpr (h.mem_handedOut hFrom)
  have hCounted := h.counted r i x hFrom
  have hBalance : (s.settled.tasks.map Prod.fst).count r + s.tree.calls r =
      if r < s.tree.requests.length then 1 else 0 := hTraced.balance r
  have hCalls : s.settled.calls r = 1 := by
    show s.tree.calls r = 1
    split at hBalance <;> omega
  have hOne : s.tree.calls r = 1 := hCalls
  have hNone : ∀ task, (r, task) ∉ s.settled.tasks := hTraced.not_mem_of_called hCalls
  refine ⟨by omega, hNone, ?_⟩
  rintro e he rfl
  refine ⟨Running.pending_eq_nil he (by omega), Multiset.eq_zero_of_forall_notMem ?_⟩
  rintro ⟨r', task⟩ hIn
  obtain rfl := Running.request_eq hIn
  exact hNone task (PhaseState.mem_settled.mpr (Or.inl ⟨e, he, hIn⟩))

/-- When all schedulers are done, an index of the workload has a request, and only one. -/
theorem covers [Nonempty ι] (h : PhaseInv L tuples t s)
    (hAll : ∀ i, s.containers.finished i = true) {x : Nat} (hx : x < tuples.length) :
    ∃! r, ∃ i, s.From r i x := by
  obtain ⟨i₀⟩ := ‹Nonempty ι›
  have hClaimed := (h.containers.finished i₀ (hAll i₀)).2.2.2
  -- what a scheduler has claimed it has spawned
  have hOwn : ∀ j, s.containers.own j = s.spawned j := fun j => by
    rw [State.own, (h.containers.finished j (hAll j)).2.2.1, List.append_nil, ← h.spawned j,
      h.finished j (hAll j), List.append_nil]
  obtain ⟨i, hi, hOnly⟩ := h.containers.shares.existsUnique (x := x) (by omega)
  simp only [hOwn] at hi hOnly
  obtain ⟨r, hFrom⟩ := PhaseState.exists_from hi
  refine ⟨r, ⟨i, hFrom⟩, ?_⟩
  rintro r' ⟨j, hFrom'⟩
  obtain rfl := hOnly j hFrom'.mem
  exact h.from_unique hFrom' hFrom

end PhaseInv

/-- No step takes a call of `Workload::next` back. -/
theorem PhaseStep.calls_le {L : Layout K V} {tuples : List (NumericTuple K V)}
    {s s' : PhaseState ι K V} {e : PhaseEvent ι K V} (h : PhaseStep L tuples s e s') :
    s.containers.workload.calls ≤ s'.containers.workload.calls := by
  cases h with
  | next hc hLoaded => exact (Step.next hc hLoaded).calls_le
  | load _ _ _ _ => exact le_refl _
  | spawn _ _ _ _ _ => exact le_refl _
  | execute _ _ _ => exact le_refl _
  | report _ _ _ => exact le_refl _
  | returned _ => exact le_refl _
  | deleted _ => exact le_refl _
  | finish _ _ => exact le_refl _

end Invariant

/-! ## Every run of a phase -/

section Start

variable {ι : Type*} [DecidableEq ι]

/-- Constructing the containers of parties that have none. -/
theorem Inv.constructed {size : Nat} (maxOpenRequests : Nat) (coreId : ι → Nat) (parties : List ι) :
    ∀ s : State ι, Inv size s → parties.Nodup → (∀ i ∈ parties, s.containers i = none) →
      batchSize * (s.workload.calls + parties.length) < 2 ^ 64 →
        Inv size (parties.foldl (fun s i => s.constructed i (coreId i) maxOpenRequests) s) := by
  induction parties with
  | nil => exact fun s h _ _ _ => h
  | cons i parties ih =>
      intro s h hNodup hNone hWrap
      obtain ⟨hNot, hNodup'⟩ := List.nodup_cons.mp hNodup
      rw [List.length_cons] at hWrap
      have hThis : batchSize * s.workload.calls < 2 ^ 64 :=
        lt_of_le_of_lt (Nat.mul_le_mul_left _ (Nat.le_add_right _ _)) hWrap
      have hNext : Inv size (s.constructed i (coreId i) maxOpenRequests) :=
        h.construct (hNone i List.mem_cons_self) (coreId i) maxOpenRequests hThis
      rw [List.foldl_cons]
      refine ih (s.constructed i (coreId i) maxOpenRequests) hNext hNodup' (fun j hj => ?_) ?_
      · have hne : j ≠ i := fun hEq => hNot (hEq ▸ hj)
        exact (Function.update_of_ne hne ..).trans (hNone j (List.mem_cons_of_mem i hj))
      · show batchSize * (s.workload.calls + 1 + parties.length) < 2 ^ 64
        rwa [Nat.add_assoc, Nat.add_comm 1]

/-- The containers are new, and nothing else. -/
def State.SameCalls (s s' : State ι) : Prop :=
  s'.loaded = s.loaded ∧ s'.handedOut = s.handedOut ∧ s'.reported = s.reported ∧
    s'.finished = s.finished

theorem State.sameCalls_constructed (maxOpenRequests : Nat) (coreId : ι → Nat) (parties : List ι) :
    ∀ s : State ι,
      s.SameCalls (parties.foldl (fun s i => s.constructed i (coreId i) maxOpenRequests) s) := by
  induction parties with
  | nil => exact fun s => ⟨rfl, rfl, rfl, rfl⟩
  | cons i parties ih =>
      intro s
      have hOne : s.SameCalls (s.constructed i (coreId i) maxOpenRequests) := by
        simp only [SameCalls, constructed, and_self]
      have hRest := ih (s.constructed i (coreId i) maxOpenRequests)
      rw [List.foldl_cons]
      exact ⟨hRest.1.trans hOne.1, hRest.2.1.trans hOne.2.1, hRest.2.2.1.trans hOne.2.2.1,
        hRest.2.2.2.trans hOne.2.2.2⟩

end Start

section Runs

variable {K V : Type*}

/-- The last scheduler is done, and nothing is left of the phase but executions that end. -/
structure PhaseState.Over {ι K V : Type*} (s : PhaseState ι K V) : Prop where
  finished : ∀ i, s.containers.finished i = true
  removed : ∀ i, s.removed i = true
  loaded : ∀ i, s.containers.loaded i = none
  portion : ∀ i, s.portion i = []
  tasks : s.tree.tasks = 0
  spent : ∀ e ∈ s.running, e.Spent

/-- The end of an execution leaves no task. -/
theorem PhaseState.Over.returned_tasks {ι : Type*} {s : PhaseState ι K V} (h : s.Over) {r : Nat}
    {ex : Execution K V} {rest : Multiset (Running K V)}
    (hRunning : s.running = ⟨r, [], some ex⟩ ::ₘ rest) :
    ((ex.result.successor.map (Prod.mk r)).toList : Multiset (Nat × Task K V)) + s.tree.tasks =
      s.tree.tasks := by
  have hSpent := h.spent ⟨r, [], some ex⟩ (by rw [hRunning]; exact Multiset.mem_cons_self _ _)
  exact (congrArg (· + s.tree.tasks) hSpent.2).trans (Multiset.zero_add _)

variable [LinearOrder K] [BoundedOrder K] [Zero V]

theorem PhaseInv.start {L : Layout K V} {tuples : List (NumericTuple K V)} {t : TracedState K V}
    {n : Nat} (hCores : n < 2 ^ 16) (hSize : tuples.length < 2 ^ 64) (hIdle : t.tasks = 0) :
    PhaseInv L tuples t (PhaseState.start n tuples.length t) := by
  obtain ⟨hLoaded, hHanded, hReported, hFinished⟩ :=
    State.sameCalls_constructed (maxParallelRequests / n) (fun i : Fin n => (i : Nat))
      (List.finRange n) (State.initial tuples.length)
  have hNone : ∀ r i x, ¬ (PhaseState.start n tuples.length t).From r i x := by
    intro r i x hFrom
    exact absurd (List.eq_of_mem_replicate (List.mem_of_getElem? hFrom)) (by simp)
  refine
    { containers := Inv.constructed _ _ _ _ (Inv.initial hSize) (List.nodup_finRange n)
        (fun _ _ => rfl) ?_
      tree := ⟨[], Run.nil.cast (PhaseState.settled_eq (s := PhaseState.start n tuples.length t)
        fun e he => absurd he (Multiset.notMem_zero _)).symm⟩
      length_eq := List.length_replicate
      older := fun r hr => ?_
      asked := fun r i x hFrom => absurd hFrom (hNone r i x)
      working := fun r task hIn => ?_
      running := fun e he => absurd he (Multiset.notMem_zero _)
      spawned := fun i => ?_
      reported := fun i x hIn => ?_
      counted := fun r i x hFrom => absurd hFrom (hNone r i x)
      called := fun i hi => absurd (congrFun hLoaded i) hi
      finished := fun i _ => rfl
      removed := fun i hi => absurd hi (by simp [PhaseState.start])
      openRequests := ?_ }
  · show batchSize * (0 + (List.finRange n).length) < 2 ^ 64
    rw [List.length_finRange, batchSize]
    omega
  · have hLt := (List.getElem?_eq_some_iff.mp hr).1
    rwa [show (PhaseState.start n tuples.length t).origin.length = t.requests.length from
      List.length_replicate] at hLt
  · rw [show (PhaseState.start n tuples.length t).tree.tasks = 0 from hIdle] at hIn
    exact absurd hIn (Multiset.notMem_zero _)
  · have hSpawned : (PhaseState.start n tuples.length t).spawned i = [] := by
      refine List.eq_nil_iff_forall_not_mem.mpr fun x hx => ?_
      obtain ⟨r, hFrom⟩ := PhaseState.exists_from hx
      exact hNone r i x hFrom
    rw [hSpawned]
    exact (congrFun hHanded i).symm
  · rw [show (PhaseState.start n tuples.length t).containers.reported = fun _ => [] from
      hReported] at hIn
    exact absurd hIn List.not_mem_nil
  · show n % 2 ^ 16 = number (fun isRemoved => !isRemoved) fun _ : Fin n => false
    rw [Nat.mod_eq_of_lt hCores]
    simp [number]

theorem PhaseInv.run [Nontrivial K] {L : Layout K V} {memory : Nat → BLinkTree.Node K V}
    {before : List (TracedEvent K V)} {tuples : List (NumericTuple K V)} {t : TracedState K V}
    {n : Nat} {log : List (PhaseEvent (Fin n) K V)} {s : PhaseState (Fin n) K V}
    (hBefore : Run (TracedStep L) (TracedState.initial memory) before t) (hIdle : t.tasks = 0)
    (hCores : n < 2 ^ 16) (hSize : tuples.length < 2 ^ 64)
    (hRun : Run (PhaseStep L tuples) (PhaseState.start n tuples.length t) log s)
    (hWrap : batchSize * s.containers.workload.calls < 2 ^ 64 + batchSize) :
    PhaseInv L tuples t s := by
  refine hRun.invariant (P := fun s =>
    batchSize * s.containers.workload.calls < 2 ^ 64 + batchSize → PhaseInv L tuples t s)
    (fun _ => PhaseInv.start hCores hSize hIdle) ?_ hWrap
  intro e mid fin hMid hStep hFin
  have hLe := Nat.mul_le_mul_left batchSize hStep.calls_le
  exact (hMid (by omega)).step hBefore (by rwa [Fintype.card_fin]) hStep hFin

/-- Requests stay, in their order. -/
theorem requests_of_run {L : Layout K V} {t t' : TracedState K V} {log : List (TracedEvent K V)}
    (hRun : Run (TracedStep L) t log t') : t.requests <+: t'.requests := by
  refine hRun.invariant (P := fun t' => t.requests <+: t'.requests) (List.prefix_refl _) ?_
  intro e mid fin hMid hStep
  cases hStep with
  | spawn request _ _ => exact hMid.trans (List.prefix_append _ _)
  | execute _ _ _ => exact hMid

/-- The key of every insert is stored, and no other key that was not stored before. -/
theorem PhaseInv.keys [Nontrivial K] {ι : Type*} [DecidableEq ι] [Fintype ι] [Nonempty ι]
    {L : Layout K V} {memory : Nat → BLinkTree.Node K V} {before : List (TracedEvent K V)}
    {tuples : List (NumericTuple K V)} {t : TracedState K V} {s : PhaseState ι K V}
    (h : PhaseInv L tuples t s)
    (hBefore : Run (TracedStep L) (TracedState.initial memory) before t) (hIdle : t.tasks = 0)
    (hAll : ∀ i, s.containers.finished i = true) (key : K) :
    s.tree.map key ≠ none ↔
      t.map key ≠ none ∨ ∃ tuple ∈ tuples, tuple.type = .insert ∧ tuple.key = key := by
  obtain ⟨a, hTraced⟩ := h.traced hBefore
  obtain ⟨log, hAfter⟩ := h.tree
  have hDurable := Durable.run (hBefore.append hAfter)
  constructor
  · intro hKey
    obtain ⟨r, value, hr⟩ := hDurable.inserted key hKey
    have hLt : r < s.origin.length := by
      rw [h.length_eq]
      exact (List.getElem?_eq_some_iff.mp hr).1
    cases hOrigin : s.origin[r] with
    | none =>
        -- a request of an earlier phase, which was done when this one started
        have hOld := h.older r (by rw [List.getElem?_eq_getElem hLt, hOrigin])
        have hSame : t.requests[r]? = some (.insertValue key value) := by
          obtain ⟨new, hNew⟩ := requests_of_run hAfter
          rwa [← hNew, List.getElem?_append_left hOld] at hr
        rcases (Durable.run hBefore).stored r key value hSame with ⟨task, hIn, _⟩ | hMap
        · rw [hIdle] at hIn
          exact absurd hIn (Multiset.notMem_zero _)
        · exact Or.inl hMap
    | some p =>
        obtain ⟨tuple, request, height, unset, isReadonly, hTuple, hAt, hTask⟩ :=
          h.asked r p.1 p.2 (by rw [PhaseState.From, List.getElem?_eq_getElem hLt, hOrigin])
        obtain rfl : request = .insertValue key value := Option.some.inj (hAt.symm.trans hr)
        refine Or.inr ⟨tuple, List.mem_of_getElem? hTuple, ?_⟩
        cases hType : tuple.type <;> simp [NumericTuple.newTask, hType] at hTask
        exact ⟨rfl, hTask.1.1⟩
  · rintro (hOld | ⟨tuple, hMem, hType, rfl⟩)
    · exact (BLinkTree.map_ne_none_of_run hAfter hOld : s.settled.map key ≠ none)
    · obtain ⟨x, hx⟩ := List.getElem?_of_mem hMem
      obtain ⟨r, ⟨i, hFrom⟩, -⟩ := h.covers hAll (List.getElem?_eq_some_iff.mp hx).1
      obtain ⟨tuple', request, height, unset, isReadonly, hTuple, hAt, hTask⟩ := h.asked r i x hFrom
      obtain rfl : tuple' = tuple := by simpa [hx] using hTuple.symm
      obtain ⟨rfl, -⟩ : .insertValue tuple'.key tuple'.value = request ∧ _ := by
        simpa [NumericTuple.newTask, hType] using hTask
      rcases hDurable.stored r _ _ hAt with ⟨task, hIn, _⟩ | hMap
      · exact absurd hIn ((h.done hTraced (hAll i) hFrom).2.1 task)
      · exact hMap

namespace PhaseState.Over

variable {ι : Type*} [DecidableEq ι] {L : Layout K V} {tuples : List (NumericTuple K V)}
  {s s' : PhaseState ι K V}

/-- What can still happen leaves the tree and the containers as they are. -/
theorem step {e : PhaseEvent ι K V} (h : s.Over) (hStep : PhaseStep L tuples s e s') :
    s'.Over ∧ s'.tree = s.tree ∧ s'.containers = s.containers ∧
      s'.openRequests = s.openRequests := by
  cases hStep with
  | load hFinished _ _ _ => exact absurd ((h.finished _).symm.trans hFinished) (by decide)
  | next _ hLoaded => exact absurd ((h.loaded _).symm.trans hLoaded) nofun
  | spawn _ _ hPortion _ _ => exact absurd ((h.portion _).symm.trans hPortion) nofun
  | execute _ hTasks _ =>
      exact absurd (h.tasks.symm.trans hTasks) (Multiset.cons_ne_zero).symm
  | report hRunning _ _ =>
      have hSpent := h.spent _ (by rw [hRunning]; exact Multiset.mem_cons_self _ _)
      exact absurd hSpent.1 nofun
  | @returned r ex rest hRunning =>
      have hSpent := h.spent ⟨r, [], some ex⟩ (by rw [hRunning]; exact Multiset.mem_cons_self _ _)
      have hTree : { s.tree with
          tasks := ↑(ex.result.successor.map (Prod.mk r)).toList + s.tree.tasks } = s.tree := by
        rw [h.returned_tasks hRunning]
      refine ⟨{ h with
        tasks := (h.returned_tasks hRunning).trans h.tasks
        spent := fun e he => ?_ }, hTree, rfl, rfl⟩
      rcases Multiset.mem_cons.mp he with rfl | hOld
      · exact ⟨(List.append_nil _).trans hSpent.1, rfl⟩
      · exact h.spent e (by rw [hRunning]; exact Multiset.mem_cons_of_mem hOld)
  | deleted hRunning =>
      exact ⟨{ h with
        spent := fun e he => h.spent e (by rw [hRunning]; exact Multiset.mem_cons_of_mem he) },
        rfl, rfl, rfl⟩
  | finish _ hThere => exact absurd ((h.removed _).symm.trans hThere) (by decide)

theorem run {log : List (PhaseEvent ι K V)} (h : s.Over)
    (hRun : Run (PhaseStep L tuples) s log s') :
    s'.tree = s.tree ∧ s'.containers = s.containers := by
  refine (hRun.invariant
    (P := fun s' => s'.Over ∧ s'.tree = s.tree ∧ s'.containers = s.containers)
    ⟨h, rfl, rfl⟩ ?_).2
  rintro e mid fin ⟨hMid, hTree, hContainers⟩ hStep
  obtain ⟨hFin, hTree', hContainers', -⟩ := hMid.step hStep
  exact ⟨hFin, hTree'.trans hTree, hContainers'.trans hContainers⟩

end PhaseState.Over

end Runs

/-! ## One core -/

end MxTasking.Benchmark
