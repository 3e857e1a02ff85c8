import MxTasking.HashJoin.Correctness
import MxTasking.Tasking.DeliveryProgress

/-!
# The hash join over the channels

The system of the hash join has a queue for each pair of channels.  The runtime has none of these: a
channel has a local queue and one remote queue for each region, a task buffer that all of them are
emptied into, and a worker that fills it ahead of what it executes.  Here the tasks
of the join are the program that the channels execute, with its steps as they are in the system and
the tasks they take and spawn handed over to the runtime.

## Main results

* `step_of_mailboxes`, `mailboxes_of_step` — the join over mailboxes is the system.
* `join_of_runtime` — the result sets of the runtime are the join.
-/

namespace MxTasking.HashJoin

open MxTasking.Verified (Run Program Mailboxes.State Mailboxes.Step Mailboxes.post Mailboxes.start
  Mailboxes.boxes_start_concat)
open MxTasking.Tasking (Priority maxNumaNodes Delivery.State Delivery.Event Delivery.Step
  Delivery.Inv Delivery.Placed Delivery.Quiet Delivery.sentBy Delivery.inv_start
  Delivery.exists_end)

/-! ## The join as a program -/

/-- The system with other queues. -/
def State.withQueues (s : State) (queues : Nat × Nat → List Task) : State :=
  { s with queues := queues }

/-- One task. -/
def only (p : Nat × Nat) (task : Task) : Nat × Nat → List Task :=
  Function.update (fun _ => []) p [task]

/-- What a channel has spawned in a step. -/
def sent (c : Nat) : Option (Nat × Task) → Nat × Nat → List Task
  | none => fun _ => []
  | some (k, task) => only (c, k) task

/-- The channel that takes the step. -/
def Event.channel : Event → Nat
  | .step channel => channel
  | .notification _ _ channel => channel
  | .decrement _ channel => channel
  | .call _ channel => channel

/-- The steps of the system, in which nothing is in the queues but the task that is taken, and
afterwards nothing but the task that was spawned. -/
def program (J : Join) : Program Nat State Task Event where
  idle s t := s.running t = .idle
  receive s c t task e s' :=
    Step J (s.withQueues (only (c, t) task)) e s' ∧ s'.queues = fun _ => []
  work s c e s' task := s.queues = (fun _ => []) ∧ ∃ s₁, Step J s e s₁ ∧ e.channel = c ∧
    s₁.queues = sent c task ∧ s' = s₁.withQueues fun _ => []

section Steps

variable {J : Join} {s s' : State} {e : Event} {c t : Nat} {task : Task}

theorem only_cons {c' t' : Nat} {x : Task} {rest : List Task}
    (h : only (c, t) task (c', t') = x :: rest) : c' = c ∧ t' = t ∧ x = task ∧ rest = [] := by
  by_cases hEq : (c', t') = (c, t)
  · rw [hEq, only, Function.update_self] at h
    obtain ⟨rfl, rfl⟩ := Prod.mk.inj hEq
    exact ⟨rfl, rfl, (List.cons.inj h).1.symm, (List.cons.inj h).2.symm⟩
  · rw [only, Function.update_of_ne hEq] at h
    exact absurd h nofun

theorem only_pop (p : Nat × Nat) (task : Task) :
    Function.update (only p task) p [] = fun _ => [] := by
  rw [only, Function.update_idem]
  exact Function.update_eq_self p fun _ => []

theorem spawn_ne (s : State) (c k : Nat) (task : Task) :
    (s.spawn c k task).queues (c, k) ≠ [] := by
  simp [State.spawn]

/-- Where a task is taken from the queues, it may as well be in front of others. -/
theorem receive_cases (hStep : Step J (s.withQueues (only (c, t) task)) e s')
    (hTaken : s'.queues = fun _ => []) :
    s.running t = .idle ∧ (∀ t' ≠ t, s'.running t' = s.running t') ∧
      ∀ queues rest, queues (c, t) = task :: rest →
        Step J (s.withQueues queues) e (s'.withQueues (Function.update queues (c, t) rest)) := by
  -- a step that takes no task leaves this one where it is, and spawns another one at most
  have hLeft : only (c, t) task (c, t) = [task] := Function.update_self ..
  have hThere := congrFun hTaken (c, t)
  cases hStep with
  | popPartition c' t' kind i rest hIdle hQueue =>
      obtain ⟨rfl, rfl, hTask, rfl⟩ := only_cons hQueue
      subst hTask
      exact ⟨hIdle, fun t'' hne => Function.update_of_ne hne .., fun queues rest hQueues =>
        Step.popPartition c' t' kind i rest hIdle hQueues⟩
  | popBatch c' t' kind rows rest hIdle hQueue =>
      obtain ⟨rfl, rfl, hTask, rfl⟩ := only_cons hQueue
      subst hTask
      exact ⟨hIdle, fun t'' hne => Function.update_of_ne hne .., fun queues rest hQueues =>
        Step.popBatch c' t' kind rows rest hIdle hQueues⟩
  | popNotification c' t' kind rest hIdle hQueue =>
      obtain ⟨rfl, rfl, hTask, rfl⟩ := only_cons hQueue
      subst hTask
      exact ⟨hIdle, fun t'' hne => Function.update_of_ne hne .., fun queues rest hQueues =>
        Step.popNotification c' t' kind rest hIdle hQueues⟩
  | popMerge c' t' rest hIdle hQueue =>
      obtain ⟨rfl, rfl, hTask, rfl⟩ := only_cons hQueue
      subst hTask
      exact ⟨hIdle, fun t'' hne => Function.update_of_ne hne .., fun queues rest hQueues =>
        Step.popMerge c' t' rest hIdle hQueues⟩
  | row | rowsDone | flushed | insert | hit | miss | finish | decrement | callBuild | dispatched
  | merge | merged => exact absurd (hLeft.symm.trans hThere) nofun
  | rowSpawn c' kind i j tasks key =>
      exact absurd (congrFun hTaken (c', J.target key)) (spawn_ne _ _ _ _)
  | flush c' kind k tasks | notify c' kind k tasks | dispatch c' k =>
      exact absurd (congrFun hTaken (c', k)) (spawn_ne _ _ _ _)
  | callProbe t' => exact absurd (congrFun hTaken (t', t')) (spawn_ne _ _ _ _)

/-- A task behind the others. -/
theorem append_only (queues : Nat × Nat → List Task) (p : Nat × Nat) (x : Task) :
    (fun q => queues q ++ only p x q) = Function.update queues p (queues p ++ [x]) := by
  funext q
  by_cases hq : q = p
  · rw [hq, only, Function.update_self, Function.update_self]
  · rw [only, Function.update_of_ne hq, Function.update_of_ne hq, List.append_nil]

/-- A step that takes no task may be taken with any queues, and spawns at their end. -/
theorem work_cases (hNone : s.queues = fun _ => []) (hStep : Step J s e s') :
    s.running e.channel ≠ .idle ∧ (∀ t' ≠ e.channel, s'.running t' = s.running t') ∧
      (∃ task, s'.queues = sent e.channel task) ∧
      ∀ queues, Step J (s.withQueues queues) e
        (s'.withQueues fun p => queues p ++ s'.queues p) := by
  have hPop : ∀ {p : Nat × Nat} {x : Task} {rest : List Task}, s.queues p ≠ x :: rest := by
    intro p x rest
    rw [hNone]
    exact nofun
  have hPlain : ∀ {queues : Nat × Nat → List Task} {s₁ : State}, s₁.queues = s.queues →
      Step J (s.withQueues queues) e (s₁.withQueues queues) →
      Step J (s.withQueues queues) e (s₁.withQueues fun p => queues p ++ s₁.queues p) := by
    intro queues s₁ hQueues hStep
    have hEq : (fun p => queues p ++ s₁.queues p) = queues := by
      rw [hQueues, hNone]
      exact funext fun _ => List.append_nil _
    rwa [hEq]
  have hSpawned : ∀ (c k : Nat) (x : Task),
      Function.update s.queues (c, k) (s.queues (c, k) ++ [x]) = sent c (some (k, x)) := by
    intro c k x
    rw [hNone]
    rfl
  have hSpawn : ∀ {queues : Nat × Nat → List Task} {s₁ : State} {c k : Nat} {x : Task},
      s₁.queues = sent c (some (k, x)) →
      Step J (s.withQueues queues) e
        (s₁.withQueues (Function.update queues (c, k) (queues (c, k) ++ [x]))) →
      Step J (s.withQueues queues) e (s₁.withQueues fun p => queues p ++ s₁.queues p) := by
    intro queues s₁ c k x hQueues hStep
    rw [hQueues, sent, append_only]
    exact hStep
  have hOther : ∀ {c : Nat} {r : Running}, ∀ t' ≠ c,
      Function.update s.running c r t' = s.running t' := fun t' hne =>
    Function.update_of_ne hne ..
  cases hStep with
  | popPartition _ _ _ _ _ _ hQueue | popBatch _ _ _ _ _ _ hQueue
  | popNotification _ _ _ _ _ hQueue | popMerge _ _ _ _ hQueue => exact absurd hQueue hPop
  | row c kind i j tasks key hRun hCount hData hBatch =>
      exact ⟨ne_of_eq_of_ne hRun nofun, hOther, ⟨none, hNone⟩, fun _ =>
        hPlain rfl (Step.row c kind i j tasks key hRun hCount hData hBatch)⟩
  | rowSpawn c kind i j tasks key hRun hCount hData hBatch =>
      exact ⟨ne_of_eq_of_ne hRun nofun, hOther, ⟨some (_, _), hSpawned ..⟩, fun _ =>
        hSpawn (hSpawned ..) (Step.rowSpawn c kind i j tasks key hRun hCount hData hBatch)⟩
  | rowsDone c kind i j tasks hRun hCount =>
      exact ⟨ne_of_eq_of_ne hRun nofun, hOther, ⟨none, hNone⟩, fun _ =>
        hPlain rfl (Step.rowsDone c kind i j tasks hRun hCount)⟩
  | flush c kind k tasks hRun hLess =>
      exact ⟨ne_of_eq_of_ne hRun nofun, hOther, ⟨some (_, _), hSpawned ..⟩, fun _ =>
        hSpawn (hSpawned ..) (Step.flush c kind k tasks hRun hLess)⟩
  | notify c kind k tasks hRun =>
      exact ⟨ne_of_eq_of_ne hRun nofun, hOther, ⟨some (_, _), hSpawned ..⟩, fun _ =>
        hSpawn (hSpawned ..) (Step.notify c kind k tasks hRun)⟩
  | flushed c kind k tasks hRun hLess =>
      exact ⟨ne_of_eq_of_ne hRun nofun, hOther, ⟨none, hNone⟩, fun _ =>
        hPlain rfl (Step.flushed c kind k tasks hRun hLess)⟩
  | insert t c row rows table hRun hInsert =>
      exact ⟨ne_of_eq_of_ne hRun nofun, hOther, ⟨none, hNone⟩, fun _ =>
        hPlain rfl (Step.insert t c row rows table hRun hInsert)⟩
  | hit t c row rows value r hRun hGet hValue hResult =>
      exact ⟨ne_of_eq_of_ne hRun nofun, hOther, ⟨none, hNone⟩, fun _ =>
        hPlain rfl (Step.hit t c row rows value r hRun hGet hValue hResult)⟩
  | miss t c row rows hRun hGet =>
      exact ⟨ne_of_eq_of_ne hRun nofun, hOther, ⟨none, hNone⟩, fun _ =>
        hPlain rfl (Step.miss t c row rows hRun hGet)⟩
  | finish t kind c hRun =>
      exact ⟨ne_of_eq_of_ne hRun nofun, hOther, ⟨none, hNone⟩, fun _ =>
        hPlain rfl (Step.finish t kind c hRun)⟩
  | decrement t kind hRun hGlobal =>
      exact ⟨ne_of_eq_of_ne hRun nofun, hOther, ⟨none, hNone⟩, fun _ =>
        hPlain rfl (Step.decrement t kind hRun hGlobal)⟩
  | callBuild t hRun hGlobal =>
      exact ⟨ne_of_eq_of_ne hRun nofun, hOther, ⟨none, hNone⟩, fun _ =>
        hPlain rfl (Step.callBuild t hRun hGlobal)⟩
  | callProbe t hRun hGlobal =>
      exact ⟨ne_of_eq_of_ne hRun nofun, hOther, ⟨some (_, _), hSpawned ..⟩, fun _ =>
        hSpawn (hSpawned ..) (Step.callProbe t hRun hGlobal)⟩
  | dispatch c k hRun hLess =>
      exact ⟨ne_of_eq_of_ne hRun nofun, hOther, ⟨some (_, _), hSpawned ..⟩, fun _ =>
        hSpawn (hSpawned ..) (Step.dispatch c k hRun hLess)⟩
  | dispatched c k hRun hLess =>
      exact ⟨ne_of_eq_of_ne hRun nofun, hOther, ⟨none, hNone⟩, fun _ =>
        hPlain rfl (Step.dispatched c k hRun hLess)⟩
  | merge c k hRun hLess =>
      exact ⟨ne_of_eq_of_ne hRun nofun, hOther, ⟨none, hNone⟩, fun _ =>
        hPlain rfl (Step.merge c k hRun hLess)⟩
  | merged c k hRun hLess =>
      exact ⟨ne_of_eq_of_ne hRun nofun, hOther, ⟨none, hNone⟩, fun _ =>
        hPlain rfl (Step.merged c k hRun hLess)⟩

end Steps

/-- All tasks of the join have the priority they are made with. -/
def priority (_ : Task) : Priority := .normal

/-- The mailboxes as the queues of the system. -/
def State.ofMailboxes (m : Mailboxes.State Nat State Task Priority) : State :=
  m.program.withQueues fun p => m.boxes (p.1, p.2, .normal)

section Mailboxes

variable {J : Join} {m m' : Mailboxes.State Nat State Task Priority} {e : Event}

theorem prompt (J : Join) : (program J).Prompt where
  receives {s t} source task hIdle := by
    have hQueue : (s.withQueues (only (source, t) task)).queues (source, t) = [task] :=
      by simp [State.withQueues, only]
    cases task with
    | partition kind i => exact ⟨_, _, .popPartition source t kind i [] hIdle hQueue, only_pop ..⟩
    | batch kind rows => exact ⟨_, _, .popBatch source t kind rows [] hIdle hQueue, only_pop ..⟩
    | notification kind => exact ⟨_, _, .popNotification source t kind [] hIdle hQueue, only_pop ..⟩
    | merge => exact ⟨_, _, .popMerge source t [] hIdle hQueue, only_pop ..⟩
  waits h := (receive_cases h.1 h.2).1
  works := by
    rintro s c e s' task ⟨hNone, s₁, hStep, rfl, -, -⟩
    exact (work_cases hNone hStep).1
  receive_other h t' hne hIdle := ((receive_cases h.1 h.2).2.1 t' hne).trans hIdle
  work_other := by
    rintro s c e s' task ⟨hNone, s₁, hStep, rfl, -, rfl⟩ t' hne hIdle
    exact ((work_cases hNone hStep).2.1 t' hne).trans hIdle

theorem update_boxes (boxes : Nat × Nat × Priority → List Task) (c t : Nat) (tasks : List Task) :
    (fun p : Nat × Nat =>
        Function.update boxes (c, t, Priority.normal) tasks (p.1, p.2, .normal)) =
      Function.update (fun p : Nat × Nat => boxes (p.1, p.2, .normal)) (c, t) tasks := by
  funext p
  by_cases hp : p = (c, t)
  · rw [hp, Function.update_self, Function.update_self]
  · rw [Function.update_of_ne hp, Function.update_of_ne]
    intro hEq
    obtain ⟨hSource, hRest⟩ := Prod.mk.inj hEq
    exact hp (Prod.ext hSource (Prod.mk.inj hRest).1)

/-- A step over the mailboxes is one of the system. -/
theorem step_of_mailboxes (hStep : Mailboxes.Step priority (program J) m e m') :
    Step J (.ofMailboxes m) e (.ofMailboxes m') ∧ m'.program.queues = fun _ => [] := by
  cases hStep with
  | @receive c t task rest e s' hBox hReceive =>
      refine ⟨?_, hReceive.2⟩
      have hTaken := (receive_cases hReceive.1 hReceive.2).2.2
        (fun p => m.boxes (p.1, p.2, .normal)) rest hBox
      rw [← update_boxes] at hTaken
      exact hTaken
  | @work c e s' task hWork =>
      obtain ⟨hNone, s₁, hStep, rfl, hSent, rfl⟩ := hWork
      refine ⟨?_, rfl⟩
      have hSpawned := (work_cases hNone hStep).2.2.2 fun p => m.boxes (p.1, p.2, .normal)
      rw [hSent] at hSpawned
      cases task with
      | none =>
          have hSame : (fun p : Nat × Nat => m.boxes (p.1, p.2, .normal) ++ sent e.channel none p) =
              fun p => m.boxes (p.1, p.2, .normal) := funext fun _ => List.append_nil _
          rw [hSame] at hSpawned
          exact hSpawned
      | some task =>
          rw [sent, append_only, ← update_boxes] at hSpawned
          exact hSpawned

/-- Where the system has a step, the mailboxes have one. -/
theorem mailboxes_of_step {s' : State} (hNone : m.program.queues = fun _ => [])
    (hStep : Step J (.ofMailboxes m) e s') :
    ∃ e m', Mailboxes.Step priority (program J) m e m' := by
  have hReceive : ∀ {c t : Nat} {task : Task} {rest : List Task}, m.program.running t = .idle →
      m.boxes (c, t, .normal) = task :: rest →
      ∃ e m', Mailboxes.Step priority (program J) m e m' := by
    intro c t task rest hIdle hBox
    obtain ⟨e, s', hReceive⟩ := (prompt J).receives c task hIdle
    exact ⟨e, _, .receive hBox hReceive⟩
  have hWork : ∀ {e : Event} {s₁ : State}, Step J m.program e s₁ →
      ∃ e m', Mailboxes.Step priority (program J) m e m' := by
    intro e s₁ hStep
    obtain ⟨task, hSent⟩ := (work_cases hNone hStep).2.2.1
    exact ⟨e, _, .work ⟨hNone, s₁, hStep, rfl, hSent, rfl⟩⟩
  cases hStep with
  | popPartition c t kind i rest hIdle hQueue => exact hReceive hIdle hQueue
  | popBatch c t kind rows rest hIdle hQueue => exact hReceive hIdle hQueue
  | popNotification c t kind rest hIdle hQueue => exact hReceive hIdle hQueue
  | popMerge c t rest hIdle hQueue => exact hReceive hIdle hQueue
  | row c kind i j tasks key hRun hCount hData hBatch =>
      exact hWork (.row c kind i j tasks key hRun hCount hData hBatch)
  | rowSpawn c kind i j tasks key hRun hCount hData hBatch =>
      exact hWork (.rowSpawn c kind i j tasks key hRun hCount hData hBatch)
  | rowsDone c kind i j tasks hRun hCount => exact hWork (.rowsDone c kind i j tasks hRun hCount)
  | flush c kind k tasks hRun hLess => exact hWork (.flush c kind k tasks hRun hLess)
  | notify c kind k tasks hRun => exact hWork (.notify c kind k tasks hRun)
  | flushed c kind k tasks hRun hLess => exact hWork (.flushed c kind k tasks hRun hLess)
  | insert t c row rows table hRun hInsert => exact hWork (.insert t c row rows table hRun hInsert)
  | hit t c row rows value r hRun hGet hValue hResult =>
      exact hWork (.hit t c row rows value r hRun hGet hValue hResult)
  | miss t c row rows hRun hGet => exact hWork (.miss t c row rows hRun hGet)
  | finish t kind c hRun => exact hWork (.finish t kind c hRun)
  | decrement t kind hRun hGlobal => exact hWork (.decrement t kind hRun hGlobal)
  | callBuild t hRun hGlobal => exact hWork (.callBuild t hRun hGlobal)
  | callProbe t hRun hGlobal => exact hWork (.callProbe t hRun hGlobal)
  | dispatch c k hRun hLess => exact hWork (.dispatch c k hRun hLess)
  | dispatched c k hRun hLess => exact hWork (.dispatched c k hRun hLess)
  | merge c k hRun hLess => exact hWork (.merge c k hRun hLess)
  | merged c k hRun hLess => exact hWork (.merged c k hRun hLess)

theorem run_of_mailboxes {es : List Event} (hNone : m.program.queues = fun _ => [])
    (hRun : Run (Mailboxes.Step priority (program J)) m es m') :
    Run (Step J) (.ofMailboxes m) es (.ofMailboxes m') ∧ m'.program.queues = fun _ => [] := by
  induction hRun with
  | nil => exact ⟨Run.nil, hNone⟩
  | snoc _ hStep ih =>
      obtain ⟨hJoin, hNone'⟩ := step_of_mailboxes hStep
      exact ⟨ih.1.snoc hJoin, hNone'⟩

/-- If the system comes to an end, so do the mailboxes. -/
theorem acc_of_system {s : State} (hAcc : Acc (fun s' s => Next J s s') s) :
    ∀ m, State.ofMailboxes m = s →
      Acc (fun m' m => ∃ e, Mailboxes.Step priority (program J) m e m') m := by
  induction hAcc with
  | intro s _ ih =>
      rintro m rfl
      refine Acc.intro m fun m' hNext => ?_
      obtain ⟨e, hStep⟩ := hNext
      exact ih _ ⟨e, (step_of_mailboxes hStep).1⟩ m' rfl

end Mailboxes

/-! ## The runtime -/

/-- `Benchmark::start()`: the partition tasks of the build phase are spawned from channel 0. -/
def started (J : Join) : List (Nat × Nat × Task) :=
  (List.range J.countCores).map fun i => (0, i, .partition .build i)

theorem boxes_start (s : State) (n : Nat) :
    (Mailboxes.start priority s
      ((List.range n).map fun i => (0, i, Task.partition .build i))).boxes = fun (c, t, p) =>
        if c = 0 ∧ t < n ∧ p = .normal then [.partition .build t] else [] := by
  induction n with
  | zero =>
      funext ⟨c, t, p⟩
      simp [Mailboxes.start]
  | succ n ih =>
      rw [List.range_succ, List.map_append, List.map_singleton, Mailboxes.boxes_start_concat, ih]
      funext ⟨c, t, p⟩
      unfold Mailboxes.post
      by_cases hBox : (c, t, p) = (0, n, priority (.partition .build n))
      · obtain ⟨rfl, hRest⟩ := Prod.mk.inj hBox
        obtain ⟨rfl, rfl⟩ := Prod.mk.inj hRest
        simp [priority]
      · refine (Function.update_of_ne hBox ..).trans ?_
        have hNot : ¬ (c = 0 ∧ t = n ∧ p = .normal) := by
          rintro ⟨rfl, rfl, rfl⟩
          exact hBox rfl
        refine if_congr ⟨?_, ?_⟩ rfl rfl
        · rintro ⟨hc, ht, hp⟩
          exact ⟨hc, by omega, hp⟩
        · rintro ⟨hc, ht, hp⟩
          have hne : t ≠ n := fun hEq => hNot ⟨hc, hEq, hp⟩
          exact ⟨hc, by omega, hp⟩

theorem ofMailboxes_start (J : Join) :
    State.ofMailboxes (Mailboxes.start priority ((State.initial J).withQueues fun _ => [])
      (started J)) = State.initial J := by
  unfold State.ofMailboxes started
  rw [boxes_start]
  simp [State.withQueues, State.initial, Mailboxes.start]

section Runtime

variable {J : Join} {numaNodeId : Nat → Nat} {prefetchDistance : Nat}
  {es : List (Delivery.Event Nat Event)} {s : Delivery.State Nat State Task}

/-- The runtime at the start of the benchmark. -/
def runtime (J : Join) (numaNodeId : Nat → Nat) (prefetchDistance : Nat) :
    Delivery.State Nat State Task :=
  .start numaNodeId priority prefetchDistance ((State.initial J).withQueues fun _ => []) (started J)

/-- The state of the system that a state of the runtime is. -/
def joinOf (numaNodeId : Nat → Nat) (s : Delivery.State Nat State Task) : State :=
  .ofMailboxes (s.mailboxes numaNodeId priority)

/-- A run of the runtime is one of the system. -/
theorem run_of_runtime (hRun : Run (Delivery.Step numaNodeId priority (program J))
    (runtime J numaNodeId prefetchDistance) es s) :
    Run (Step J) (State.initial J) (es.filterMap Delivery.Event.step?) (joinOf numaNodeId s) ∧
      s.program.queues = fun _ => [] := by
  obtain ⟨hInv, hStart⟩ := Delivery.inv_start numaNodeId priority prefetchDistance
    ((State.initial J).withQueues fun _ => []) (started J)
  have hMail := (hInv.run hRun).2
  rw [hStart] at hMail
  have hJoin := run_of_mailboxes rfl hMail
  rwa [ofMailboxes_start] at hJoin

/-- The runtime is at rest when the system is. -/
theorem quiet_of_ended (h : Invariant J (joinOf numaNodeId s)) (hServed : J.Served)
    (hInv : Delivery.Inv numaNodeId priority s) (hEnd : Ended J (joinOf numaNodeId s)) :
    Delivery.Quiet s ∧ ∀ t, s.program.running t = .idle := by
  have hIdle : ∀ t, s.program.running t = .idle := by
    intro t
    by_contra hBusy
    obtain ⟨s', hNext⟩ := h.next_of_busy hBusy fun _ _ _ _ hCase => h.executes hServed hCase
    exact hEnd s' hNext
  refine ⟨hInv.quiet_iff.mpr (funext fun ⟨c, t, p⟩ => ?_), hIdle⟩
  cases p with
  | low => simp [Delivery.State.boxes, Delivery.sentBy, priority]
  | normal =>
      by_contra hQueue
      obtain ⟨s', hNext⟩ :=
        Invariant.next_of_queue (J := J) (s := joinOf numaNodeId s) (hIdle t) hQueue
      exact hEnd s' hNext

/-- And the other way round. -/
theorem ended_of_quiet (hInv : Delivery.Inv numaNodeId priority s) (hQuiet : Delivery.Quiet s)
    (hIdle : ∀ t, s.program.running t = .idle) : Ended J (joinOf numaNodeId s) := by
  intro s' hNext
  obtain ⟨e, hStep⟩ := hNext
  have hQueues : (joinOf numaNodeId s).queues = fun _ => [] := by
    funext p
    exact congrFun (hInv.quiet_iff.mp hQuiet) (p.1, p.2, .normal)
  exact (work_cases hQueues hStep).1 (hIdle _)

theorem inv_of_runtime (hRun : Run (Delivery.Step numaNodeId priority (program J))
    (runtime J numaNodeId prefetchDistance) es s) : Delivery.Inv numaNodeId priority s :=
  ((Delivery.inv_start numaNodeId priority prefetchDistance
    ((State.initial J).withQueues fun _ => []) (started J)).1.run hRun).1

/-- From every state the runtime can finish the join. -/
theorem exists_quiet (hServed : J.Served) (hReach : ∀ c, numaNodeId c < maxNumaNodes)
    (hRun : Run (Delivery.Step numaNodeId priority (program J))
      (runtime J numaNodeId prefetchDistance) es s) :
    ∃ es' s', Run (Delivery.Step numaNodeId priority (program J)) s es' s' ∧ Delivery.Quiet s' ∧
      ∀ t, s'.program.running t = .idle := by
  have hPlaced : Delivery.Placed (program J) s :=
    (Delivery.Placed.start fun _ => rfl).run (prompt J) hRun
  have hAcc := acc_of_system
    (acc_of_small hServed.small (Barrier.run (run_of_runtime hRun).1)) _ rfl
  obtain ⟨es', s', hRest, hEnd⟩ :=
    Delivery.exists_end (prompt J) hReach hAcc s rfl (inv_of_runtime hRun) hPlaced
  have hWhole := hRun.append hRest
  obtain ⟨hJoin, hNone⟩ := run_of_runtime hWhole
  refine ⟨es', s', hRest, quiet_of_ended (Invariant.run hServed.small hJoin) hServed
    (inv_of_runtime hWhole) ?_⟩
  rintro s₁ ⟨e, hStep⟩
  obtain ⟨e', m', hMail⟩ := mailboxes_of_step hNone hStep
  exact hEnd e' m' hMail

end Runtime

/-- The join over the channels, their buffers and their queues by region, for all regions of the
channels and all distances to prefetch.  From every state the runtime can come to rest, with all
queues and buffers empty; and whenever it is at rest, the result sets are the join, and
`MergeTask` has counted its pairs. -/
theorem join_of_runtime {J : Join} (hNodup : J.left.Nodup) (hLeft : maxKey ∉ J.left)
    (hRight : maxKey ∉ J.right)
    (hRoom : ∀ t < J.countCores, (J.inserted t).card ≤ 2 ^ J.tableBits) (hExact : J.Exact)
    (numaNodeId : Nat → Nat) (hReach : ∀ c, numaNodeId c < maxNumaNodes) (prefetchDistance : Nat)
    {es : List (Delivery.Event Nat Event)} {s : Delivery.State Nat State Task}
    (hRun : Run (Delivery.Step numaNodeId priority (program J))
      (runtime J numaNodeId prefetchDistance) es s) :
    (∃ es' s', Run (Delivery.Step numaNodeId priority (program J)) s es' s' ∧ Delivery.Quiet s' ∧
      ∀ t, s'.program.running t = .idle) ∧
    (Delivery.Quiet s → (∀ t, s.program.running t = .idle) →
      ∑ t ∈ Finset.range J.countCores,
        ((s.program.resultSets t).items : Multiset (Nat × Nat)) = J.joined.val ∧
      s.program.countOutputTuples = J.joined.card) := by
  have hServed := hExact.served hNodup hLeft hRight hRoom
  refine ⟨exists_quiet hServed hReach hRun, fun hQuiet hIdle => ?_⟩
  have h := Invariant.run hServed.small (run_of_runtime hRun).1
  obtain ⟨hZero, hCount⟩ :=
    h.completed hServed (ended_of_quiet (inv_of_runtime hRun) hQuiet hIdle)
  have hResults := h.sum_results hServed hExact.even hNodup hLeft hRight hZero
  refine ⟨hResults, hCount.trans ?_⟩
  have hCard := congrArg Multiset.card hResults
  rw [Multiset.card_sum] at hCard
  exact hCard

/-- Two channels of two regions come to rest with the join. -/
theorem join_of_runtime_balanced : ∃ es s,
    Run (Delivery.Step (· % 2) priority (program balanced)) (runtime balanced (· % 2) 4) es s ∧
      ∑ t ∈ Finset.range 2, ((s.program.resultSets t).items : Multiset (Nat × Nat)) =
        balanced.joined.val := by
  have hReach : ∀ c, c % 2 < maxNumaNodes := fun c => by
    show c % 2 < 8
    omega
  have hNodup : balanced.left.Nodup := by decide +kernel
  have hLeft : maxKey ∉ balanced.left := by decide +kernel
  have hRight : maxKey ∉ balanced.right := by decide +kernel
  have hRoom : ∀ t < 2, (balanced.inserted t).card ≤ 2 ^ 5 := fun t ht =>
    (card_inserted_balanced t ht).le
  obtain ⟨es, s, hRun, hQuiet, hIdle⟩ := (join_of_runtime (J := balanced) hNodup hLeft hRight hRoom
    exact_balanced (· % 2) hReach 4 Run.nil).1
  exact ⟨es, s, hRun, ((join_of_runtime (J := balanced) hNodup hLeft hRight hRoom exact_balanced _
    hReach 4 hRun).2 hQuiet hIdle).1⟩

end MxTasking.HashJoin
