import MxTasking.Tasking.Channel
import MxTasking.Verified.Mailboxes

/-!
# The channels as mailboxes

All workers of a runtime, each with its channel, and a program that is made of the tasks they
execute.  A task that is spawned on a channel for another one goes to the remote queue of its
priority and of the region of the spawning channel, a task for the same channel to the local queue;
from there the worker moves it to its task buffer, takes it out, perhaps fills the buffer again, and
executes it.  Tasks from different channels share the remote queues, and the queues share the
buffer.

`runtime::spawn(task, channel_id)` with the target that `Scheduler::schedule` has decided on is one
step, and so is every access of a worker to a queue.

## Main results

* `Inv.step` — a step of the runtime is one of the program over mailboxes, or none.
* `mailboxes_of_run` — the runtime executes a program as mailboxes would.
-/

namespace MxTasking.Tasking.Delivery

open MxTasking.Verified

variable {ι σ τ ε : Type*} [DecidableEq ι]

/-- The queue of channel `target` to which a task is pushed that is spawned on `source`. -/
def route (numaNodeId : ι → Nat) (source target : ι) (priority : Priority) : Backend :=
  if target = source then .localQueue priority else .remoteQueue priority (numaNodeId source)

/-- The channels, whose tasks are kept with the channel that has spawned them; the task each
worker has taken out of its buffer and not begun yet; and the state of the program. -/
structure State (ι σ τ : Type*) where
  channels : ι → Tasking.State (ι × τ)
  current : ι → Option (ι × τ)
  program : σ

inductive Event (ι ε : Type*) where
  /-- The worker moves tasks to its buffer, or goes on otherwise. -/
  | worker (channel : ι)
  /-- `next()` returns a task. -/
  | next (channel : ι)
  /-- The worker begins to execute its task. -/
  | begin (channel : ι) (e : ε)
  /-- A step of the task that is executed. -/
  | work (channel : ι) (e : ε)
  /-- `execute()` has returned. -/
  | executed (channel : ι)

/-- The step of the program that an event is. -/
def Event.step? : Event ι ε → Option ε
  | .begin _ e => some e
  | .work _ e => some e
  | _ => none

section Steps

variable (numaNodeId : ι → Nat) (priority : τ → Priority)

/-- `push_back_local` or `push_back_remote`. -/
def State.push (s : State ι σ τ) (source target : ι) (task : τ) : State ι σ τ :=
  { s with
    channels := Function.update s.channels target
      ((s.channels target).push (route numaNodeId source target (priority task)) (source, task)) }

/-- What a step of a task spawns. -/
def State.spawn (s : State ι σ τ) (source : ι) : Option (ι × τ) → State ι σ τ
  | none => s
  | some (target, task) => s.push numaNodeId priority source target task

/-- A channel and its worker go on. -/
def State.move (s : State ι σ τ) (t : ι) (channel : Tasking.State (ι × τ)) : State ι σ τ :=
  { s with channels := Function.update s.channels t channel }

/-- The worker has a task in its hand, or none any more. -/
def State.hold (s : State ι σ τ) (t : ι) (task : Option (ι × τ)) : State ι σ τ :=
  { s with current := Function.update s.current t task }

inductive Step (prog : Program ι σ τ ε) : State ι σ τ → Event ι ε → State ι σ τ → Prop where
  | worker {s : State ι σ τ} {t : ι} {channel : Tasking.State (ι × τ)} :
      (s.channels t).control ≠ .executing → Tasking.Step (s.channels t) .worker channel →
      channel.returned = (s.channels t).returned →
      Step prog s (.worker t) (s.move t channel)
  | next {s : State ι σ τ} {t : ι} {buffer : TaskBuffer (Spawned (ι × τ))}
      {task : Spawned (ι × τ)} : (s.channels t).control = .inner →
      (s.channels t).buffer.next = (buffer, some task) →
      Step prog s (.next t)
        ((s.move t { s.channels t with
          buffer := buffer
          returned := (s.channels t).returned ++ [task]
          control := .taken }).hold t (some task.task))
  | begin {s : State ι σ τ} {t source : ι} {task : τ} {e : ε} {program : σ} :
      (s.channels t).control = .executing → s.current t = some (source, task) →
      prog.receive s.program source t task e program →
      Step prog s (.begin t e) ({ s with program := program }.hold t none)
  | work {s : State ι σ τ} {t : ι} {e : ε} {program : σ} {task : Option (ι × τ)} :
      (s.channels t).control = .executing → s.current t = none →
      prog.work s.program t e program task →
      Step prog s (.work t e) ({ s with program := program }.spawn numaNodeId priority t task)
  | executed {s : State ι σ τ} {t : ι} : (s.channels t).control = .executing →
      s.current t = none → prog.idle s.program t →
      Step prog s (.executed t) (s.move t { s.channels t with control := .inner })

/-- The tasks that are spawned before the workers run. -/
def State.start (prefetchDistance : Nat) (program : σ) (sent : List (ι × ι × τ)) : State ι σ τ :=
  sent.foldl (fun s (source, target, task) => s.push numaNodeId priority source target task)
    ⟨fun t => .initial (numaNodeId t) prefetchDistance, fun _ => none, program⟩

end Steps

/-! ## One channel -/

section Channel

variable {T : Type*} {s s' : Tasking.State T} {xs : List (Spawned T)}

/-- The tasks of a queue that have not been returned: those in the buffer, and those behind them. -/
def undelivered (s : Tasking.State T) (queue : Backend) : List (Spawned T) :=
  s.buffer.contents.filter (fun task => task.backend = queue) ++ s.queues queue

theorem pushed_eq (h : s.Inv xs) (queue : Backend) :
    s.pushed queue =
      s.returned.filter (fun task => task.backend = queue) ++ undelivered s queue := by
  rw [undelivered, ← List.append_assoc, ← List.filter_append]
  exact h.exactlyOnce.conserved queue

theorem undelivered_initial (numaNodeId prefetchDistance : Nat) (queue : Backend) :
    undelivered (.initial numaNodeId prefetchDistance : Tasking.State T) queue = [] :=
  (pushed_eq (State.inv_initial numaNodeId prefetchDistance) queue).symm

theorem undelivered_push (queue q : Backend) (task : T) :
    undelivered (s.push queue task) q =
      if q = queue then undelivered s q ++ [⟨queue, task⟩] else undelivered s q := by
  unfold undelivered Tasking.State.push
  dsimp only
  by_cases hEq : q = queue
  · subst hEq
    rw [Function.update_self, if_pos rfl, List.append_assoc]
  · rw [Function.update_of_ne hEq, if_neg hEq]

/-- Nothing is pushed by the worker between two executions. -/
theorem pushed_of_worker (hStep : Tasking.Step s .worker s') : s'.pushed = s.pushed := by
  cases hStep <;> rfl

/-- What the worker does with its buffer changes nothing for the tasks it has not taken out. -/
theorem undelivered_of_worker (h : s.Inv xs) (hStep : Tasking.Step s .worker s')
    (hReturned : s'.returned = s.returned) : undelivered s' = undelivered s := by
  obtain ⟨xs', h'⟩ := hStep.inv h
  funext queue
  have hNew := pushed_eq h' queue
  rw [pushed_of_worker hStep, hReturned, pushed_eq h queue] at hNew
  exact (List.append_cancel_left hNew).symm

/-- The task that is returned was the first one of its queue. -/
theorem undelivered_of_next (h : s.Inv xs) {task : Spawned T}
    (hStep : Tasking.Step s .worker s') (hReturned : s'.returned = s.returned ++ [task])
    (queue : Backend) :
    undelivered s queue =
      (if task.backend = queue then [task] else []) ++ undelivered s' queue := by
  obtain ⟨xs', h'⟩ := hStep.inv h
  have hNew := pushed_eq h' queue
  rw [pushed_of_worker hStep, hReturned, pushed_eq h queue, List.filter_append,
    List.append_assoc] at hNew
  rw [List.append_cancel_left hNew]
  by_cases hEq : task.backend = queue <;> simp [hEq]

/-- The worker has taken a task out of the buffer and not returned from its execution. -/
def Busy : Control → Prop
  | .taken => True
  | .executing => True
  | .fill caller _ _ _ => caller ≠ .outer
  | .pop caller _ _ _ _ _ => caller ≠ .outer
  | .filled caller _ => caller ≠ .outer
  | .outer => False
  | .inner => False

theorem busy_of_worker (h : Busy s.control) (hStep : Tasking.Step s .worker s')
    (hExecuting : s.control ≠ .executing) : Busy s'.control := by
  cases hStep with
  | outer hControl | enterInner hControl | next hControl _ | drained hControl _ =>
      rw [hControl] at h
      simp [Busy] at h
  | profiling hControl _ | executed hControl => exact absurd hControl hExecuting
  | skip hControl _ _ | enter hControl _ _ _ | put hControl _ _ | null hControl _
  | count hControl _ | low hControl _ _ | filled hControl _ _ =>
      rw [hControl] at h
      exact h
  | afterRefill _ | afterProfiling _ | execute _ _ => exact trivial
  | refill _ _ => exact nofun

end Channel

/-! ## The mailboxes -/

section Simulation

variable (numaNodeId : ι → Nat) (priority : τ → Priority)

/-- The tasks from a channel with a priority. -/
def sentBy (source : ι) (p : Priority) (tasks : List (ι × τ)) : List τ :=
  (tasks.filter fun task => task.1 = source ∧ priority task.2 = p).map Prod.snd

/-- What is on its way: the task that a worker is about to begin, and what it has not taken out. -/
def State.boxes (s : State ι σ τ) : ι × ι × Priority → List τ := fun (source, target, p) =>
  sentBy priority source p ((s.current target).toList ++
    (undelivered (s.channels target) (route numaNodeId source target p)).map Spawned.task)

def State.mailboxes (s : State ι σ τ) : Mailboxes.State ι σ τ Priority :=
  ⟨s.program, s.boxes numaNodeId priority⟩

structure Inv (s : State ι σ τ) : Prop where
  channel : ∀ t, ∃ xs, (s.channels t).Inv xs
  routed : ∀ t queue, ∀ task ∈ undelivered (s.channels t) queue,
    queue = route numaNodeId task.task.1 t (priority task.task.2)
  current : ∀ t, s.current t ≠ none → Busy (s.channels t).control

variable {numaNodeId priority}

theorem sentBy_append (source : ι) (p : Priority) (tasks tasks' : List (ι × τ)) :
    sentBy priority source p (tasks ++ tasks') =
      sentBy priority source p tasks ++ sentBy priority source p tasks' := by
  rw [sentBy, List.filter_append, List.map_append]
  rfl

theorem sentBy_self (source : ι) (task : τ) :
    sentBy priority source (priority task) [(source, task)] = [task] := by
  simp [sentBy]

theorem sentBy_other {source : ι} {p : Priority} {task : ι × τ}
    (h : ¬ (task.1 = source ∧ priority task.2 = p)) : sentBy priority source p [task] = [] := by
  simp [sentBy, h]

namespace Inv

variable {prog : Program ι σ τ ε} {s s' : State ι σ τ} {e : Event ι ε} {t source : ι} {task : τ}

theorem push (h : Inv numaNodeId priority s) (source target : ι) (task : τ) :
    Inv numaNodeId priority (s.push numaNodeId priority source target task) := by
  refine ⟨fun t => ?_, fun t queue x hx => ?_, fun t ht => ?_⟩
  · by_cases hEq : t = target
    · subst hEq
      obtain ⟨xs, hxs⟩ := h.channel t
      exact ⟨xs, by simpa [State.push] using hxs.push _ _⟩
    · simpa [State.push, hEq] using h.channel t
  · by_cases hEq : t = target
    · subst hEq
      simp only [State.push, Function.update_self, undelivered_push] at hx
      split at hx
      · next hQueue =>
          rcases List.mem_append.mp hx with hOld | hNew
          · exact h.routed t queue x hOld
          · obtain rfl := List.mem_singleton.mp hNew
            exact hQueue
      · exact h.routed t queue x hx
    · simp only [State.push, Function.update_of_ne hEq] at hx
      exact h.routed t queue x hx
  · by_cases hEq : t = target
    · subst hEq
      simpa [State.push, Tasking.State.push] using h.current t ht
    · simpa [State.push, hEq] using h.current t ht

/-- What is pushed is on its way. -/
theorem boxes_push (s : State ι σ τ) (source target : ι) (task : τ) :
    (s.push numaNodeId priority source target task).boxes numaNodeId priority =
      Mailboxes.post priority (s.boxes numaNodeId priority) source target task := by
  funext ⟨source', target', p⟩
  by_cases hTarget : target' = target
  · subst hTarget
    simp only [State.boxes, State.push, Function.update_self, undelivered_push, Mailboxes.post]
    by_cases hBox : source' = source ∧ p = priority task
    · obtain ⟨rfl, rfl⟩ := hBox
      rw [if_pos rfl, Function.update_self, List.map_append, ← List.append_assoc, sentBy_append]
      exact congrArg _ (sentBy_self source' task)
    · have hne : ((source', target', p) : ι × ι × Priority) ≠ (source, target', priority task) :=
        fun hEq => hBox ⟨congrArg Prod.fst hEq, congrArg (·.2.2) hEq⟩
      rw [Function.update_of_ne hne]
      split
      · rw [List.map_append, ← List.append_assoc, sentBy_append]
        have hNone : sentBy priority source' p [(source, task)] = [] :=
          sentBy_other fun hSame => hBox ⟨hSame.1.symm, hSame.2.symm⟩
        exact (congrArg _ hNone).trans (List.append_nil _)
      · rfl
  · have hne : ((source', target', p) : ι × ι × Priority) ≠ (source, target, priority task) :=
      fun hEq => hTarget (congrArg (·.2.1) hEq)
    simp only [State.boxes, State.push, Mailboxes.post, Function.update_of_ne hne,
      Function.update_of_ne hTarget]

/-- A channel goes on and its worker keeps what it has in its hand. -/
theorem move (h : Inv numaNodeId priority s) {channel : Tasking.State (ι × τ)}
    (hInv : ∃ xs, channel.Inv xs) (hSame : undelivered channel = undelivered (s.channels t))
    (hBusy : s.current t ≠ none → Busy channel.control) :
    Inv numaNodeId priority (s.move t channel) ∧
      (s.move t channel).boxes numaNodeId priority = s.boxes numaNodeId priority := by
  have hAll : ∀ t', undelivered ((s.move t channel).channels t') =
      undelivered (s.channels t') := by
    intro t'
    by_cases hEq : t' = t
    · subst hEq
      simpa [State.move] using hSame
    · simp [State.move, hEq]
  refine ⟨⟨fun t' => ?_, fun t' queue x hx => ?_, fun t' ht => ?_⟩, ?_⟩
  · by_cases hEq : t' = t
    · subst hEq
      simpa [State.move] using hInv
    · simpa [State.move, hEq] using h.channel t'
  · rw [hAll] at hx
    exact h.routed t' queue x hx
  · by_cases hEq : t' = t
    · subst hEq
      simpa [State.move] using hBusy ht
    · simpa [State.move, hEq] using h.current t' ht
  · unfold State.boxes
    simp only [hAll]
    rfl

/-- `next()` takes out the task that is in front of its mailbox. -/
theorem next (h : Inv numaNodeId priority s) {channel : Tasking.State (ι × τ)}
    {x : Spawned (ι × τ)} (hStep : Tasking.Step (s.channels t) .worker channel)
    (hReturned : channel.returned = (s.channels t).returned ++ [x])
    (hEmpty : s.current t = none) (hBusy : Busy channel.control) :
    Inv numaNodeId priority ((s.move t channel).hold t (some x.task)) ∧
      ((s.move t channel).hold t (some x.task)).boxes numaNodeId priority =
        s.boxes numaNodeId priority := by
  obtain ⟨xs, hxs⟩ := h.channel t
  have hFirst := undelivered_of_next hxs hStep hReturned
  have hRoute := h.routed t x.backend x (by simp [hFirst x.backend])
  refine ⟨⟨fun t' => ?_, fun t' queue y hy => ?_, fun t' ht => ?_⟩, ?_⟩
  · by_cases hEq : t' = t
    · subst hEq
      simpa [State.move, State.hold] using hStep.inv hxs
    · simpa [State.move, State.hold, hEq] using h.channel t'
  · by_cases hEq : t' = t
    · subst hEq
      simp only [State.move, State.hold, Function.update_self] at hy
      exact h.routed t' queue y (by rw [hFirst]; exact List.mem_append_right _ hy)
    · simp only [State.move, State.hold, Function.update_of_ne hEq] at hy
      exact h.routed t' queue y hy
  · by_cases hEq : t' = t
    · subst hEq
      simpa [State.move, State.hold] using hBusy
    · simp only [State.move, State.hold, Function.update_of_ne hEq] at ht ⊢
      exact h.current t' ht
  · funext ⟨source, target, p⟩
    by_cases hEq : target = t
    · subst hEq
      simp only [State.boxes, State.move, State.hold, Function.update_self, hEmpty, hFirst,
        List.map_append, Option.toList_none, Option.toList_some, List.nil_append]
      by_cases hQueue : x.backend = route numaNodeId source target p
      · rw [if_pos hQueue]
        rfl
      · -- a task that is behind another queue is not in this mailbox
        rw [if_neg hQueue, sentBy_append, sentBy_other, List.map_nil, List.nil_append,
          List.nil_append]
        rintro ⟨rfl, rfl⟩
        exact hQueue hRoute
    · simp [State.boxes, State.move, State.hold, hEq]

/-- A worker begins with the task that is in front of its mailbox. -/
theorem begin (h : Inv numaNodeId priority s) (hCurrent : s.current t = some (source, task))
    (program : σ) :
    Inv numaNodeId priority ({ s with program := program }.hold t none) ∧
      ∃ rest, s.boxes numaNodeId priority (source, t, priority task) = task :: rest ∧
        ({ s with program := program }.hold t none).boxes numaNodeId priority =
          Function.update (s.boxes numaNodeId priority) (source, t, priority task) rest := by
  refine ⟨⟨h.channel, h.routed, fun t' ht => ?_⟩,
    ({ s with program := program }.hold t none).boxes numaNodeId priority
      (source, t, priority task), ?_, ?_⟩
  · by_cases hEq : t' = t
    · subst hEq
      simp [State.hold] at ht
    · exact h.current t' (by simpa [State.hold, hEq] using ht)
  · simp only [State.boxes, State.hold, Function.update_self, hCurrent, Option.toList_some,
      Option.toList_none, List.nil_append]
    rw [sentBy_append, sentBy_self]
    rfl
  · funext ⟨source', t', p⟩
    by_cases hBox : ((source', t', p) : ι × ι × Priority) = (source, t, priority task)
    · rw [hBox, Function.update_self]
    · rw [Function.update_of_ne hBox]
      by_cases hEq : t' = t
      · subst hEq
        simp only [State.boxes, State.hold, Function.update_self, hCurrent, Option.toList_some,
          Option.toList_none, List.nil_append]
        rw [sentBy_append, sentBy_other, List.nil_append]
        rintro ⟨rfl, rfl⟩
        exact hBox rfl
      · simp [State.boxes, State.hold, hEq]

/-- A step of the runtime is a step of the program over mailboxes, or changes nothing there. -/
theorem step (h : Inv numaNodeId priority s) (hStep : Step numaNodeId priority prog s e s') :
    Inv numaNodeId priority s' ∧
      Run (Mailboxes.Step priority prog) (s.mailboxes numaNodeId priority) e.step?.toList
        (s'.mailboxes numaNodeId priority) := by
  cases hStep with
  | @worker t channel hControl hWorker hReturned =>
      obtain ⟨xs, hxs⟩ := h.channel t
      obtain ⟨hInv, hBoxes⟩ := h.move (hWorker.inv hxs)
        (undelivered_of_worker hxs hWorker hReturned)
        fun ht => busy_of_worker (h.current t ht) hWorker hControl
      exact ⟨hInv, Run.nil.cast (congrArg (Mailboxes.State.mk s.program) hBoxes.symm)⟩
  | @next t buffer x hControl hNext =>
      have hEmpty : s.current t = none := by
        by_contra hne
        have hBusy := h.current t hne
        rw [hControl] at hBusy
        exact hBusy
      obtain ⟨hInv, hBoxes⟩ := h.next (Tasking.Step.next hControl hNext) rfl hEmpty trivial
      exact ⟨hInv, Run.nil.cast (congrArg (Mailboxes.State.mk s.program) hBoxes.symm)⟩
  | @begin t source task e program hControl hCurrent hReceive =>
      obtain ⟨hInv, rest, hFront, hBoxes⟩ := h.begin hCurrent program
      exact ⟨hInv, (Run.single (.receive hFront hReceive)).cast
        (congrArg (Mailboxes.State.mk program) hBoxes.symm)⟩
  | @work t e program task hControl hCurrent hWork =>
      have hProgram : Inv numaNodeId priority { s with program := program } :=
        ⟨h.channel, h.routed, h.current⟩
      refine ⟨?_, (Run.single (.work hWork)).cast ?_⟩
      · cases task with
        | none => exact hProgram
        | some sent => exact hProgram.push _ _ _
      · cases task with
        | none => rfl
        | some sent =>
            exact congrArg (Mailboxes.State.mk program)
              (boxes_push { s with program := program } t sent.1 sent.2).symm
  | @executed t hControl hCurrent hIdle =>
      obtain ⟨xs, hxs⟩ := h.channel t
      obtain ⟨hInv, hBoxes⟩ := h.move ((Tasking.Step.executed hControl).inv hxs) rfl
        fun ht => absurd hCurrent ht
      exact ⟨hInv, Run.nil.cast (congrArg (Mailboxes.State.mk s.program) hBoxes.symm)⟩

theorem run {es : List (Event ι ε)} (h : Inv numaNodeId priority s)
    (hRun : Run (Step numaNodeId priority prog) s es s') :
    Inv numaNodeId priority s' ∧
      Run (Mailboxes.Step priority prog) (s.mailboxes numaNodeId priority)
        (es.filterMap Event.step?) (s'.mailboxes numaNodeId priority) := by
  induction hRun with
  | nil => exact ⟨h, Run.nil⟩
  | @snoc es e mid fin _ hStep ih =>
      obtain ⟨hInv, hRest⟩ := ih.1.step hStep
      refine ⟨hInv, ?_⟩
      rw [List.filterMap_append]
      have hLast : [e].filterMap Event.step? = e.step?.toList := by cases e <;> rfl
      rw [hLast]
      exact ih.2.append hRest

end Inv

variable (numaNodeId priority) in
/-- The runtime before anything is spawned. -/
theorem inv_initial (prefetchDistance : Nat) (program : σ) :
    Inv numaNodeId priority
      (⟨fun t => .initial (numaNodeId t) prefetchDistance, fun _ => none, program⟩ :
        State ι σ τ) := by
  refine ⟨fun _ => ⟨[], State.inv_initial _ _⟩, fun t queue x hx => ?_, fun _ ht => absurd rfl ht⟩
  rw [undelivered_initial] at hx
  exact absurd hx List.not_mem_nil

theorem boxes_initial (prefetchDistance : Nat) (program : σ) :
    State.boxes numaNodeId priority
      (⟨fun t => .initial (numaNodeId t) prefetchDistance, fun _ => none, program⟩ :
        State ι σ τ) = fun _ => [] := by
  funext box
  simp [State.boxes, undelivered_initial, sentBy]

/-- What is spawned before the workers run is in the mailboxes. -/
theorem mailboxes_push (sent : List (ι × ι × τ)) :
    ∀ s : State ι σ τ, Inv numaNodeId priority s →
      Inv numaNodeId priority (sent.foldl
        (fun s (source, target, task) => s.push numaNodeId priority source target task) s) ∧
      (sent.foldl (fun s (source, target, task) => s.push numaNodeId priority source target task)
        s).mailboxes numaNodeId priority =
          ⟨s.program, sent.foldl
            (fun boxes (source, target, message) =>
              Mailboxes.post priority boxes source target message)
            (s.boxes numaNodeId priority)⟩ := by
  induction sent with
  | nil => exact fun s h => ⟨h, rfl⟩
  | cons task sent ih =>
      intro s h
      obtain ⟨source, target, task⟩ := task
      have hRest := ih _ (h.push source target task)
      rw [Inv.boxes_push] at hRest
      exact hRest

theorem inv_start (numaNodeId : ι → Nat) (priority : τ → Priority) (prefetchDistance : Nat)
    (program : σ) (sent : List (ι × ι × τ)) :
    Inv numaNodeId priority (State.start numaNodeId priority prefetchDistance program sent) ∧
      (State.start numaNodeId priority prefetchDistance program sent).mailboxes
        numaNodeId priority = Mailboxes.start priority program sent := by
  obtain ⟨hInv, hStart⟩ :=
    mailboxes_push sent _ (inv_initial numaNodeId priority prefetchDistance program)
  rw [boxes_initial] at hStart
  exact ⟨hInv, hStart⟩

/-- Every run of the runtime is a run of the program whose parties are the channels, with
mailboxes for each pair of them and each priority: no task is lost, executed twice or executed on
another channel, and two tasks of one priority from one channel to another are executed in the
order they were spawned, for all distances to prefetch and all regions of the channels. -/
theorem mailboxes_of_run (numaNodeId : ι → Nat) (priority : τ → Priority)
    (prog : Program ι σ τ ε) (prefetchDistance : Nat) (program : σ) (sent : List (ι × ι × τ))
    (es : List (Event ι ε)) (s : State ι σ τ)
    (hRun : Run (Step numaNodeId priority prog)
      (State.start numaNodeId priority prefetchDistance program sent) es s) :
    Run (Mailboxes.Step priority prog) (Mailboxes.start priority program sent)
      (es.filterMap Event.step?) (s.mailboxes numaNodeId priority) := by
  obtain ⟨hInv, hStart⟩ := inv_start numaNodeId priority prefetchDistance program sent
  have hMail := (hInv.run hRun).2
  rwa [hStart] at hMail

/-- A worker left alone takes its turns. -/
theorem exists_moved (numaNodeId : ι → Nat) (priority : τ → Priority) (prog : Program ι σ τ ε)
    {s : State ι σ τ} {t : ι} {channel : Tasking.State (ι × τ)}
    (h : Turns (s.channels t) channel) :
    ∃ es, Run (Step numaNodeId priority prog) s es (s.move t channel) ∧
      es.filterMap Event.step? = [] := by
  induction h with
  | refl => exact ⟨[], Run.nil.cast (by simp [State.move]), rfl⟩
  | @tail channel channel' _ hTurn ih =>
      obtain ⟨es, hRun, hNone⟩ := ih
      have hStep : Step numaNodeId priority prog (s.move t channel) (.worker t)
          ((s.move t channel).move t channel') := by
        refine .worker ?_ ?_ ?_ <;> simp only [State.move, Function.update_self]
        · exact hTurn.1
        · exact hTurn.2.1
        · exact hTurn.2.2
      refine ⟨_, (hRun.snoc hStep).cast (by simp [State.move]), ?_⟩
      rw [List.filterMap_append, hNone]
      rfl

/-- A program whose parties collect what they receive. -/
def collecting : Program Bool (List (Bool × Nat)) Nat Nat where
  idle _ _ := True
  receive collected _ target message e collected' :=
    collected' = collected ++ [(target, message)] ∧ e = message
  work _ _ _ _ _ := False

/-- The channel with a task from another one and a task of its own. -/
def received : Tasking.State (Bool × Nat) :=
  ((Tasking.State.initial 0 0).push (.remoteQueue .normal 0) (false, 5)).push (.localQueue .normal)
    (true, 6)

/-- Two tasks for a channel, one of its own and one of another channel, are moved to its buffer;
the worker takes the first one out and executes it, the other one is still to be received. -/
theorem mailboxes_of_run_executed :
    ∃ (es : List (Event Bool Nat)) (s : State Bool (List (Bool × Nat)) Nat),
      Run (Mailboxes.Step (fun _ => .normal) collecting)
          (Mailboxes.start (fun _ => Priority.normal) [] [(false, true, 5), (true, true, 6)])
          (es.filterMap Event.step?) (s.mailboxes (fun _ => 0) fun _ => .normal) ∧
        es.filterMap Event.step? = [6] ∧ s.program = [(true, 6)] ∧
        (s.channels true).buffer.contents = [⟨.remoteQueue .normal 0, (false, 5)⟩] := by
  have hEmpty : ∀ queue, Function.update (Function.update received.queues (.localQueue .normal) [])
      (.remoteQueue .normal 0) [] queue = [] := by
    intro queue
    simp only [received, Tasking.State.push, Tasking.State.initial, Function.update_apply]
    split_ifs <;> rfl
  have hOuter := Turns.head (s := received) (show Control.outer ≠ _ by simp) (.outer rfl) rfl (.refl _)
  have hTaken := (hOuter.trans (.take rfl (by decide) (by decide) rfl)).trans
    (.take rfl (by decide) (by decide) rfl)
  have hInner := (hTaken.trans (.skip (by decide) 7 _ 2 rfl rfl hEmpty)).trans
    (.head (show Control.fill _ _ _ _ ≠ _ by simp) (.filled rfl rfl fun _ => rfl) rfl
      (.head (show Control.filled _ _ ≠ _ by simp) (.enterInner rfl) rfl (.refl _)))
  obtain ⟨es, hMoved, hNone⟩ := exists_moved (fun _ => 0) (fun _ => .normal) collecting
    (s := .start (fun _ => 0) (fun _ => .normal) 0 [] [(false, true, 5), (true, true, 6)])
    (t := true) hInner
  have hTaken := hMoved.snoc (.next (t := true) rfl rfl)
  have hBegun := (hTaken.snoc (.worker (t := true) (show Control.taken ≠ _ by simp)
    (.execute rfl (by decide)) rfl)).snoc (.begin (t := true) rfl rfl ⟨rfl, rfl⟩)
  have hEnd := hBegun.snoc (.executed (t := true) rfl rfl trivial)
  refine ⟨_, _, mailboxes_of_run _ _ _ 0 [] [(false, true, 5), (true, true, 6)] _ _ hEnd, ?_, rfl,
    rfl⟩
  simp only [List.filterMap_append, hNone]
  rfl

end Simulation

end MxTasking.Tasking.Delivery
