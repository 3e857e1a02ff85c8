import MxTasking.Verified.TransitionSystem
import MxTasking.Tasking.Latch

/-!
# Task execution honours the isolation level

Workers, channels and the latches of all resources as one transition system.  The begin
and the end of `execute()` are steps of their own, any number of workers is between them, and tasks
are pushed at any time by anybody through `Scheduler::schedule`.  A task flips between reader
and writer and re-annotates itself inside `execute()`; what an execution works under are the
annotations the worker saw when it took the task.

Which executions overlap is recorded when one of the two begins: the execution that begins looks
for a writer that is inside, and a writer that begins tells everybody who is inside.

## Main results

* `Inv.outdated` — a task that is executed beside a writer of its resource reads
  optimistically, and its version is already out of date.
* `isolated_of_run` — exclusive resources have one worker inside, the others one writer, and no
  accepted read overlapped a writer.
-/

namespace MxTasking.Tasking.Isolation

open MxTasking.Verified (Run)

variable {R T : Type*}

/-! ## Executions -/

/-- How far the worker is with a task. -/
inductive Phase where
  /-- Taken from the channel, or to be executed again. -/
  | start
  /-- Synchronised, with the version an optimistic read starts from. -/
  | ready (version : Nat)
  /-- In `execute()`. -/
  | inside (version : Nat) (overlapped : Bool)
  /-- `execute()` has returned. -/
  | returned (version : Nat) (overlapped : Bool)
  deriving DecidableEq, Repr

/-- The version read before `execute()`. -/
def Phase.version : Phase → Nat
  | .start => 0
  | .ready version => version
  | .inside version _ => version
  | .returned version _ => version

/-- Whether a writer on the same resource was inside at the same time. -/
def Phase.overlapped : Phase → Bool
  | .start => false
  | .ready _ => false
  | .inside _ overlapped => overlapped
  | .returned _ overlapped => overlapped

/-- Inside `execute()`. -/
def Phase.IsInside : Phase → Prop
  | .inside _ _ => True
  | _ => False

theorem Phase.ne_start {phase : Phase} (h : phase.IsInside) : phase ≠ .start := by
  rintro rfl
  exact h

/-- A task at a worker, with the annotations it was taken with; `TaskStack::save` keeps the
same ones. -/
structure Execution (R T : Type*) where
  task : T
  annotations : Annotations R
  phase : Phase

/-- The task is annotated with resource `r`. -/
def Execution.On (e : Execution R T) (r : R) : Prop := e.annotations.target = .resource r

/-- A writer begins on `r`. -/
def Execution.markOverlapped [DecidableEq R] (r : R) (e : Execution R T) : Execution R T :=
  if e.annotations.target = .resource r then
    match e.phase with
    | .inside version _ => { e with phase := .inside version true }
    | _ => e
  else e

/-- What the begin of `e` means for an execution that is on its way. -/
def Execution.notice [DecidableEq R] (e : Execution R T) (other : Execution R T) :
    Execution R T :=
  match e.annotations.isReadonly, e.annotations.target with
  | false, .resource r => other.markOverlapped r
  | _, _ => other

/-! ## The system -/

/-- Worker `w` serves channel `w`. -/
structure State (R T : Type*) where
  annotations : T → Annotations R
  channels : Nat → List T
  workers : Nat → Option (Execution R T)
  latches : R → Latches
  /-- The executions whose result a worker accepted. -/
  accepted : List (Execution R T)

/-- Before any task is pushed. -/
def State.initial (annotations : T → Annotations R) : State R T where
  annotations := annotations
  channels _ := []
  workers _ := none
  latches _ := {}
  accepted := []

/-- Worker `w` is inside `execute()` of a task annotated with `r`. -/
def State.Inside (s : State R T) (w : Nat) (r : R) : Prop :=
  ∃ e, s.workers w = some e ∧ e.On r ∧ e.phase.IsInside

/-- The same for a task that is not read-only. -/
def State.WriterInside (s : State R T) (w : Nat) (r : R) : Prop :=
  ∃ e, s.workers w = some e ∧ e.On r ∧ e.phase.IsInside ∧ e.annotations.isReadonly = false

/-- `push_back_local` and `push_back_remote`. -/
def State.push (s : State R T) (channelId : Nat) (task : T) : State R T :=
  { s with channels := Function.update s.channels channelId (s.channels channelId ++ [task]) }

variable [DecidableEq R]

/-- What worker `w` does before `execute()`. -/
def State.acquire (s : State R T) (info : R → Information) (w : Nat) (e : Execution R T) :
    Option ((R → Latches) × Nat) :=
  match e.annotations.target with
  | .resource r =>
      ((s.latches r).acquire w (dispatch info w e.annotations)).map fun (latches, version) =>
        (Function.update s.latches r latches, version)
  | _ => some (s.latches, 0)

/-- What it does afterwards. -/
def State.release (s : State R T) (info : R → Information) (w : Nat) (e : Execution R T) :
    R → Latches :=
  match e.annotations.target with
  | .resource r =>
      Function.update s.latches r ((s.latches r).release w (dispatch info w e.annotations))
  | _ => s.latches

/-- The result is accepted: always, but for `is_version_valid` after an optimistic read. -/
def State.accepts (s : State R T) (info : R → Information) (w : Nat) (e : Execution R T) : Bool :=
  match e.annotations.target with
  | .resource r =>
      dispatch info w e.annotations ≠ .optimisticRead || e.phase.version = (s.latches r).version
  | _ => true

inductive Event (R T : Type*) where
  | scheduleFrom (task : T) (currentChannelId : Nat)
  | schedule (task : T)
  | take (w : Nat) (task : T)
  | acquire (w : Nat)
  | enter (w : Nat)
  | annotate (w : Nat) (annotations : Annotations R)
  | leave (w : Nat)
  | accept (w : Nat)
  | retry (w : Nat)
  deriving DecidableEq, Repr

variable [DecidableEq T]

/-- One step of the scheduler or of a worker. -/
inductive Step (info : R → Information) : State R T → Event R T → State R T → Prop where
  | scheduleFrom {s : State R T} {task : T} {currentChannelId channelId : Nat} :
      scheduleFrom info (s.annotations task) currentChannelId = some channelId →
      Step info s (.scheduleFrom task currentChannelId) (s.push channelId task)
  | schedule {s : State R T} {task : T} {channelId : Nat} :
      schedule info (s.annotations task) = some channelId →
      Step info s (.schedule task) (s.push channelId task)
  | take {s : State R T} {w : Nat} {task : T} :
      s.workers w = none → task ∈ s.channels w →
      Step info s (.take w task)
        { s with
          channels := Function.update s.channels w ((s.channels w).erase task)
          workers := Function.update s.workers w (some ⟨task, s.annotations task, .start⟩) }
  | acquire {s : State R T} {w : Nat} {e : Execution R T} {latches : R → Latches}
      {version : Nat} :
      s.workers w = some e → e.phase = .start →
      s.acquire info w e = some (latches, version) →
      Step info s (.acquire w)
        { s with
          latches := latches
          workers := Function.update s.workers w (some { e with phase := .ready version }) }
  | enter {s : State R T} {w : Nat} {e : Execution R T} {version : Nat} {overlapped : Bool} :
      s.workers w = some e → e.phase = .ready version →
      (overlapped = true ↔ ∃ r w', e.On r ∧ w' ≠ w ∧ s.WriterInside w' r) →
      Step info s (.enter w)
        { s with
          workers := Function.update (fun w' => (s.workers w').map e.notice) w
            (some { e with phase := .inside version overlapped }) }
  -- The queues are intrusive: a task that is in a channel keeps its annotations.
  | annotate {s : State R T} {w : Nat} {e : Execution R T} {annotations : Annotations R} :
      s.workers w = some e → e.phase.IsInside → (∀ channelId, e.task ∉ s.channels channelId) →
      Step info s (.annotate w annotations)
        { s with annotations := Function.update s.annotations e.task annotations }
  | leave {s : State R T} {w : Nat} {e : Execution R T} {version : Nat} {overlapped : Bool} :
      s.workers w = some e → e.phase = .inside version overlapped →
      Step info s (.leave w)
        { s with
          workers := Function.update s.workers w
            (some { e with phase := .returned version overlapped }) }
  | accept {s : State R T} {w : Nat} {e : Execution R T} {version : Nat} {overlapped : Bool} :
      s.workers w = some e → e.phase = .returned version overlapped →
      s.accepts info w e = true →
      Step info s (.accept w)
        { s with
          latches := s.release info w e
          workers := Function.update s.workers w none
          accepted := e :: s.accepted }
  | retry {s : State R T} {w : Nat} {e : Execution R T} {version : Nat} {overlapped : Bool} :
      s.workers w = some e → e.phase = .returned version overlapped →
      s.accepts info w e = false →
      Step info s (.retry w)
        { s with
          annotations := Function.update s.annotations e.task e.annotations
          workers := Function.update s.workers w (some { e with phase := .start }) }

/-- `Builder::build`: what the pointers to the resources carry.  The channel comes from the hint
or is chosen round robin, and 12 bits are kept of it. -/
def build (hints : R → Hint) (channelIds : R → Nat) (r : R) : Information where
  channelId := channelIds r % 2 ^ 12
  synchronizationPrimitive := isolationLevelToSynchronizationPrimitive (hints r)

/-- What the developer asked for with the hint for `r`. -/
structure State.Isolated (s : State R T) (hint : Hint) (r : R) : Prop where
  exclusive : hint.isolationLevel = .exclusive →
    ∀ w w', s.Inside w r → s.Inside w' r → w = w'
  writer : hint.isolationLevel = .exclusiveWriter →
    ∀ w w', s.WriterInside w r → s.WriterInside w' r → w = w'
  reader : hint.isolationLevel = .exclusiveWriter →
    ∀ e ∈ s.accepted, e.On r → e.annotations.isReadonly = true → e.phase.overlapped = false

/-! ## What a worker holds -/

omit [DecidableEq R] [DecidableEq T]

/-- The latches worker `w` holds for `e`. -/
def Execution.hold (info : R → Information) (w : Nat) (e : Execution R T) : Option (Hold R) :=
  match e.annotations.target with
  | .resource r =>
      if e.phase = .start then none
      else some ⟨r, dispatch info w e.annotations, e.phase.version⟩
  | _ => none

/-- The same for all workers. -/
def State.hold (s : State R T) (info : R → Information) (w : Nat) : Option (Hold R) :=
  (s.workers w).bind (Execution.hold info w)

section Hold

variable {info : R → Information} {s : State R T} {w : Nat} {e : Execution R T} {r : R}

theorem Execution.hold_of_on (hOn : e.On r) (hPhase : e.phase ≠ .start) :
    e.hold info w = some ⟨r, dispatch info w e.annotations, e.phase.version⟩ := by
  simp only [Execution.On] at hOn
  simp [Execution.hold, hOn, hPhase]

theorem Execution.hold_of_not_on (hOn : ∀ r, ¬ e.On r) : e.hold info w = none := by
  unfold Execution.hold
  split
  · rename_i r hTarget
    exact absurd hTarget (hOn r)
  · rfl

theorem State.release_of_on [DecidableEq R] (hOn : e.On r) :
    s.release info w e =
      Function.update s.latches r ((s.latches r).release w (dispatch info w e.annotations)) := by
  rw [Execution.On] at hOn
  simp [State.release, hOn]

theorem State.release_of_not_on [DecidableEq R] (hOn : ∀ r, ¬ e.On r) :
    s.release info w e = s.latches := by
  unfold State.release
  split
  · rename_i r hTarget
    exact absurd hTarget (hOn r)
  · rfl

theorem State.hold_of_on (hWorker : s.workers w = some e) (hOn : e.On r)
    (hPhase : e.phase ≠ .start) :
    s.hold info w = some ⟨r, dispatch info w e.annotations, e.phase.version⟩ := by
  rw [State.hold, hWorker]
  exact Execution.hold_of_on hOn hPhase

/-- Every hold is that of an execution. -/
theorem State.exists_of_hold {h : Hold R} (hHold : s.hold info w = some h) :
    ∃ e, s.workers w = some e ∧ e.On h.resource ∧ h.mode = dispatch info w e.annotations := by
  obtain ⟨e, hWorker, hExecution⟩ := Option.bind_eq_some_iff.mp hHold
  refine ⟨e, hWorker, ?_⟩
  unfold Execution.hold at hExecution
  split at hExecution
  · rename_i r hTarget
    rw [Option.ite_none_left_eq_some, Option.some.injEq] at hExecution
    obtain ⟨-, rfl⟩ := hExecution
    exact ⟨hTarget, rfl⟩
  · exact nomatch hExecution

theorem Execution.hold_start (hPhase : e.phase = .start) : e.hold info w = none := by
  rw [Execution.hold]
  split
  · rw [if_pos hPhase]
  · rfl

end Hold

section Notice

variable [DecidableEq R] (e other : Execution R T)

@[simp] theorem Execution.notice_annotations :
    (e.notice other).annotations = other.annotations := by
  simp only [Execution.notice, Execution.markOverlapped]
  grind

@[simp] theorem Execution.notice_version :
    (e.notice other).phase.version = other.phase.version := by
  simp only [Execution.notice, Execution.markOverlapped]
  grind [Phase.version]

@[simp] theorem Execution.notice_start :
    (e.notice other).phase = .start ↔ other.phase = .start := by
  simp only [Execution.notice, Execution.markOverlapped]
  grind

@[simp] theorem Execution.notice_hold (info : R → Information) (w : Nat) :
    (e.notice other).hold info w = other.hold info w := by
  simp [Execution.hold]

/-- Who is told about a writer: the executions inside on its resource. -/
theorem Execution.notice_overlapped (h : (e.notice other).phase.overlapped = true) :
    other.phase.overlapped = true ∨
      ∃ r, e.On r ∧ e.annotations.isReadonly = false ∧ other.On r ∧ other.phase.IsInside := by
  unfold Execution.notice at h
  split at h
  · rename_i r hWriter hTarget
    unfold Execution.markOverlapped at h
    split at h
    · rename_i hOther
      split at h
      · rename_i version overlapped hPhase
        exact .inr ⟨r, hTarget, hWriter, hOther, by rw [hPhase]; trivial⟩
      · exact .inl h
    · exact .inl h
  · exact .inl h

end Notice

/-! ## The invariant -/

/-- A bound task is at the worker of its resource, and an execution that overlapped a writer will
not be accepted. -/
structure Execution.Sound (info : R → Information) (latches : R → Latches) (w : Nat)
    (e : Execution R T) : Prop where
  placed : ∀ r, Bound info e.annotations r → (info r).channelId = w
  overlapped : ∀ r, e.On r → (info r).synchronizationPrimitive ≠ .none →
    e.phase.overlapped = true →
    dispatch info w e.annotations = .optimisticRead ∧ e.phase.version < (latches r).version

/-- Versions only grow. -/
theorem Execution.Sound.mono {info : R → Information} {latches latches' : R → Latches} {w : Nat}
    {e : Execution R T} (h : e.Sound info latches w)
    (hVersion : ∀ r, (latches r).version ≤ (latches' r).version) : e.Sound info latches' w where
  placed := h.placed
  overlapped r hOn hSync hOverlapped :=
    have hOutdated := h.overlapped r hOn hSync hOverlapped
    ⟨hOutdated.1, lt_of_lt_of_le hOutdated.2 (hVersion r)⟩

/-- Bound tasks are where they belong, and the latches are held by those who acquired them. -/
structure Inv (info : R → Information) (s : State R T) : Prop where
  channels : ∀ channelId task, task ∈ s.channels channelId →
    ∀ r, Bound info (s.annotations task) r → (info r).channelId = channelId
  workers : ∀ w e, s.workers w = some e → e.Sound info s.latches w
  held : Held (s.hold info) s.latches
  accepted : ∀ e ∈ s.accepted, ∀ r, e.On r → (info r).synchronizationPrimitive ≠ .none →
    e.phase.overlapped = false

theorem inv_initial (info : R → Information) (annotations : T → Annotations R) :
    Inv info (State.initial annotations) where
  channels _ _ h := nomatch h
  workers _ _ h := nomatch h
  held := Held.initial
  accepted _ h := nomatch h

namespace Inv

variable {info : R → Information} {s : State R T} {w w' : Nat} {e e' : Execution R T} {r : R}

/-- Two tasks bound to the same resource are never at two workers. -/
theorem eq_of_bound (h : Inv info s) (hWorker : s.workers w = some e)
    (hWorker' : s.workers w' = some e') (hBound : Bound info e.annotations r)
    (hBound' : Bound info e'.annotations r) : w = w' :=
  ((h.workers w e hWorker).placed r hBound).symm.trans ((h.workers w' e' hWorker').placed r hBound')

/-- Beside a writer, a task is read optimistically and the writer has locked the version. -/
theorem optimistic (h : Inv info s) (hSync : (info r).synchronizationPrimitive ≠ .none)
    (hNe : w' ≠ w) (hWorker : s.workers w = some e) (hOn : e.On r) (hPhase : e.phase ≠ .start)
    (hWorker' : s.workers w' = some e') (hOn' : e'.On r) (hPhase' : e'.phase ≠ .start)
    (hWriter : e'.annotations.isReadonly = false) :
    dispatch info w e.annotations = .optimisticRead ∧
      (dispatch info w' e'.annotations).LocksVersion := by
  have hHold : s.hold info w = some _ := State.hold_of_on hWorker hOn hPhase
  have hHold' : s.hold info w' = some _ := State.hold_of_on hWorker' hOn' hPhase'
  have hShows := h.held.shows w _ hHold
  have hShows' := h.held.shows w' _ hHold'
  cases hPrimitive : (info r).synchronizationPrimitive with
  | none => exact absurd hPrimitive hSync
  | scheduleAll =>
      exact absurd (h.eq_of_bound hWorker' hWorker ⟨hOn', .inl hPrimitive⟩
        ⟨hOn, .inl hPrimitive⟩) hNe
  | scheduleWriter =>
      have hBound' : Bound info e'.annotations r := ⟨hOn', .inr ⟨hPrimitive, hWriter⟩⟩
      refine ⟨?_, .inl (by rw [dispatch_of_scheduleWriter hOn' hPrimitive, hWriter]; rfl)⟩
      cases hReader : e.annotations.isReadonly with
      | true =>
          have hChannel := (h.workers w' e' hWorker').placed r hBound'
          rw [dispatch_of_scheduleWriter hOn hPrimitive, hReader, hChannel]
          simp [hNe]
      | false =>
          exact absurd (h.eq_of_bound hWorker' hWorker hBound'
            ⟨hOn, .inr ⟨hPrimitive, hReader⟩⟩) hNe
  | olfit =>
      have hLocks : (dispatch info w' e'.annotations).LocksVersion := by
        rw [dispatch_of_olfit hOn' hPrimitive, hWriter]
        exact .inr rfl
      refine ⟨?_, hLocks⟩
      cases hReader : e.annotations.isReadonly with
      | true => rw [dispatch_of_olfit hOn hPrimitive, hReader, if_pos rfl]
      | false =>
          refine absurd (h.held.unique w' w _ _ hHold' hHold rfl hLocks ?_) hNe
          rw [dispatch_of_olfit hOn hPrimitive, hReader]
          exact .inr rfl
  | readerWriterLatch =>
      rw [dispatch_of_readerWriterLatch hOn' hPrimitive, hWriter] at hShows'
      rw [dispatch_of_readerWriterLatch hOn hPrimitive] at hShows
      have hWriterHolds : (s.latches r).writer = some w' := hShows'
      cases hReader : e.annotations.isReadonly with
      | true =>
          rw [hReader] at hShows
          have hMem : w ∈ (s.latches r).readers := hShows
          rw [h.held.apart r (by rw [hWriterHolds]; exact Option.some_ne_none w')] at hMem
          exact nomatch hMem
      | false =>
          rw [hReader] at hShows
          exact absurd (Option.some.inj (hWriterHolds.symm.trans hShows)) hNe
  | exclusiveLatch =>
      rw [dispatch_of_exclusiveLatch hOn' hPrimitive] at hShows'
      rw [dispatch_of_exclusiveLatch hOn hPrimitive] at hShows
      exact absurd (Option.some.inj (hShows'.symm.trans hShows)) hNe

/-- A task that is executed beside a writer reads a version that is out of date. -/
theorem outdated (h : Inv info s) (hSync : (info r).synchronizationPrimitive ≠ .none)
    (hNe : w' ≠ w) (hWorker : s.workers w = some e) (hOn : e.On r) (hPhase : e.phase ≠ .start)
    (hWorker' : s.workers w' = some e') (hOn' : e'.On r) (hPhase' : e'.phase ≠ .start)
    (hWriter : e'.annotations.isReadonly = false) :
    dispatch info w e.annotations = .optimisticRead ∧ e.phase.version < (s.latches r).version := by
  obtain ⟨hMode, hLocks⟩ :=
    h.optimistic hSync hNe hWorker hOn hPhase hWorker' hOn' hPhase' hWriter
  refine ⟨hMode, ?_⟩
  have hShows := h.held.shows w _ (State.hold_of_on hWorker hOn hPhase)
  rw [hMode] at hShows
  obtain ⟨hEven, hLe⟩ : isLocked e.phase.version = false ∧
    e.phase.version ≤ (s.latches r).version := hShows
  have hLocked := (h.held.shows w' _ (State.hold_of_on hWorker' hOn' hPhase')).locked hLocks
  refine lt_of_le_of_ne hLe fun hEq => ?_
  rw [hEq, hLocked] at hEven
  exact nomatch hEven

end Inv

/-! ## Every step -/

section Steps

variable {info : R → Information} {s s' : State R T} {w : Nat} {e : Execution R T}

/-- Only the worker that takes a step holds something else afterwards. -/
theorem State.hold_update {x : Option (Execution R T)}
    (hWorkers : s'.workers = Function.update s.workers w x) :
    s'.hold info = Function.update (s.hold info) w (x.bind (Execution.hold info w)) := by
  funext w'
  by_cases hw : w' = w
  · subst hw
    rw [State.hold, hWorkers, Function.update_self, Function.update_self]
  · rw [State.hold, hWorkers, Function.update_of_ne hw, Function.update_of_ne hw, State.hold]

/-- A fact about the executions at all workers, after one worker has moved on. -/
theorem forall_update {workers : Nat → Option (Execution R T)} {x : Option (Execution R T)}
    {P : Nat → Execution R T → Prop} (hOthers : ∀ w' e', w' ≠ w → workers w' = some e' → P w' e')
    (hOwn : ∀ e', x = some e' → P w e') :
    ∀ w' e', Function.update workers w x w' = some e' → P w' e' := by
  intro w' e' hWorker
  by_cases hw : w' = w
  · subst hw
    rw [Function.update_self] at hWorker
    exact hOwn e' hWorker
  · rw [Function.update_of_ne hw] at hWorker
    exact hOthers w' e' hw hWorker

namespace Inv

/-- Pushing a task on its channel. -/
theorem push (h : Inv info s) {task : T} {channelId : Nat}
    (hBound : ∀ r, Bound info (s.annotations task) r → channelId = (info r).channelId) :
    Inv info (s.push channelId task) := by
  refine ⟨?_, h.workers, h.held, h.accepted⟩
  intro c t hMem r hTask
  by_cases hc : c = channelId
  · subst hc
    simp only [State.push, Function.update_self, List.mem_append, List.mem_singleton] at hMem
    rcases hMem with hMem | rfl
    · exact h.channels c t hMem r hTask
    · exact (hBound r hTask).symm
  · simp only [State.push, Function.update_of_ne hc] at hMem
    exact h.channels c t hMem r hTask

/-- `execute()` returns. -/
theorem leave (h : Inv info s) {version : Nat} {overlapped : Bool}
    (hWorker : s.workers w = some e) (hPhase : e.phase = .inside version overlapped) :
    Inv info { s with
      workers := Function.update s.workers w
        (some { e with phase := .returned version overlapped }) } := by
  have hSound := h.workers w e hWorker
  refine ⟨h.channels, ?_, ?_, h.accepted⟩
  · refine forall_update (fun w' e' _ => h.workers w' e') ?_
    rintro e' ⟨rfl⟩
    refine ⟨hSound.placed, fun r hOn hSync hOverlapped => ?_⟩
    have hOutdated := hSound.overlapped r hOn hSync
    rw [hPhase] at hOutdated
    exact hOutdated hOverlapped
  · have hOwn : Execution.hold info w { e with phase := .returned version overlapped } =
        s.hold info w := by
      rw [State.hold, hWorker, Option.bind_some, Execution.hold, Execution.hold, hPhase]
      rfl
    rw [State.hold_update rfl, Option.bind_some, hOwn, Function.update_eq_self]
    exact h.held

/-- `fetch_add` finds the version unlocked: writers are serialised on the channel. -/
theorem unlocked (h : Inv info s) {r : R} (hWorker : s.workers w = some e) (hOn : e.On r)
    (hPhase : e.phase = .start) (hMode : dispatch info w e.annotations = .optimisticWrite) :
    isLocked (s.latches r).version = false := by
  have hPrimitive := scheduleWriter_of_optimisticWrite hOn hMode
  have hBound := bound_of_locksVersion hOn hPrimitive (.inl hMode)
  refine h.held.not_locked ?_
  rintro w' hold hHold rfl hLocks
  obtain ⟨e', hWorker', hOn', hMode'⟩ := State.exists_of_hold hHold
  rw [hMode'] at hLocks
  obtain rfl := h.eq_of_bound hWorker hWorker' hBound (bound_of_locksVersion hOn' hPrimitive hLocks)
  rw [State.hold, hWorker, Option.bind_some, Execution.hold_start hPhase] at hHold
  exact nomatch hHold

section Latches

variable [DecidableEq R]

/-- A worker acquires the latches for its task. -/
theorem acquire (h : Inv info s) {latches : R → Latches} {version : Nat}
    (hWorker : s.workers w = some e) (hPhase : e.phase = .start)
    (hAcquire : s.acquire info w e = some (latches, version)) :
    Inv info { s with
      latches := latches
      workers := Function.update s.workers w (some { e with phase := .ready version }) } := by
  have hSound := h.workers w e hWorker
  have hNone : s.hold info w = none := by
    rw [State.hold, hWorker, Option.bind_some, Execution.hold_start hPhase]
  obtain ⟨hVersion, hHeld⟩ : (∀ r, (s.latches r).version ≤ (latches r).version) ∧
      Held (Function.update (s.hold info) w
        (Execution.hold info w { e with phase := .ready version })) latches := by
    unfold State.acquire at hAcquire
    split at hAcquire
    · rename_i r hTarget
      obtain ⟨⟨latches', version'⟩, hLatches, hEq⟩ := Option.map_eq_some_iff.mp hAcquire
      obtain ⟨rfl, rfl⟩ := Prod.mk.inj hEq
      constructor
      · intro r'
        rw [Function.update_apply]
        split
        · subst r'
          rw [Latches.acquire_version hLatches]
          exact Nat.le_add_right _ _
        · exact le_rfl
      · have hOn : Execution.On { e with phase := .ready version' } r := hTarget
        rw [Execution.hold_of_on hOn nofun]
        exact h.held.acquire hNone hLatches fun hMode => h.unlocked hWorker hTarget hPhase hMode
    · rename_i hTarget
      obtain ⟨rfl, rfl⟩ := Prod.mk.inj (Option.some.inj hAcquire)
      refine ⟨fun r => le_rfl, ?_⟩
      have hOn : ∀ r, ¬ Execution.On { e with phase := .ready 0 } r := hTarget
      rw [Execution.hold_of_not_on hOn, ← hNone, Function.update_eq_self]
      exact h.held
  refine ⟨h.channels, ?_, ?_, h.accepted⟩
  · refine forall_update (fun w' e' _ hWorker' => (h.workers w' e' hWorker').mono hVersion) ?_
    rintro e' ⟨rfl⟩
    exact ⟨hSound.placed, fun r _ _ hOverlapped => nomatch hOverlapped⟩
  · rw [State.hold_update rfl]
    exact hHeld

/-- Those who are told that a writer begins are out of date. -/
theorem notice (h : Inv info s) {w' : Nat} {other : Execution R T} (hNe : w ≠ w')
    (hWorker : s.workers w = some e) (hPhase : e.phase ≠ .start)
    (hOther : s.workers w' = some other) : (e.notice other).Sound info s.latches w' := by
  have hSound := h.workers w' other hOther
  refine ⟨by rw [Execution.notice_annotations]; exact hSound.placed, ?_⟩
  intro r hOn hSync hOverlapped
  rw [Execution.On, Execution.notice_annotations] at hOn
  rw [Execution.notice_annotations, Execution.notice_version]
  rcases Execution.notice_overlapped e other hOverlapped with hOld | hNew
  · exact hSound.overlapped r hOn hSync hOld
  · obtain ⟨r', hOn', hWriter, hOtherOn, hInside⟩ := hNew
    obtain rfl : r' = r := Target.resource.inj (hOtherOn.symm.trans hOn)
    exact h.outdated hSync hNe hOther hOn (Phase.ne_start hInside) hWorker hOn' hPhase hWriter

/-- `execute()` begins. -/
theorem enter (h : Inv info s) {version : Nat} {overlapped : Bool}
    (hWorker : s.workers w = some e) (hPhase : e.phase = .ready version)
    (hOverlap : overlapped = true ↔ ∃ r w', e.On r ∧ w' ≠ w ∧ s.WriterInside w' r) :
    Inv info { s with
      workers := Function.update (fun w' => (s.workers w').map e.notice) w
        (some { e with phase := .inside version overlapped }) } := by
  have hReady : e.phase ≠ .start := by rw [hPhase]; nofun
  refine ⟨h.channels, forall_update ?_ ?_, ?_, h.accepted⟩
  · intro w' e' hw hMap
    obtain ⟨other, hOther, rfl⟩ := Option.map_eq_some_iff.mp hMap
    exact h.notice (Ne.symm hw) hWorker hReady hOther
  · rintro e' ⟨rfl⟩
    refine ⟨(h.workers w e hWorker).placed, ?_⟩
    intro r hOn hSync hOverlapped
    obtain ⟨r', w', hOn', hw, hInside⟩ := hOverlap.mp hOverlapped
    obtain rfl : r' = r := Target.resource.inj (hOn'.symm.trans hOn)
    obtain ⟨other, hOther, hOtherOn, hOtherPhase, hWriter⟩ := hInside
    have hOutdated := h.outdated hSync hw hWorker hOn' hReady hOther hOtherOn
      (Phase.ne_start hOtherPhase) hWriter
    rw [hPhase] at hOutdated
    exact hOutdated
  · -- What is held depends neither on the flag nor on `execute()` having begun.
    have hHold : State.hold { s with
        workers := Function.update (fun w' => (s.workers w').map e.notice) w
          (some { e with phase := .inside version overlapped }) } info = s.hold info := by
      funext w'
      by_cases hw : w' = w
      · subst hw
        simp only [State.hold, hWorker, Function.update_self, Option.bind_some, Execution.hold,
          hPhase]
        rfl
      · cases hOther : s.workers w' with
        | none => simp [State.hold, Function.update_of_ne hw, hOther]
        | some other => simp [State.hold, Function.update_of_ne hw, hOther]
    rw [hHold]
    exact h.held

/-- The worker accepts the result: nothing that overlapped a writer passes the validation. -/
theorem accept (h : Inv info s) {version : Nat} {overlapped : Bool}
    (hWorker : s.workers w = some e) (hPhase : e.phase = .returned version overlapped)
    (hAccepts : s.accepts info w e = true) :
    Inv info { s with
      latches := s.release info w e
      workers := Function.update s.workers w none
      accepted := e :: s.accepted } := by
  have hReturned : e.phase ≠ .start := by rw [hPhase]; nofun
  obtain ⟨hVersion, hHeld⟩ : (∀ r, (s.latches r).version ≤ (s.release info w e r).version) ∧
      Held (Function.update (s.hold info) w none) (s.release info w e) := by
    by_cases hTarget : ∃ r, e.On r
    · obtain ⟨r, hOn⟩ := hTarget
      rw [State.release_of_on hOn]
      constructor
      · intro r'
        rw [Function.update_apply]
        split
        · subst r'
          rw [Latches.release_version]
          exact Nat.le_add_right _ _
        · exact le_rfl
      · exact h.held.release (State.hold_of_on hWorker hOn hReturned)
    · have hOn := not_exists.mp hTarget
      have hNone : s.hold info w = none := by
        rw [State.hold, hWorker, Option.bind_some, Execution.hold_of_not_on hOn]
      rw [State.release_of_not_on hOn, ← hNone, Function.update_eq_self]
      exact ⟨fun r => le_rfl, h.held⟩
  refine ⟨h.channels, ?_, ?_, ?_⟩
  · exact forall_update (fun w' e' _ hWorker' => (h.workers w' e' hWorker').mono hVersion) nofun
  · rw [State.hold_update rfl]
    exact hHeld
  · intro e' hMem r hOn hSync
    rcases List.mem_cons.mp hMem with rfl | hMem
    · rw [← Bool.not_eq_true]
      intro hOverlapped
      obtain ⟨hMode, hLt⟩ := (h.workers w e' hWorker).overlapped r hOn hSync hOverlapped
      rw [Execution.On] at hOn
      simp only [State.accepts, hOn, hMode, ne_eq, not_true_eq_false, decide_false,
        Bool.false_or, decide_eq_true_eq] at hAccepts
      exact absurd hAccepts (ne_of_lt hLt)
    · exact h.accepted e' hMem r hOn hSync

end Latches

section Tasks

variable [DecidableEq T]

/-- A worker takes a task from its channel. -/
theorem take (h : Inv info s) {task : T} (hIdle : s.workers w = none)
    (hTask : task ∈ s.channels w) :
    Inv info { s with
      channels := Function.update s.channels w ((s.channels w).erase task)
      workers := Function.update s.workers w (some ⟨task, s.annotations task, .start⟩) } := by
  refine ⟨?_, ?_, ?_, h.accepted⟩
  · intro c t hMem
    simp only [Function.update_apply] at hMem
    split at hMem
    · subst c
      exact h.channels w t (List.mem_of_mem_erase hMem)
    · exact h.channels c t hMem
  · refine forall_update (fun w' e' _ => h.workers w' e') ?_
    rintro e' ⟨rfl⟩
    exact ⟨h.channels w task hTask, fun r _ _ hOverlapped => nomatch hOverlapped⟩
  · have hNone : s.hold info w = none := by rw [State.hold, hIdle, Option.bind_none]
    rw [State.hold_update rfl, Option.bind_some, Execution.hold_start rfl, ← hNone,
      Function.update_eq_self]
    exact h.held

/-- A task that is in no channel gets other annotations. -/
theorem annotate (h : Inv info s) {task : T} {annotations : Annotations R}
    (hTask : ∀ channelId, task ∈ s.channels channelId →
      ∀ r, Bound info annotations r → (info r).channelId = channelId) :
    Inv info { s with annotations := Function.update s.annotations task annotations } := by
  refine ⟨?_, h.workers, h.held, h.accepted⟩
  intro c t hMem r hBound
  by_cases ht : t = task
  · subst ht
    simp only [Function.update_self] at hBound
    exact hTask c hMem r hBound
  · simp only [Function.update_of_ne ht] at hBound
    exact h.channels c t hMem r hBound

/-- The validation failed: the task is restored and executed again. -/
theorem retry [DecidableEq R] (h : Inv info s) {version : Nat} {overlapped : Bool}
    (hWorker : s.workers w = some e) (hPhase : e.phase = .returned version overlapped)
    (hAccepts : s.accepts info w e = false) :
    Inv info { s with
      annotations := Function.update s.annotations e.task e.annotations
      workers := Function.update s.workers w (some { e with phase := .start }) } := by
  have hReturned : e.phase ≠ .start := by rw [hPhase]; nofun
  obtain ⟨r, hOn, hMode⟩ : ∃ r, e.On r ∧ dispatch info w e.annotations = .optimisticRead := by
    unfold State.accepts at hAccepts
    split at hAccepts
    · rename_i r hTarget
      rw [Bool.or_eq_false_iff] at hAccepts
      exact ⟨r, hTarget, by simpa using hAccepts.1⟩
    · exact nomatch hAccepts
  have hFree : ∀ r', ¬ Bound info e.annotations r' := fun r' => not_bound_of_optimisticRead hMode
  have hHold : s.hold info w = some _ := State.hold_of_on hWorker hOn hReturned
  rw [hMode] at hHold
  refine ⟨?_, ?_, ?_, h.accepted⟩
  · exact (h.annotate fun c _ r' hBound => absurd hBound (hFree r')).channels
  · refine forall_update (fun w' e' _ => h.workers w' e') ?_
    rintro e' ⟨rfl⟩
    exact ⟨(h.workers w e hWorker).placed, fun r _ _ hOverlapped => nomatch hOverlapped⟩
  · have hHeld := h.held.release hHold
    rw [Latches.release, Function.update_eq_self] at hHeld
    rw [State.hold_update rfl, Option.bind_some, Execution.hold_start rfl]
    exact hHeld

end Tasks

end Inv

variable [DecidableEq R] [DecidableEq T]

/-- Every step keeps the invariant. -/
theorem Step.inv {event : Event R T} (hStep : Step info s event s') (h : Inv info s) :
    Inv info s' := by
  cases hStep with
  | scheduleFrom hChannel => exact h.push fun r hBound => scheduleFrom_of_bound hBound hChannel
  | schedule hChannel => exact h.push fun r hBound => schedule_of_bound hBound hChannel
  | take hIdle hTask => exact h.take hIdle hTask
  | acquire hWorker hPhase hAcquire => exact h.acquire hWorker hPhase hAcquire
  | enter hWorker hPhase hOverlap => exact h.enter hWorker hPhase hOverlap
  | annotate hWorker hInside hTask => exact h.annotate fun c hMem => absurd hMem (hTask c)
  | leave hWorker hPhase => exact h.leave hWorker hPhase
  | accept hWorker hPhase hAccepts => exact h.accept hWorker hPhase hAccepts
  | retry hWorker hPhase hAccepts => exact h.retry hWorker hPhase hAccepts

end Steps

/-! ## Every run -/

section Runs

variable {hints : R → Hint} {channelIds : R → Nat} {s : State R T} {r : R}

theorem Inv.exclusive (h : Inv (build hints channelIds) s)
    (hIsolation : (hints r).isolationLevel = .exclusive) {w w' : Nat} (hInside : s.Inside w r)
    (hInside' : s.Inside w' r) : w = w' := by
  obtain ⟨e, hWorker, hOn, hPhase⟩ := hInside
  obtain ⟨e', hWorker', hOn', hPhase'⟩ := hInside'
  rcases primitive_of_exclusive hIsolation with hLatch | hAll
  · have hShows := h.held.shows w _ (State.hold_of_on hWorker hOn (Phase.ne_start hPhase))
    have hShows' := h.held.shows w' _ (State.hold_of_on hWorker' hOn' (Phase.ne_start hPhase'))
    rw [dispatch_of_exclusiveLatch hOn hLatch] at hShows
    rw [dispatch_of_exclusiveLatch hOn' hLatch] at hShows'
    exact Option.some.inj (hShows.symm.trans hShows')
  · exact h.eq_of_bound hWorker hWorker' ⟨hOn, .inl hAll⟩ ⟨hOn', .inl hAll⟩

theorem Inv.writer (h : Inv (build hints channelIds) s)
    (hIsolation : (hints r).isolationLevel ≠ .none) {w w' : Nat} (hInside : s.WriterInside w r)
    (hInside' : s.WriterInside w' r) : w = w' := by
  obtain ⟨e, hWorker, hOn, hPhase, hWriter⟩ := hInside
  obtain ⟨e', hWorker', hOn', hPhase', hWriter'⟩ := hInside'
  by_contra hNe
  have hMode := (h.optimistic (primitive_ne_none hIsolation) (Ne.symm hNe) hWorker hOn
    (Phase.ne_start hPhase) hWorker' hOn' (Phase.ne_start hPhase') hWriter').1
  rw [isReadonly_of_optimisticRead hMode] at hWriter
  exact nomatch hWriter

theorem Inv.isolated (h : Inv (build hints channelIds) s) (r : R) : s.Isolated (hints r) r where
  exclusive hIsolation _ _ hInside hInside' := h.exclusive hIsolation hInside hInside'
  writer hIsolation _ _ hInside hInside' :=
    h.writer (by rw [hIsolation]; nofun) hInside hInside'
  reader hIsolation e hMem hOn _ :=
    h.accepted e hMem r hOn (primitive_ne_none (by rw [hIsolation]; nofun))

variable [DecidableEq R] [DecidableEq T]

/-- Whatever is scheduled and however the workers interleave, every resource is isolated as its
hint asks. -/
theorem isolated_of_run {annotations : T → Annotations R} {events : List (Event R T)}
    (hRun : Run (Step (build hints channelIds)) (State.initial annotations) events s) (r : R) :
    s.Isolated (hints r) r := by
  have hInv : Inv (build hints channelIds) s :=
    hRun.invariant (inv_initial _ annotations) fun _ _ _ hMid hStep => hStep.inv hMid
  exact hInv.isolated r

end Runs

/-- A reader on worker 1 is overtaken by a writer on worker 0 and has to be executed again. -/
theorem isolated_of_run_retry : ∃ s : State Unit Bool,
    Run (Step (build (fun _ => ⟨.normal, .balanced, .exclusiveWriter, .queue⟩) fun _ => 0))
      (State.initial fun isReadonly => ⟨isReadonly, .resource ()⟩)
      [.scheduleFrom true 1, .scheduleFrom false 1, .take 1 true, .acquire 1, .enter 1,
        .take 0 false, .acquire 0, .enter 0, .leave 1, .retry 1] s ∧
    s.WriterInside 0 () ∧ s.Isolated ⟨.normal, .balanced, .exclusiveWriter, .queue⟩ () := by
  have hReader : Step (build (fun _ => ⟨.normal, .balanced, .exclusiveWriter, .queue⟩) fun _ => 0)
      (State.initial fun isReadonly => ⟨isReadonly, .resource ()⟩ : State Unit Bool)
      (.scheduleFrom true 1) _ := Step.scheduleFrom rfl
  have hWriter := (Run.single hReader).snoc (e := .scheduleFrom false 1) (.scheduleFrom rfl)
  have hTake := hWriter.snoc (e := .take 1 true) (.take rfl (by decide))
  have hAcquire := hTake.snoc (e := .acquire 1) (.acquire rfl rfl rfl)
  have hEnter := hAcquire.snoc (e := .enter 1)
    (.enter rfl rfl (iff_of_false Bool.false_ne_true (by
      rintro ⟨r, w', -, hw, e, hWorker, -⟩
      simp [Function.update_of_ne hw, State.push, State.initial] at hWorker)))
  have hTake' := hEnter.snoc (e := .take 0 false) (.take rfl (by decide))
  have hAcquire' := hTake'.snoc (e := .acquire 0) (.acquire rfl rfl rfl)
  have hEnter' := hAcquire'.snoc (e := .enter 0)
    (.enter rfl rfl (iff_of_false Bool.false_ne_true (by
      rintro ⟨r, w', -, hw, e, hWorker, -, -, hWriter⟩
      by_cases hReader : w' = 1
      · subst hReader
        obtain rfl := Option.some.inj hWorker
        exact nomatch hWriter
      · simp [Function.update_apply, hw, hReader, State.push, State.initial] at hWorker)))
  have hLeave := hEnter'.snoc (e := .leave 1) (.leave rfl rfl)
  have hRun := hLeave.snoc (e := .retry 1) (.retry rfl rfl rfl)
  exact ⟨_, hRun, ⟨_, rfl, rfl, trivial, rfl⟩, isolated_of_run hRun ()⟩

end MxTasking.Tasking.Isolation
