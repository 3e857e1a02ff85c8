import MxTasking.Tasking.OptimisticLock
import MxTasking.Verified.Reads

/-!
# What an optimistic reader sees

`execute_optimistic_read` of `worker.cpp` over the words of a resource.  A reader loads the version
of the resource, runs its task, which reads word after word, and asks whether the version is still
valid.  Writers change single words while they hold the lock.  Every access to the version and to
a word is a step, and the threads take theirs in any order, so what a reader has read at the end may
be a mixture that the resource never was.

## Main results

* `Tracking.step` — what a reader has read so far is of the memory it began on.
* `snapshot_of_run` — an accepted read is one of the resource as it was at one moment; for the
  tasks of the tree this is used in `BLinkTree.NodeReads`.
-/

namespace MxTasking.Tasking.Snapshot

open MxTasking.Verified

universe u

variable {κ : Type*} {ν : κ → Type u} {α : Type u}

/-- The lock, the words it protects, and what the readers still have to do. -/
structure State (κ : Type*) (ν : κ → Type u) (α : Type u) where
  lock : OptimisticLock.State
  memory : ∀ address, ν address
  readers : Nat → Option (Reads κ ν α)

inductive Event (κ : Type*) (ν : κ → Type u) (α : Type u) where
  /-- An access to the version that neither begins nor ends an attempt to read. -/
  | lock (e : OptimisticLock.Event)
  | begin (reader : Nat) (task : Reads κ ν α)
  | read (reader : Nat)
  | write (writer : Nat)
  | finish (reader : Nat) (result : α) (isVersionValid : Bool)

variable [DecidableEq κ]

inductive Step (singleWriter : Bool) : State κ ν α → Event κ ν α → State κ ν α → Prop where
  | lock {s : State κ ν α} {e : OptimisticLock.Event} {lock : OptimisticLock.State} :
      OptimisticLock.Step singleWriter s.lock e lock →
      (∀ r version, lock.threads r = .validating version ↔
        s.lock.threads r = .validating version) →
      Step singleWriter s (.lock e) { s with lock := lock }
  | begin {s : State κ ν α} {r version : Nat} {lock : OptimisticLock.State} (task : Reads κ ν α) :
      s.lock.threads r = .reading → OptimisticLock.Step singleWriter s.lock (.load r) lock →
      lock.threads r = .validating version →
      Step singleWriter s (.begin r task)
        { s with lock := lock, readers := Function.update s.readers r (some task) }
  | read {s : State κ ν α} {r : Nat} {address : κ} {next : ν address → Reads κ ν α} :
      s.readers r = some (.read address next) →
      Step singleWriter s (.read r)
        { s with readers := Function.update s.readers r (some (next (s.memory address))) }
  | write {s : State κ ν α} (w : Nat) (address : κ) (word : ν address) :
      s.lock.threads w = .holding →
      Step singleWriter s (.write w) { s with memory := Function.update s.memory address word }
  | finish {s : State κ ν α} {r version : Nat} {result : α} {isVersionValid : Bool}
      {lock : OptimisticLock.State} :
      s.readers r = some (.done result) → s.lock.threads r = .validating version →
      OptimisticLock.Step singleWriter s.lock (.isValid r isVersionValid) lock →
      Step singleWriter s (.finish r result isVersionValid)
        { s with lock := lock, readers := Function.update s.readers r none }

/-- Before any thread has done anything. -/
def State.initial (memory : ∀ address, ν address) : State κ ν α :=
  ⟨.initial, memory, fun _ => none⟩

/-- The access to the version that an event is. -/
def Event.lock? : Event κ ν α → Option OptimisticLock.Event
  | .lock e => some e
  | .begin r _ => some (.load r)
  | .read _ => none
  | .write _ => none
  | .finish r _ isVersionValid => some (.isValid r isVersionValid)

/-- The number of write sections completed in a log. -/
def sections (es : List (Event κ ν α)) : Nat := OptimisticLock.sections (es.filterMap Event.lock?)

/-- The event begins or ends an attempt of the reader. -/
def Event.Bounds (r : Nat) : Event κ ν α → Prop
  | .begin r' _ => r' = r
  | .finish r' _ _ => r' = r
  | _ => False

/-- `s` is a state of the run `es` from `s₁` to `s₂`. -/
def Passes (singleWriter : Bool) (s₁ : State κ ν α) (es : List (Event κ ν α))
    (s₂ s : State κ ν α) : Prop :=
  ∃ before after, es = before ++ after ∧ Run (Step singleWriter) s₁ before s ∧
    Run (Step singleWriter) s after s₂

section Runs

variable {singleWriter : Bool} {s s' s₁ s₂ : State κ ν α} {es : List (Event κ ν α)}
  {e : Event κ ν α}

/-- The accesses to the version are a run of the lock. -/
theorem lock_of_run (h : Run (Step singleWriter) s es s') :
    Run (OptimisticLock.Step singleWriter) s.lock (es.filterMap Event.lock?) s'.lock := by
  induction h with
  | nil => exact Run.nil
  | @snoc es e mid fin _ hStep ih =>
      rw [List.filterMap_append]
      cases hStep with
      | lock hLock _ => exact ih.snoc hLock
      | begin _ _ hLoad _ => exact ih.snoc hLoad
      | read _ | write _ _ _ _ =>
          show Run _ _ (_ ++ []) _
          rwa [List.append_nil]
      | finish _ _ hValid => exact ih.snoc hValid

theorem Passes.lock (h : Passes singleWriter s₁ es s₂ s) :
    OptimisticLock.Passes singleWriter s₁.lock (es.filterMap Event.lock?) s₂.lock s.lock := by
  obtain ⟨before, after, rfl, hBefore, hAfter⟩ := h
  exact ⟨_, _, List.filterMap_append, lock_of_run hBefore, lock_of_run hAfter⟩

/-- A thread that is not in an attempt goes on and does not begin one. -/
theorem validating_set {l : OptimisticLock.State} {i : Nat} {q : OptimisticLock.Thread}
    (hWas : ∀ version, l.threads i ≠ .validating version) (hIs : ∀ version, q ≠ .validating version)
    (r version : Nat) :
    (l.set i q).threads r = .validating version ↔ l.threads r = .validating version := by
  by_cases hEq : r = i
  · subst hEq
    simp [OptimisticLock.State.set, hWas, hIs]
  · simp [OptimisticLock.State.set, hEq]

/-- Asking for the validity ends the attempt. -/
theorem isValid_set {l l' : OptimisticLock.State} {r : Nat} {isVersionValid : Bool}
    (h : OptimisticLock.Step singleWriter l (.isValid r isVersionValid) l') :
    l' = l.set r .idle := by
  cases h with
  | isValid _ _ _ => rfl

/-- During an attempt the reader keeps the version it has loaded. -/
theorem validating_of_run {r version : Nat} (h : s₁.lock.threads r = .validating version)
    (hRun : Run (Step singleWriter) s₁ es s₂) (hSame : ∀ e ∈ es, ¬ e.Bounds r) :
    s₂.lock.threads r = .validating version := by
  induction hRun with
  | nil => exact h
  | @snoc es e mid fin _ hStep ih =>
      have hMid := ih fun e' he' => hSame e' (List.mem_append_left _ he')
      have hOther := hSame e (List.mem_append_right _ List.mem_cons_self)
      cases hStep with
      | lock _ hReaders => exact (hReaders r version).mpr hMid
      | @begin i _ _ _ hReading hLoad hBegun =>
          have hne : r ≠ i := fun hEq => hOther hEq.symm
          obtain ⟨_, _, rfl⟩ := OptimisticLock.validRead_cases hLoad hReading hBegun
          exact (Function.update_of_ne hne ..).trans hMid
      | read _ => exact hMid
      | write _ _ _ _ => exact hMid
      | @finish i _ _ _ _ _ _ hValid =>
          have hne : r ≠ i := fun hEq => hOther hEq.symm
          obtain rfl := isValid_set hValid
          exact (Function.update_of_ne hne ..).trans hMid

/-- The reader `r` has begun with `task` on `memory`, and the memory is what it was. -/
structure Tracking (r : Nat) (task : Reads κ ν α) (memory : ∀ address, ν address)
    (s : State κ ν α) : Prop where
  unchanged : s.memory = memory
  task : ∃ rest, s.readers r = some rest ∧ rest.run memory = task.run memory

namespace Tracking

variable {r : Nat} {task : Reads κ ν α} {memory : ∀ address, ν address}

/-- While no writer holds the lock, what a reader has read so far is of the memory it began on. -/
theorem step (h : Tracking r task memory s) (hFree : ¬ s.lock.Locked) (hSame : ¬ e.Bounds r)
    (hStep : Step singleWriter s e s') : Tracking r task memory s' := by
  obtain ⟨rest, hRest, hRun⟩ := h.task
  cases hStep with
  | lock _ _ => exact ⟨h.unchanged, rest, hRest, hRun⟩
  | @begin i _ _ _ _ _ _ =>
      have hne : r ≠ i := fun hEq => hSame hEq.symm
      exact ⟨h.unchanged, rest, (Function.update_of_ne hne ..).trans hRest, hRun⟩
  | @read i address next hNext =>
      by_cases hEq : r = i
      · subst hEq
        obtain rfl : rest = .read address next := Option.some.inj (hRest.symm.trans hNext)
        refine ⟨h.unchanged, _, Function.update_self .., ?_⟩
        rw [h.unchanged]
        exact hRun
      · exact ⟨h.unchanged, rest, (Function.update_of_ne hEq ..).trans hRest, hRun⟩
  | write w _ _ hHolds => exact absurd ⟨w, hHolds⟩ hFree
  | @finish i _ _ _ _ _ _ _ =>
      have hne : r ≠ i := fun hEq => hSame hEq.symm
      exact ⟨h.unchanged, rest, (Function.update_of_ne hne ..).trans hRest, hRun⟩

/-- Over a run in which the lock is free all the time. -/
theorem run (h : Tracking r task memory s₁) (hRun : Run (Step singleWriter) s₁ es s₂)
    (hFree : ∀ s, Passes singleWriter s₁ es s₂ s → ¬ s.lock.Locked)
    (hSame : ∀ e ∈ es, ¬ e.Bounds r) : Tracking r task memory s₂ := by
  induction hRun with
  | nil => exact h
  | @snoc es e mid fin hPrefix hStep ih =>
      have hMid : ∀ s, Passes singleWriter s₁ es mid s → ¬ s.lock.Locked := by
        rintro s ⟨before, after, rfl, hBefore, hAfter⟩
        exact hFree s ⟨before, after ++ [e], List.append_assoc .., hBefore, hAfter.snoc hStep⟩
      exact (ih hMid fun e' he' => hSame e' (List.mem_append_left _ he')).step
        (hFree mid ⟨es, [e], rfl, hPrefix, Run.single hStep⟩)
        (hSame e (List.mem_append_right _ List.mem_cons_self)) hStep

end Tracking

/-- Between the load of a version and a successful validation the lock is free all the time. -/
theorem free_of_valid {memory : ∀ address, ν address} {before : List (Event κ ν α)}
    {s₀ : State κ ν α} {r version : Nat} {lock' : OptimisticLock.State}
    (hBefore : Run (Step singleWriter) (State.initial memory) before s₀)
    (hReading : s₀.lock.threads r = .reading)
    (hLoad : OptimisticLock.Step singleWriter s₀.lock (.load r) s₁.lock)
    (hBegun : s₁.lock.threads r = .validating version)
    (hRun : Run (Step singleWriter) s₁ es s₂) (hSame : s₂.lock.threads r = .validating version)
    (hValid : OptimisticLock.Step singleWriter s₂.lock (.isValid r true) lock')
    (hFew : sections es < 2 ^ 30) (hPass : Passes singleWriter s₁ es s₂ s) : ¬ s.lock.Locked := by
  have hTracks := OptimisticLock.Tracks.initial.run (lock_of_run hBefore)
  obtain ⟨hFree, rfl, hSet⟩ := OptimisticLock.validRead_cases hLoad hReading hBegun
  have hNotLocked : ¬ s₀.lock.Locked := by
    rw [← hTracks.isLocked_iff, hFree]
    decide
  have hStart : OptimisticLock.Tracks s₀.lock.version 0 s₁.lock := by
    rw [hSet]
    exact (hTracks.restart hNotLocked).set (by rw [hReading]; decide) (by simp) (by simp)
  have hVersion : s₁.lock.version = s₀.lock.version := by rw [hSet]; rfl
  have hNotLocked₁ : ¬ s₁.lock.Locked := by
    rw [← hStart.isLocked_iff, hVersion, hFree]
    decide
  exact OptimisticLock.not_locked_of_same_version hStart hNotLocked₁ (lock_of_run hRun)
    ((OptimisticLock.isValid_cases hValid hSame).trans hVersion.symm) hFew hPass.lock

/-- A read whose version was still valid at its end, with fewer than `2 ^ 30` write sections
completed meanwhile: no writer was in its section at any moment, the words were the same all the
time, and the result is that of the task on them. -/
theorem snapshot_of_run {memory : ∀ address, ν address} {before : List (Event κ ν α)} {r : Nat}
    {task : Reads κ ν α} {s₀ s₃ : State κ ν α} {result : α}
    (hBefore : Run (Step singleWriter) (State.initial memory) before s₀)
    (hBegin : Step singleWriter s₀ (.begin r task) s₁) (hRun : Run (Step singleWriter) s₁ es s₂)
    (hSame : ∀ e ∈ es, ¬ e.Bounds r) (hFinish : Step singleWriter s₂ (.finish r result true) s₃)
    (hFew : sections es < 2 ^ 30) :
    result = task.run s₀.memory ∧
      ∀ s, Passes singleWriter s₁ es s₂ s → ¬ s.lock.Locked ∧ s.memory = s₀.memory := by
  cases hBegin with
  | @begin _ _ lock _ hReading hLoad hBegun =>
    cases hFinish with
    | finish hDone hAt hValid =>
      let begun : State κ ν α :=
        { s₀ with lock := lock, readers := Function.update s₀.readers r (some task) }
      have hVersion := validating_of_run hBegun hRun hSame
      have hFree : ∀ s, Passes singleWriter begun es s₂ s → ¬ s.lock.Locked := fun s hPass =>
        free_of_valid hBefore hReading hLoad hBegun hRun hVersion hValid hFew hPass
      have hStart : Tracking r task s₀.memory begun := ⟨rfl, task, Function.update_self .., rfl⟩
      refine ⟨?_, fun s hPass => ⟨hFree s hPass, ?_⟩⟩
      · obtain ⟨rest, hRest, hResult⟩ := (hStart.run hRun hFree hSame).task
        obtain rfl : rest = .done result := Option.some.inj (hRest.symm.trans hDone)
        exact hResult
      · obtain ⟨first, last, rfl, hFirst, hLast⟩ := hPass
        refine (hStart.run hFirst (fun s' hPass' => ?_) fun e he =>
          hSame e (List.mem_append_left _ he)).unchanged
        obtain ⟨early, late, rfl, hEarly, hLate⟩ := hPass'
        exact hFree s' ⟨early, late ++ last, List.append_assoc .., hEarly, hLate.append hLast⟩

end Runs

end MxTasking.Tasking.Snapshot
