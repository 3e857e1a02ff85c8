import MxTasking.Tasking.Isolation
import MxTasking.Tasking.RWSpinLock

/-!
# The isolation level on the words of the latches

`MxTasking.Tasking.Isolation` takes the latches by their contracts: an acquisition is one step, and
the version of the `OptimisticLock` is a number.  Here the workers run on what lies in memory
(`spinlock.h`, `rw_spinlock.h`, `optimistic_lock.h`): a flag, a word that counts the readers, and a
version of 32 bits that wraps around.  A constructor of `scoped_latch` is as many atomic accesses
as it takes, with those of all other workers in between.

Every run on the words is followed by a run on the contracts.  The version needs a condition for
that: while one optimistic read lasts, it must not come back to where it was.

## Main results

* `Follows.step` — what one access to the words is on the contracts: nothing, or the acquisition.
* `follows_of_run` — every run on the words is one on the contracts.
* `words_isolate` — the isolation level holds on the words.
-/

/-! ## Versions of 32 bits -/

namespace MxTasking.Tasking.Isolation

variable {R T : Type*}

/-- What 32 bits keep of the version. -/
def Phase.wrap : Phase → Phase
  | .start => .start
  | .ready version => .ready (version % 2 ^ 32)
  | .inside version overlapped => .inside (version % 2 ^ 32) overlapped
  | .returned version overlapped => .returned (version % 2 ^ 32) overlapped

def Execution.wrap (e : Execution R T) : Execution R T := { e with phase := e.phase.wrap }

/-- The state without the latches and with versions of 32 bits. -/
def State.wrap (s : State R T) : State R T :=
  { s with
    workers := fun w => (s.workers w).map Execution.wrap
    latches := fun _ => {}
    accepted := s.accepted.map Execution.wrap }

section Wrap

variable {s : State R T} {e other : Execution R T} {phase : Phase} {w version : Nat} {r : R}
  {overlapped : Bool}

@[simp] theorem Phase.wrap_version : phase.wrap.version = phase.version % 2 ^ 32 := by
  cases phase <;> rfl

@[simp] theorem Phase.wrap_overlapped : phase.wrap.overlapped = phase.overlapped := by
  cases phase <;> rfl

@[simp] theorem Phase.wrap_isInside : phase.wrap.IsInside ↔ phase.IsInside := by
  cases phase <;> exact Iff.rfl

@[simp] theorem Phase.wrap_eq_start : phase.wrap = .start ↔ phase = .start := by
  cases phase <;> simp [Phase.wrap]

theorem Phase.of_wrap_ready (h : phase.wrap = .ready version) :
    ∃ version', phase = .ready version' ∧ version' % 2 ^ 32 = version := by
  cases phase with
  | ready version' => exact ⟨version', rfl, Phase.ready.inj h⟩
  | _ => exact nomatch h

theorem Phase.of_wrap_inside (h : phase.wrap = .inside version overlapped) :
    ∃ version', phase = .inside version' overlapped ∧ version' % 2 ^ 32 = version := by
  cases phase with
  | inside version' overlapped' =>
      obtain ⟨hVersion, rfl⟩ := Phase.inside.inj h
      exact ⟨version', rfl, hVersion⟩
  | _ => exact nomatch h

theorem Phase.of_wrap_returned (h : phase.wrap = .returned version overlapped) :
    ∃ version', phase = .returned version' overlapped ∧ version' % 2 ^ 32 = version := by
  cases phase with
  | returned version' overlapped' =>
      obtain ⟨hVersion, rfl⟩ := Phase.returned.inj h
      exact ⟨version', rfl, hVersion⟩
  | _ => exact nomatch h

/-- Every worker that has a task on the words has it on the contracts. -/
theorem State.of_wrap_workers (h : s.wrap.workers w = some e) :
    ∃ e', s.workers w = some e' ∧ e'.wrap = e :=
  Option.map_eq_some_iff.mp h

theorem State.wrap_workers_none : s.wrap.workers w = none ↔ s.workers w = none :=
  Option.map_eq_none_iff

/-- One worker goes on. -/
theorem wrap_update (workers : Nat → Option (Execution R T)) (w : Nat)
    (x : Option (Execution R T)) :
    (fun w' => (Function.update workers w x w').map Execution.wrap) =
      Function.update (fun w' => (workers w').map Execution.wrap) w (x.map Execution.wrap) := by
  funext w'
  by_cases hw : w' = w
  · subst hw
    rw [Function.update_self, Function.update_self]
  · rw [Function.update_of_ne hw, Function.update_of_ne hw]

theorem Execution.markOverlapped_wrap [DecidableEq R] (r : R) (e : Execution R T) :
    e.wrap.markOverlapped r = (e.markOverlapped r).wrap := by
  obtain ⟨task, annotations, phase⟩ := e
  by_cases hOn : annotations.target = .resource r
  · cases phase <;> simp [Execution.markOverlapped, Execution.wrap, Phase.wrap, hOn]
  · simp [Execution.markOverlapped, Execution.wrap, hOn]

theorem Execution.notice_wrap [DecidableEq R] (e other : Execution R T) :
    e.wrap.notice other.wrap = (e.notice other).wrap := by
  obtain ⟨task, ⟨isReadonly, target⟩, phase⟩ := e
  cases isReadonly with
  | true => rfl
  | false =>
      cases target with
      | resource r => exact Execution.markOverlapped_wrap r other
      | _ => rfl

theorem State.wrap_inside : s.wrap.Inside w r ↔ s.Inside w r := by
  constructor
  · rintro ⟨e, hWorker, hOn, hPhase⟩
    obtain ⟨e, hWorker', rfl⟩ := State.of_wrap_workers hWorker
    exact ⟨e, hWorker', hOn, Phase.wrap_isInside.mp hPhase⟩
  · rintro ⟨e, hWorker, hOn, hPhase⟩
    exact ⟨e.wrap, Option.map_eq_some_iff.mpr ⟨e, hWorker, rfl⟩, hOn,
      Phase.wrap_isInside.mpr hPhase⟩

theorem State.wrap_writerInside : s.wrap.WriterInside w r ↔ s.WriterInside w r := by
  constructor
  · rintro ⟨e, hWorker, hOn, hPhase, hWriter⟩
    obtain ⟨e, hWorker', rfl⟩ := State.of_wrap_workers hWorker
    exact ⟨e, hWorker', hOn, Phase.wrap_isInside.mp hPhase, hWriter⟩
  · rintro ⟨e, hWorker, hOn, hPhase, hWriter⟩
    exact ⟨e.wrap, Option.map_eq_some_iff.mpr ⟨e, hWorker, rfl⟩, hOn,
      Phase.wrap_isInside.mpr hPhase, hWriter⟩

/-- The isolation does not depend on how the versions are kept. -/
theorem State.Isolated.wrap {hint : Hint} (h : s.Isolated hint r) : s.wrap.Isolated hint r where
  exclusive hIsolation w w' hInside hInside' :=
    h.exclusive hIsolation w w' (State.wrap_inside.mp hInside) (State.wrap_inside.mp hInside')
  writer hIsolation w w' hInside hInside' :=
    h.writer hIsolation w w' (State.wrap_writerInside.mp hInside)
      (State.wrap_writerInside.mp hInside')
  reader hIsolation e hMem hOn hReader := by
    obtain ⟨e, hMem', rfl⟩ := List.mem_map.mp hMem
    rw [show e.wrap.phase.overlapped = e.phase.overlapped from Phase.wrap_overlapped]
    exact h.reader hIsolation e hMem' hOn hReader

end Wrap

end MxTasking.Tasking.Isolation

namespace MxTasking.Tasking.LatchWords

open MxTasking.Verified (Run update_cases update_elsewhere)
open MxTasking.Tasking.Isolation (Phase Execution)

variable {R T : Type*}

/-! ## The words -/

/-- `_exclusive_latch`, `_rw_latch` and `_optimistic_latch` of a resource. -/
structure Words where
  flag : Bool := false
  bits : RWSpinLock.Bits := 0
  version : Nat := 0b100
  deriving DecidableEq, Repr

/-- How far a worker is in the constructor of `scoped_latch`. -/
inductive Attempt where
  | fresh
  /-- In `Spinlock::lock()`, in front of `try_lock()`. -/
  | testing
  /-- In `RWSpinLock::try_lock_shared()`, in front of the subtraction. -/
  | backingOff
  /-- In `OptimisticLock::try_lock()`, in front of the compare-exchange. -/
  | exchanging (version : Nat)
  deriving DecidableEq, Repr

/-- What follows an access: another one, or `execute()` with the version of an optimistic read. -/
inductive Progress where
  | again (attempt : Attempt)
  | acquired (version : Nat)
  deriving DecidableEq, Repr

/-- One atomic access in the constructor of `scoped_latch`, or in `version()` of an optimistic read.
`compare_exchange_weak` may fail for no reason, which is `spurious`. -/
def Words.access (words : Words) (spurious : Bool) : Mode → Attempt → Option (Words × Progress)
  | .plain, .fresh => some (words, .acquired 0)
  -- `Spinlock::lock()`
  | .exclusive, .fresh => some (words, .again (if words.flag then .fresh else .testing))
  | .exclusive, .testing =>
      some (if words.flag || spurious then (words, .again .fresh)
        else ({ words with flag := true }, .acquired 0))
  -- `RWSpinLock::lock_shared()`
  | .sharedRead, .fresh =>
      some ({ words with bits := words.bits + RWSpinLock.reader },
        if words.bits &&& (RWSpinLock.writer ||| RWSpinLock.upgraded) = 0 then .acquired 0
        else .again .backingOff)
  | .sharedRead, .backingOff =>
      some ({ words with bits := words.bits - RWSpinLock.reader }, .again .fresh)
  -- `RWSpinLock::lock()`
  | .sharedWrite, .fresh =>
      some (if words.bits = 0 then ({ words with bits := RWSpinLock.writer }, .acquired 0)
        else (words, .again .fresh))
  -- `OptimisticLock::read_valid()`
  | .optimisticRead, .fresh =>
      some (words, if isLocked words.version then .again .fresh else .acquired words.version)
  -- `OptimisticLock::lock<true>()`
  | .optimisticWrite, .fresh =>
      some ({ words with version := (words.version + 0b10) % 2 ^ 32 }, .acquired 0)
  -- `OptimisticLock::lock<false>()`
  | .olfitWrite, .fresh =>
      some (words, .again (if isLocked words.version then .fresh else .exchanging words.version))
  | .olfitWrite, .exchanging version =>
      some (if version = words.version then
          ({ words with version := (words.version + 0b10) % 2 ^ 32 }, .acquired 0)
        else (words, .again .fresh))
  | _, _ => none

/-- The destructor of `scoped_latch`. -/
def Words.release (words : Words) : Mode → Words
  | .plain | .optimisticRead => words
  | .exclusive => { words with flag := false }
  | .sharedRead => { words with bits := words.bits - RWSpinLock.reader }
  | .sharedWrite =>
      { words with bits := words.bits &&& ~~~(RWSpinLock.writer ||| RWSpinLock.upgraded) }
  | .optimisticWrite | .olfitWrite =>
      { words with version := (words.version + 0b10) % 2 ^ 32 }

/-! ## The system -/

/-- The channels and the workers, with the words in place of the latches: those of `base` stay as
they were in the beginning. -/
structure State (R T : Type*) where
  base : Isolation.State R T
  words : R → Words
  attempts : Nat → Attempt

def State.initial (annotations : T → Annotations R) : State R T where
  base := .initial annotations
  words _ := {}
  attempts _ := .fresh

section System

variable [DecidableEq R]

/-- What worker `w` does next before `execute()`. -/
def State.access (c : State R T) (info : R → Information) (spurious : Bool) (w : Nat)
    (e : Execution R T) : Option ((R → Words) × Progress) :=
  match e.annotations.target with
  | .resource r =>
      ((c.words r).access spurious (dispatch info w e.annotations) (c.attempts w)).map
        fun (words, progress) => (Function.update c.words r words, progress)
  | _ => some (c.words, .acquired 0)

/-- What it does afterwards. -/
def State.release (c : State R T) (info : R → Information) (w : Nat) (e : Execution R T) :
    R → Words :=
  match e.annotations.target with
  | .resource r =>
      Function.update c.words r ((c.words r).release (dispatch info w e.annotations))
  | _ => c.words

/-- `is_version_valid` after an optimistic read. -/
def State.accepts (c : State R T) (info : R → Information) (w : Nat) (e : Execution R T) : Bool :=
  match e.annotations.target with
  | .resource r =>
      dispatch info w e.annotations ≠ .optimisticRead || e.phase.version = (c.words r).version
  | _ => true

/-- The events that leave the latches alone, of the workers below `n`. -/
def LeavesLatches (n : Nat) : Isolation.Event R T → Prop
  | .scheduleFrom _ _ | .schedule _ | .enter _ | .annotate _ _ | .leave _ => True
  | .take w _ => w < n
  | .acquire _ | .accept _ | .retry _ => False

variable [DecidableEq T]

/-- One step of the scheduler or of one of `n` workers. -/
inductive Step (info : R → Information) (n : Nat) :
    State R T → Isolation.Event R T → State R T → Prop where
  | other {c : State R T} {base : Isolation.State R T} (event : Isolation.Event R T) :
      LeavesLatches n event → Isolation.Step info c.base event base →
      Step info n c event { c with base := base }
  | again {c : State R T} {w : Nat} {e : Execution R T} {words : R → Words}
      {attempt : Attempt} (spurious : Bool) :
      c.base.workers w = some e → e.phase = .start →
      c.access info spurious w e = some (words, .again attempt) →
      Step info n c (.acquire w)
        { c with words := words, attempts := Function.update c.attempts w attempt }
  | acquired {c : State R T} {w : Nat} {e : Execution R T} {words : R → Words}
      {version : Nat} (spurious : Bool) :
      c.base.workers w = some e → e.phase = .start →
      c.access info spurious w e = some (words, .acquired version) →
      Step info n c (.acquire w)
        { base := { c.base with
            workers := Function.update c.base.workers w (some { e with phase := .ready version }) }
          words := words
          attempts := Function.update c.attempts w .fresh }
  | accept {c : State R T} {w : Nat} {e : Execution R T} {version : Nat} {overlapped : Bool} :
      c.base.workers w = some e → e.phase = .returned version overlapped →
      c.accepts info w e = true →
      Step info n c (.accept w)
        { c with
          base := { c.base with
            workers := Function.update c.base.workers w none
            accepted := e :: c.base.accepted }
          words := c.release info w e }
  | retry {c : State R T} {w : Nat} {e : Execution R T} {version : Nat} {overlapped : Bool} :
      c.base.workers w = some e → e.phase = .returned version overlapped →
      c.accepts info w e = false →
      Step info n c (.retry w)
        { c with
          base := { c.base with
            annotations := Function.update c.base.annotations e.task e.annotations
            workers := Function.update c.base.workers w (some { e with phase := .start }) } }

end System

/-! ## One resource -/

/-- Where a worker is in the code of the `RWSpinLock`, once it is through the constructor. -/
def lockPlace : Mode → RWSpinLock.Place
  | .sharedRead => .shared
  | .sharedWrite => .exclusive
  | _ => .outside

/-- And while it is in there. -/
def Attempt.lockPlace (attempt : Attempt) : RWSpinLock.Place :=
  if attempt = .backingOff then .backingOff else .outside

theorem isLocked_wrap (version : Nat) : isLocked (version % 2 ^ 32) = isLocked version := by
  rw [isLocked_eq, isLocked_eq, decide_eq_decide]
  omega

theorem version_add (version : Nat) :
    (version % 2 ^ 32 + 0b10) % 2 ^ 32 = (version + 0b10) % 2 ^ 32 := by
  rw [Nat.mod_add_mod]

/-- A section counts when it ends. -/
theorem sections_of_unlocked {version : Nat} (h : isLocked version = false) :
    (version + 0b10) / 4 = version / 4 := by
  rw [isLocked_eq, decide_eq_false_iff_not] at h
  omega

/-- The words show what the contracts say, for `n` workers at `places` in the code of the
`RWSpinLock`. -/
structure Agrees (n : Nat) (words : Words) (places : Nat → RWSpinLock.Place)
    (latches : Latches) : Prop where
  flag : words.flag = latches.exclusive.isSome
  version : words.version = latches.version % 2 ^ 32
  lock : ∃ owner u w, RWSpinLock.Inv ⟨words.bits, fun i : Fin n => places i⟩ owner u w
  writer : ∀ w, latches.writer = some w ↔ places w = .exclusive
  readers : ∀ w, w ∈ latches.readers ↔ places w = .shared
  nodup : latches.readers.Nodup
  few : ∀ w, n ≤ w → places w = .outside

namespace Agrees

variable {n : Nat} {words words' : Words} {places : Nat → RWSpinLock.Place} {latches : Latches}
  {w : Nat} {mode : Mode}

theorem initial (n : Nat) : Agrees n {} (fun _ => .outside) {} where
  flag := rfl
  version := rfl
  lock := ⟨none, false, false, RWSpinLock.Inv.initial⟩
  writer _ := iff_of_false nofun nofun
  readers _ := iff_of_false List.not_mem_nil nofun
  nodup := List.nodup_nil
  few _ _ := rfl

/-- A worker that stays where it is. -/
theorem stay (h : Agrees n words places latches) {place : RWSpinLock.Place}
    (hPlace : places w = place) : Agrees n words (Function.update places w place) latches := by
  rw [← hPlace, Function.update_eq_self]
  exact h

/-- One access to the word of the `RWSpinLock`. -/
theorem locked (h : Agrees n words places latches) (hn : n ≤ 2 ^ 30) (hw : w < n)
    {access : RWSpinLock.Access} {place : RWSpinLock.Place} {bits : RWSpinLock.Bits}
    (hPerform : access.perform (places w) words.bits = some (place, bits)) :
    ∃ owner u v, RWSpinLock.Inv
      ⟨bits, fun i : Fin n => Function.update places w place i⟩ owner u v := by
  obtain ⟨owner, u, v, hInv⟩ := h.lock
  have hStep : RWSpinLock.Step ⟨words.bits, fun i : Fin n => places i⟩ (⟨w, hw⟩, access)
      ⟨bits, Function.update (fun i : Fin n => places i) ⟨w, hw⟩ place⟩ := .access hPerform
  obtain ⟨owner', u', v', hInv'⟩ := hInv.step (by rw [Fintype.card_fin]; exact hn) hStep
  have hEq : Function.update (fun i : Fin n => places i) ⟨w, hw⟩ place =
      fun i : Fin n => Function.update places w place i := by
    funext i
    by_cases hi : i = ⟨w, hw⟩
    · subst hi
      rw [Function.update_self, Function.update_self]
    · have hne : i.val ≠ w := fun hEq => hi (Fin.ext hEq)
      rw [Function.update_of_ne hi, Function.update_of_ne hne]
  rw [hEq] at hInv'
  exact ⟨owner', u', v', hInv'⟩

theorem few_update (h : Agrees n words places latches) (hw : w < n)
    (place : RWSpinLock.Place) (w' : Nat) (hw' : n ≤ w') :
    Function.update places w place w' = .outside := by
  rw [Function.update_of_ne (Nat.ne_of_gt (Nat.lt_of_lt_of_le hw hw'))]
  exact h.few w' hw'

/-- The worker that moves is neither the writer nor a reader, before and afterwards. -/
theorem aside (h : Agrees n words places latches) (hn : n ≤ 2 ^ 30) (hw : w < n)
    {a : RWSpinLock.Access} {place : RWSpinLock.Place} {bits : RWSpinLock.Bits}
    (hPerform : a.perform (places w) words.bits = some (place, bits))
    (hWas : places w = .outside ∨ places w = .backingOff)
    (hIs : place = .outside ∨ place = .backingOff) :
    Agrees n { words with bits := bits } (Function.update places w place) latches := by
  refine ⟨h.flag, h.version, h.locked hn hw hPerform, fun w' => ?_, fun w' => ?_, h.nodup,
    h.few_update hw place⟩
  · rw [h.writer w']
    by_cases hEq : w' = w
    · subst hEq
      rw [Function.update_self]
      rcases hWas with hWas | hWas <;> rcases hIs with rfl | rfl <;> simp [hWas]
    · rw [Function.update_of_ne hEq]
  · rw [h.readers w']
    by_cases hEq : w' = w
    · subst hEq
      rw [Function.update_self]
      rcases hWas with hWas | hWas <;> rcases hIs with rfl | rfl <;> simp [hWas]
    · rw [Function.update_of_ne hEq]

/-- Nobody is the writer where nobody owns the lock. -/
theorem no_writer (h : Agrees n words places latches)
    (hNone : ∀ i : Fin n, (places i).owns = false) : latches.writer = none := by
  rw [Option.eq_none_iff_forall_ne_some]
  intro w' hWriter
  have hPlace := (h.writer w').mp hWriter
  by_cases hw' : w' < n
  · have hOwns := hNone ⟨w', hw'⟩
    rw [hPlace] at hOwns
    exact absurd hOwns (by decide)
  · rw [h.few w' (Nat.le_of_not_lt hw')] at hPlace
    exact absurd hPlace (by decide)

theorem free_of_flags (h : Agrees n words places latches)
    (hBits : words.bits &&& (RWSpinLock.writer ||| RWSpinLock.upgraded) = 0) :
    latches.writer = none := by
  obtain ⟨owner, u, v, hInv⟩ := h.lock
  exact h.no_writer (hInv.flags_clear_iff.mp hBits)

/-- The word of a free lock. -/
theorem free_of_zero (h : Agrees n words places latches) (hn : n ≤ 2 ^ 30) (hw : w < n)
    (hPlace : places w = .outside) (hBits : words.bits = 0) :
    latches.writer = none ∧ latches.readers = [] := by
  obtain ⟨owner, u, v, hInv⟩ := h.lock
  have hAlone : ∀ w', places w' = .outside := by
    intro w'
    by_cases hw' : w' < n
    · by_cases hEq : w' = w
      · rw [hEq, hPlace]
      · exact (hInv.zero_iff (i := ⟨w, hw⟩) (by rw [Fintype.card_fin]; exact hn) hPlace).mp hBits
          ⟨w', hw'⟩ (fun hFin => hEq (Fin.mk.inj hFin))
    · exact h.few w' (Nat.le_of_not_lt hw')
  refine ⟨h.no_writer fun i => by rw [hAlone i]; rfl, List.eq_nil_iff_forall_not_mem.mpr ?_⟩
  intro w' hMem
  have hShared := (h.readers w').mp hMem
  rw [hAlone w'] at hShared
  exact absurd hShared (by decide)

theorem lockShared (h : Agrees n words places latches) (hn : n ≤ 2 ^ 30) (hw : w < n)
    (hPlace : places w = .outside)
    (hBits : words.bits &&& (RWSpinLock.writer ||| RWSpinLock.upgraded) = 0) :
    Agrees n { words with bits := words.bits + RWSpinLock.reader }
      (Function.update places w .shared) { latches with readers := w :: latches.readers } := by
  have hPerform : RWSpinLock.Access.tryLockShared.perform (places w) words.bits =
      some (.shared, words.bits + RWSpinLock.reader) := by
    rw [hPlace, RWSpinLock.Access.perform, if_pos hBits]
  refine ⟨h.flag, h.version, h.locked hn hw hPerform, fun w' => ?_, fun w' => ?_, ?_,
    h.few_update hw _⟩
  · show latches.writer = some w' ↔ _
    rw [h.writer w']
    by_cases hEq : w' = w
    · subst hEq
      simp [hPlace]
    · rw [Function.update_of_ne hEq]
  · rw [List.mem_cons, h.readers w']
    by_cases hEq : w' = w
    · subst hEq
      simp
    · rw [Function.update_of_ne hEq]
      simp [hEq]
  · refine List.nodup_cons.mpr ⟨fun hMem => ?_, h.nodup⟩
    rw [h.readers w, hPlace] at hMem
    exact absurd hMem (by decide)

theorem lock_exclusive (h : Agrees n words places latches) (hn : n ≤ 2 ^ 30) (hw : w < n)
    (hPlace : places w = .outside) (hBits : words.bits = 0) :
    Agrees n { words with bits := RWSpinLock.writer } (Function.update places w .exclusive)
      { latches with writer := some w } := by
  have hPerform : RWSpinLock.Access.tryLock.perform (places w) words.bits =
      some (.exclusive, RWSpinLock.writer) := by
    rw [hPlace, RWSpinLock.Access.perform, if_pos hBits]
  have hFree := (h.free_of_zero hn hw hPlace hBits).1
  refine ⟨h.flag, h.version, h.locked hn hw hPerform, fun w' => ?_, fun w' => ?_, h.nodup,
    h.few_update hw _⟩
  · show some w = some w' ↔ _
    by_cases hEq : w' = w
    · subst hEq
      simp
    · rw [Function.update_of_ne hEq, ← h.writer w', hFree]
      simp [Ne.symm hEq]
  · rw [h.readers w']
    by_cases hEq : w' = w
    · subst hEq
      simp [hPlace]
    · rw [Function.update_of_ne hEq]

theorem unlockShared (h : Agrees n words places latches) (hn : n ≤ 2 ^ 30) (hw : w < n)
    (hPlace : places w = .shared) :
    Agrees n { words with bits := words.bits - RWSpinLock.reader }
      (Function.update places w .outside) { latches with readers := latches.readers.erase w } := by
  have hPerform : RWSpinLock.Access.unlockShared.perform (places w) words.bits =
      some (.outside, words.bits - RWSpinLock.reader) := by
    rw [hPlace]
    rfl
  refine ⟨h.flag, h.version, h.locked hn hw hPerform, fun w' => ?_, fun w' => ?_,
    h.nodup.erase w, h.few_update hw _⟩
  · show latches.writer = some w' ↔ _
    rw [h.writer w']
    by_cases hEq : w' = w
    · subst hEq
      simp [hPlace]
    · rw [Function.update_of_ne hEq]
  · rw [h.nodup.mem_erase_iff, h.readers w']
    by_cases hEq : w' = w
    · subst hEq
      simp
    · rw [Function.update_of_ne hEq]
      simp [hEq]

theorem unlock (h : Agrees n words places latches) (hn : n ≤ 2 ^ 30) (hw : w < n)
    (hPlace : places w = .exclusive) :
    Agrees n { words with
        bits := words.bits &&& ~~~(RWSpinLock.writer ||| RWSpinLock.upgraded) }
      (Function.update places w .outside) { latches with writer := none } := by
  have hPerform : RWSpinLock.Access.unlock.perform (places w) words.bits =
      some (.outside, words.bits &&& ~~~(RWSpinLock.writer ||| RWSpinLock.upgraded)) := by
    rw [hPlace]
    rfl
  have hWriter : latches.writer = some w := (h.writer w).mpr hPlace
  refine ⟨h.flag, h.version, h.locked hn hw hPerform, fun w' => ?_, fun w' => ?_, h.nodup,
    h.few_update hw _⟩
  · show none = some w' ↔ _
    by_cases hEq : w' = w
    · subst hEq
      simp
    · rw [Function.update_of_ne hEq, ← h.writer w', hWriter]
      simp [Ne.symm hEq]
  · rw [h.readers w']
    by_cases hEq : w' = w
    · subst hEq
      simp [hPlace]
    · rw [Function.update_of_ne hEq]

/-- The other two latches do not touch the word of the `RWSpinLock`. -/
theorem beside (h : Agrees n words places latches) {place : RWSpinLock.Place}
    {latches' : Latches} (hPlace : places w = place) (hBits : words'.bits = words.bits)
    (hWriter : latches'.writer = latches.writer) (hReaders : latches'.readers = latches.readers)
    (hFlag : words'.flag = latches'.exclusive.isSome)
    (hVersion : words'.version = latches'.version % 2 ^ 32) :
    Agrees n words' (Function.update places w place) latches' := by
  refine Agrees.stay ⟨hFlag, hVersion, ?_, ?_, ?_, ?_, h.few⟩ hPlace
  · rw [hBits]
    exact h.lock
  · rw [hWriter]
    exact h.writer
  · rw [hReaders]
    exact h.readers
  · rw [hReaders]
    exact h.nodup

/-- An access either changes nothing on the contracts, or is the acquisition. -/
theorem access (h : Agrees n words places latches) (hn : n ≤ 2 ^ 30) (hw : w < n)
    {spurious : Bool} {attempt : Attempt} {progress : Progress}
    (hPlace : places w = attempt.lockPlace)
    (hExpected : ∀ version, attempt = .exchanging version → isLocked version = false)
    (hAccess : words.access spurious mode attempt = some (words', progress)) :
    (∃ attempt', progress = .again attempt' ∧
      Agrees n words' (Function.update places w attempt'.lockPlace) latches ∧
      ∀ version, attempt' = .exchanging version → isLocked version = false) ∨
    ∃ latches' version, progress = .acquired (version % 2 ^ 32) ∧
      latches.acquire w mode = some (latches', version) ∧
      Agrees n words' (Function.update places w (lockPlace mode)) latches' := by
  revert hAccess
  fun_cases Words.access words spurious mode attempt with
  | case1 =>
      rintro ⟨⟩
      exact .inr ⟨latches, 0, rfl, rfl, h.stay hPlace⟩
  | case2 =>
      rintro ⟨⟩
      refine .inl ⟨_, rfl, h.stay ?_, ?_⟩
      · rw [hPlace]
        split <;> rfl
      · split <;> nofun
  | case3 =>
      -- `compare_exchange_weak`
      intro hAccess
      split at hAccess
      · obtain ⟨rfl, rfl⟩ := Prod.mk.inj (Option.some.inj hAccess)
        exact .inl ⟨_, rfl, h.stay hPlace, nofun⟩
      · rename_i hTest
        obtain ⟨rfl, rfl⟩ := Prod.mk.inj (Option.some.inj hAccess)
        rw [Bool.or_eq_true, not_or, Bool.not_eq_true, h.flag, Option.isSome_eq_false_iff,
          Option.isNone_iff_eq_none] at hTest
        refine .inr ⟨_, 0, rfl, if_pos hTest.1, ?_⟩
        exact h.beside hPlace rfl rfl rfl rfl h.version
  | case4 =>
      -- `try_lock_shared()`
      rintro ⟨⟩
      split
      · rename_i hFree
        exact .inr ⟨_, 0, rfl, if_pos (h.free_of_flags hFree), h.lockShared hn hw hPlace hFree⟩
      · rename_i hTaken
        refine .inl ⟨_, rfl, h.aside (a := .tryLockShared) hn hw ?_ (.inl hPlace)
          (.inr rfl), nofun⟩
        rw [hPlace]
        exact congrArg some (Prod.ext (if_neg hTaken) rfl)
  | case5 =>
      rintro ⟨⟩
      refine .inl ⟨_, rfl, h.aside (a := .takeBack) hn hw ?_ (.inr hPlace) (.inl rfl), nofun⟩
      rw [hPlace]
      rfl
  | case6 =>
      -- `try_lock()` of the `RWSpinLock`
      intro hAccess
      split at hAccess
      · rename_i hZero
        obtain ⟨rfl, rfl⟩ := Prod.mk.inj (Option.some.inj hAccess)
        exact .inr ⟨_, 0, rfl, if_pos (h.free_of_zero hn hw hPlace hZero),
          h.lock_exclusive hn hw hPlace hZero⟩
      · obtain ⟨rfl, rfl⟩ := Prod.mk.inj (Option.some.inj hAccess)
        exact .inl ⟨_, rfl, h.stay hPlace, nofun⟩
  | case7 =>
      -- `read_valid()`
      rintro ⟨⟩
      split
      · exact .inl ⟨_, rfl, h.stay hPlace, nofun⟩
      · rename_i hFree
        rw [h.version, isLocked_wrap] at hFree
        exact .inr ⟨latches, latches.version, by rw [h.version], if_neg hFree, h.stay hPlace⟩
  | case8 =>
      rintro ⟨⟩
      refine .inr ⟨_, 0, rfl, rfl, h.beside hPlace rfl rfl rfl h.flag ?_⟩
      rw [h.version, version_add]
  | case9 =>
      rintro ⟨⟩
      refine .inl ⟨_, rfl, h.stay ?_, ?_⟩
      · rw [hPlace]
        split <;> rfl
      · intro version hEq
        split at hEq
        · exact nomatch hEq
        · rename_i hFree
          rw [← Attempt.exchanging.inj hEq]
          exact Bool.eq_false_iff.mpr hFree
  | case10 version =>
      -- `try_lock()` of the `OptimisticLock`
      intro hAccess
      split at hAccess
      · rename_i hSame
        obtain ⟨rfl, rfl⟩ := Prod.mk.inj (Option.some.inj hAccess)
        have hFree := hExpected version rfl
        rw [hSame, h.version, isLocked_wrap] at hFree
        refine .inr ⟨_, 0, rfl, if_neg (Bool.eq_false_iff.mp hFree),
          h.beside hPlace rfl rfl rfl h.flag ?_⟩
        rw [h.version, version_add]
      · obtain ⟨rfl, rfl⟩ := Prod.mk.inj (Option.some.inj hAccess)
        exact .inl ⟨_, rfl, h.stay hPlace, nofun⟩
  | case11 => rintro ⟨⟩

theorem release (h : Agrees n words places latches) (hn : n ≤ 2 ^ 30) (hw : w < n)
    (hPlace : places w = lockPlace mode) :
    Agrees n (words.release mode) (Function.update places w .outside)
      (latches.release w mode) := by
  cases mode with
  | plain => exact h.stay hPlace
  | optimisticRead => exact h.stay hPlace
  | exclusive => exact h.beside hPlace rfl rfl rfl rfl h.version
  | sharedRead => exact h.unlockShared hn hw hPlace
  | sharedWrite => exact h.unlock hn hw hPlace
  | optimisticWrite =>
      refine h.beside hPlace rfl rfl rfl h.flag ?_
      show (words.version + 0b10) % 2 ^ 32 = _
      rw [h.version, version_add]
      rfl
  | olfitWrite =>
      refine h.beside hPlace rfl rfl rfl h.flag ?_
      show (words.version + 0b10) % 2 ^ 32 = _
      rw [h.version, version_add]
      rfl

end Agrees

/-! ## The steps without latches -/

/-- What a step that leaves the latches alone does to worker `w`, one of `n`. -/
inductive Kept (n w : Nat) : Option (Execution R T) → Option (Execution R T) → Prop where
  | idle : Kept n w none none
  | taken {e : Execution R T} : w < n → e.phase = .start → Kept n w none (some e)
  | same {e e' : Execution R T} : e'.annotations = e.annotations →
      (e'.phase = .start ↔ e.phase = .start) → e'.phase.version = e.phase.version →
      Kept n w (some e) (some e')

theorem Kept.refl (n w : Nat) (x : Option (Execution R T)) : Kept n w x x := by
  cases x with
  | none => exact .idle
  | some e => exact .same rfl Iff.rfl rfl

/-- One worker goes on, and the others are kept. -/
theorem kept_update {n w : Nat} {workers : Nat → Option (Execution R T)}
    {x : Option (Execution R T)} (h : Kept n w (workers w) x) (w' : Nat) :
    Kept n w' (workers w') (Function.update workers w x w') := by
  by_cases hw : w' = w
  · subst hw
    rw [Function.update_self]
    exact h
  · rw [Function.update_of_ne hw]
    exact Kept.refl n w' _

section Steps

variable [DecidableEq R] [DecidableEq T] {info : R → Information} {n : Nat}
  {s s' : Isolation.State R T} {event : Isolation.Event R T} {base : Isolation.State R T}

/-- A step that leaves the latches alone is the same on the contracts. -/
theorem unwrap_step (hLeaves : LeavesLatches n event)
    (hStep : Isolation.Step info s.wrap event base) :
    ∃ s', Isolation.Step info s event s' ∧ s'.wrap = base ∧ s'.latches = s.latches ∧
      ∀ w, Kept n w (s.workers w) (s'.workers w) := by
  cases hStep with
  | scheduleFrom hChannel =>
      exact ⟨_, .scheduleFrom hChannel, rfl, rfl, fun w => Kept.refl n w _⟩
  | schedule hChannel => exact ⟨_, .schedule hChannel, rfl, rfl, fun w => Kept.refl n w _⟩
  | @take w task hIdle hTask =>
      have hNone := Isolation.State.wrap_workers_none.mp hIdle
      refine ⟨_, .take hNone hTask, ?_, rfl, kept_update ?_⟩
      · simp only [Isolation.State.wrap, Isolation.wrap_update]
        rfl
      · rw [hNone]
        exact .taken hLeaves rfl
  | @enter w e version overlapped hWorker hPhase hOverlap =>
      obtain ⟨e, hWorker', rfl⟩ := Isolation.State.of_wrap_workers hWorker
      obtain ⟨version', hPhase', rfl⟩ := Phase.of_wrap_ready hPhase
      have hOverlap' : overlapped = true ↔
          ∃ r w', e.On r ∧ w' ≠ w ∧ s.WriterInside w' r := by
        rw [hOverlap]
        simp only [Isolation.State.wrap_writerInside]
        rfl
      refine ⟨_, .enter hWorker' hPhase' hOverlap', ?_, rfl, fun w' => ?_⟩
      · simp only [Isolation.State.wrap, Isolation.wrap_update, Option.map_map]
        congr 2
        funext w'
        cases s.workers w' with
        | none => rfl
        | some other => exact congrArg some (Execution.notice_wrap e other).symm
      · dsimp only
        by_cases hw : w' = w
        · subst hw
          rw [hWorker', Function.update_self]
          exact .same rfl (by simp [hPhase']) (by rw [hPhase']; rfl)
        · rw [Function.update_of_ne hw]
          cases s.workers w' with
          | none => exact .idle
          | some other => exact .same (by simp) (by simp) (by simp)
  | annotate hWorker hInside hTask =>
      obtain ⟨e, hWorker', rfl⟩ := Isolation.State.of_wrap_workers hWorker
      exact ⟨_, .annotate hWorker' (Phase.wrap_isInside.mp hInside) hTask, rfl, rfl,
        fun w => Kept.refl n w _⟩
  | @leave w e version overlapped hWorker hPhase =>
      obtain ⟨e, hWorker', rfl⟩ := Isolation.State.of_wrap_workers hWorker
      obtain ⟨version', hPhase', rfl⟩ := Phase.of_wrap_inside hPhase
      refine ⟨_, .leave hWorker' hPhase', ?_, rfl, kept_update ?_⟩
      · simp only [Isolation.State.wrap, Isolation.wrap_update]
        rfl
      · rw [hWorker']
        exact .same rfl (by simp [hPhase']) (by rw [hPhase']; rfl)
  | acquire => exact hLeaves.elim
  | accept => exact hLeaves.elim
  | retry => exact hLeaves.elim

end Steps

/-! ## The words follow the contracts -/

/-- The worker synchronises before or after `execute()`. -/
def Synchronises (w : Nat) : Isolation.Event R T → Prop
  | .acquire w' | .accept w' | .retry w' => w' = w
  | _ => False

/-- The end of a task. -/
def isAccept : Isolation.Event R T → Bool
  | .accept _ => true
  | _ => false

/-- While a worker is in `execute()`, fewer than `2 ^ 30` tasks come to their end. -/
def Brief (log : List (Isolation.Event R T)) : Prop :=
  ∀ w before window after, log = before ++ .acquire w :: (window ++ after) →
    (∀ event ∈ window, ¬ Synchronises w event) → window.countP isAccept < 2 ^ 30

theorem not_synchronises {n w : Nat} {event : Isolation.Event R T} (h : LeavesLatches n event) :
    ¬ Synchronises w event := by
  cases event with
  | acquire | accept | retry => exact h.elim
  | _ => exact id

theorem Brief.prefix {log : List (Isolation.Event R T)} {event : Isolation.Event R T}
    (h : Brief (log ++ [event])) :
    Brief log := by
  intro w before window after hLog hWindow
  refine h w before window (after ++ [event]) ?_ hWindow
  rw [hLog]
  simp

theorem brief_of_short {log : List (Isolation.Event R T)} (h : log.length < 2 ^ 30) :
    Brief log := by
  intro w before window after hLog _
  have hLength := congrArg List.length hLog
  simp only [List.length_append, List.length_cons] at hLength
  have hCount : window.countP isAccept ≤ window.length := List.countP_le_length
  omega

/-- `log` ends with a window in which worker `w` has not synchronised and in which the version has
moved on from `version` by one section for each task that came to its end. -/
def Recent (log : List (Isolation.Event R T)) (w version now : Nat) : Prop :=
  ∃ before window, log = before ++ .acquire w :: window ∧
    (∀ event ∈ window, ¬ Synchronises w event) ∧
    now / 4 ≤ version / 4 + window.countP isAccept

theorem Recent.snoc {log : List (Isolation.Event R T)} {event : Isolation.Event R T}
    {w version now now' : Nat}
    (h : Recent log w version now) (hOther : ¬ Synchronises w event)
    (hNow : now' / 4 ≤ now / 4 + [event].countP isAccept) :
    Recent (log ++ [event]) w version now' := by
  obtain ⟨before, window, rfl, hWindow, hBound⟩ := h
  refine ⟨before, window ++ [event], by simp, ?_, ?_⟩
  · intro event' hMem
    rcases List.mem_append.mp hMem with hMem | hMem
    · exact hWindow event' hMem
    · rw [List.mem_singleton.mp hMem]
      exact hOther
  · rw [List.countP_append]
    omega

section Follows

variable [DecidableEq R]

section Versions

variable {info : R → Information} {s : Isolation.State R T} {w : Nat} {e : Execution R T}
  {latches : R → Latches} {version : Nat}

/-- The latches of `r` after the acquisition. -/
theorem acquire_of_on {r : R} (hOn : e.On r)
    (hAcquire : s.acquire info w e = some (latches, version)) :
    ∃ latches', (s.latches r).acquire w (dispatch info w e.annotations) = some (latches', version) ∧
      latches = Function.update s.latches r latches' := by
  have hTarget : e.annotations.target = .resource r := hOn
  rw [Isolation.State.acquire, hTarget] at hAcquire
  obtain ⟨⟨latches', version'⟩, hLatches, hEq⟩ := Option.map_eq_some_iff.mp hAcquire
  obtain ⟨rfl, rfl⟩ := Prod.mk.inj hEq
  exact ⟨latches', hLatches, rfl⟩

/-- An optimistic read remembers the version. -/
theorem acquire_version {r : R} (hAcquire : s.acquire info w e = some (latches, version))
    (hOn : e.On r) (hMode : dispatch info w e.annotations = .optimisticRead) :
    (latches r).version = version := by
  obtain ⟨latches', hLatches, rfl⟩ := acquire_of_on hOn hAcquire
  rw [hMode] at hLatches
  obtain ⟨-, hEq⟩ := Option.ite_none_left_eq_some.mp hLatches
  obtain ⟨rfl, rfl⟩ := Prod.mk.inj (Option.some.inj hEq)
  rw [Function.update_self]

/-- An acquisition ends no section. -/
theorem acquire_sections (hInv : Isolation.Inv info s) (hWorker : s.workers w = some e)
    (hStart : e.phase = .start) (hAcquire : s.acquire info w e = some (latches, version)) (r : R) :
    (latches r).version / 4 = (s.latches r).version / 4 := by
  by_cases hOn : e.On r
  · obtain ⟨latches', hLatches, rfl⟩ := acquire_of_on hOn hAcquire
    rw [Function.update_self, Latches.acquire_version hLatches]
    split
    · rename_i hLocks
      exact sections_of_unlocked (Latches.acquire_unlocked hLatches
        (hInv.unlocked hWorker hOn hStart) hLocks)
    · rfl
  · unfold Isolation.State.acquire at hAcquire
    split at hAcquire
    · rename_i r' hTarget
      obtain ⟨⟨latches', version'⟩, hLatches, hEq⟩ := Option.map_eq_some_iff.mp hAcquire
      obtain ⟨rfl, rfl⟩ := Prod.mk.inj hEq
      have hne : r ≠ r' := by
        rintro rfl
        exact hOn hTarget
      rw [Function.update_of_ne hne]
    · obtain ⟨rfl, rfl⟩ := Prod.mk.inj (Option.some.inj hAcquire)
      rfl

/-- A release ends one at most. -/
theorem release_sections (info : R → Information) (s : Isolation.State R T) (w : Nat)
    (e : Execution R T) (r : R) :
    (s.release info w e r).version / 4 ≤ (s.latches r).version / 4 + 1 := by
  by_cases hOn : e.On r
  · rw [Isolation.State.release_of_on hOn, Function.update_self, Latches.release_version]
    split <;> omega
  · cases hTarget : e.annotations.target with
    | resource r' =>
        have hne : r ≠ r' := by
          rintro rfl
          exact hOn hTarget
        simp only [Isolation.State.release, hTarget, Function.update_of_ne hne]
        exact Nat.le_succ _
    | _ =>
        simp only [Isolation.State.release, hTarget]
        exact Nat.le_succ _

end Versions

/-- Where a worker is in the code of the `RWSpinLock` of `r`. -/
def placeOf (info : R → Information) (r : R) (w : Nat) (attempt : Attempt) :
    Option (Execution R T) → RWSpinLock.Place
  | none => .outside
  | some e =>
      if e.annotations.target = .resource r then
        if e.phase = .start then attempt.lockPlace else lockPlace (dispatch info w e.annotations)
      else .outside

/-- The state `s` of the contracts shows the same as the words of `c`. -/
structure Follows (info : R → Information) (n : Nat) (log : List (Isolation.Event R T))
    (c : State R T) (s : Isolation.State R T) : Prop where
  wrap : s.wrap = c.base
  agrees : ∀ r, Agrees n (c.words r) (fun w => placeOf info r w (c.attempts w) (s.workers w))
    (s.latches r)
  expected : ∀ w version, c.attempts w = .exchanging version → isLocked version = false
  fresh : ∀ w, (∀ e, s.workers w = some e → e.phase ≠ .start) → c.attempts w = .fresh
  few : ∀ w e, s.workers w = some e → w < n
  recent : ∀ w e r, s.workers w = some e → e.On r → e.phase ≠ .start →
    dispatch info w e.annotations = .optimisticRead →
    Recent log w e.phase.version (s.latches r).version

theorem follows_initial (info : R → Information) (n : Nat) (annotations : T → Annotations R) :
    Follows info n [] (State.initial annotations) (Isolation.State.initial annotations) where
  wrap := rfl
  agrees _ := Agrees.initial n
  expected _ _ h := nomatch h
  fresh _ _ := rfl
  few _ _ h := nomatch h
  recent _ _ _ h := nomatch h

/-- One worker moves in the code of the lock. -/
theorem placeOf_update (info : R → Information) (r : R) (w : Nat) (attempts : Nat → Attempt)
    (workers : Nat → Option (Execution R T)) (attempt : Attempt) (x : Option (Execution R T)) :
    (fun w' => placeOf info r w' (Function.update attempts w attempt w')
        (Function.update workers w x w')) =
      Function.update (fun w' => placeOf info r w' (attempts w') (workers w')) w
        (placeOf info r w attempt x) := by
  funext w'
  by_cases hw : w' = w
  · subst hw
    rw [Function.update_self, Function.update_self, Function.update_self]
  · rw [Function.update_of_ne hw, Function.update_of_ne hw, Function.update_of_ne hw]

section Release

variable {info : R → Information} {c : State R T} {s : Isolation.State R T} {w : Nat}
  {e : Execution R T} {r : R}

theorem release_of_on (hOn : e.On r) : c.release info w e.wrap =
    Function.update c.words r ((c.words r).release (dispatch info w e.annotations)) := by
  have hTarget : e.wrap.annotations.target = .resource r := hOn
  rw [State.release, hTarget]
  rfl

theorem release_of_not_on (hOn : ∀ r, ¬ e.On r) : c.release info w e.wrap = c.words := by
  unfold State.release
  split
  · rename_i r hTarget
    exact absurd hTarget (hOn r)
  · rfl

omit [DecidableEq R] in
/-- Only an optimistic read is tried again. -/
theorem optimisticRead_of_not_accepts (h : s.accepts info w e = false) :
    dispatch info w e.annotations = .optimisticRead := by
  unfold Isolation.State.accepts at h
  split at h
  · rw [Bool.or_eq_false_iff] at h
    simpa using h.1
  · exact nomatch h

end Release

section Places

variable {info : R → Information} {r : R} {w : Nat} {attempt : Attempt} {e : Execution R T}

theorem placeOf_start (hOn : e.On r) (hPhase : e.phase = .start) :
    placeOf info r w attempt (some e) = attempt.lockPlace := by
  have hTarget : e.annotations.target = .resource r := hOn
  rw [placeOf, if_pos hTarget, if_pos hPhase]

theorem placeOf_held (hOn : e.On r) (hPhase : e.phase ≠ .start) :
    placeOf info r w attempt (some e) = lockPlace (dispatch info w e.annotations) := by
  have hTarget : e.annotations.target = .resource r := hOn
  rw [placeOf, if_pos hTarget, if_neg hPhase]

/-- A worker is outside of the latches of all other resources. -/
theorem placeOf_not_on (hOn : ¬ e.On r) : placeOf info r w attempt (some e) = .outside :=
  if_neg hOn

end Places

theorem placeOf_kept {info : R → Information} {r : R} {n w : Nat} {attempt : Attempt}
    {x x' : Option (Execution R T)} (h : Kept n w x x') (hFresh : x = none → attempt = .fresh) :
    placeOf info r w attempt x' = placeOf info r w attempt x := by
  cases h with
  | idle => rfl
  | @taken e hw hStart =>
      rw [hFresh rfl]
      by_cases hOn : e.On r
      · rw [placeOf_start hOn hStart]
        rfl
      · exact placeOf_not_on hOn
  | same hAnnotations hStart _ => rw [placeOf, placeOf, hAnnotations, if_congr hStart rfl rfl]

variable {info : R → Information} {n : Nat} {log : List (Isolation.Event R T)}
  {c : State R T} {s : Isolation.State R T} {event : Isolation.Event R T}

namespace Follows

/-- A worker with a task on `r` moves in the code of the latches of `r`. -/
theorem move (h : Follows info n log c s) {w : Nat} {e : Execution R T} {r : R} {words : Words}
    {latches : Latches} {a : Attempt} {x : Option (Execution R T)}
    (hWorker : s.workers w = some e) (hOn : e.On r)
    (hHere : Agrees n words (Function.update
      (fun w' => placeOf info r w' (c.attempts w') (s.workers w')) w (placeOf info r w a x))
      latches)
    (hThere : ∀ r', r' ≠ r → placeOf info r' w a x = .outside) (r' : R) :
    Agrees n (Function.update c.words r words r')
      (fun w' => placeOf info r' w' (Function.update c.attempts w a w')
        (Function.update s.workers w x w'))
      (Function.update s.latches r latches r') := by
  rw [placeOf_update]
  by_cases hr : r' = r
  · subst hr
    rw [Function.update_self, Function.update_self]
    exact hHere
  · rw [Function.update_of_ne hr, Function.update_of_ne hr, hThere r' hr]
    refine (h.agrees r').stay ?_
    rw [hWorker]
    exact placeOf_not_on fun hOn' => hr (Target.resource.inj (hOn'.symm.trans hOn))

/-- A worker with a task without a resource moves. -/
theorem moveFree (h : Follows info n log c s) {w : Nat} {e : Execution R T} {a : Attempt}
    {x : Option (Execution R T)} (hWorker : s.workers w = some e) (hOn : ∀ r, ¬ e.On r)
    (hFree : ∀ r, placeOf info r w a x = .outside) (r : R) :
    Agrees n (c.words r)
      (fun w' => placeOf info r w' (Function.update c.attempts w a w')
        (Function.update s.workers w x w')) (s.latches r) := by
  rw [placeOf_update, hFree r]
  refine (h.agrees r).stay ?_
  rw [hWorker]
  exact placeOf_not_on (hOn r)

/-- What an access before `execute()` is on the contracts. -/
theorem access (h : Follows info n log c s) (hn : n ≤ 2 ^ 30) {w : Nat} {e : Execution R T}
    {spurious : Bool} {words : R → Words} {progress : Progress} (hWorker : s.workers w = some e)
    (hStart : e.phase = .start)
    (hAccess : c.access info spurious w e.wrap = some (words, progress)) :
    (∃ attempt, progress = .again attempt ∧
      (∀ r, Agrees n (words r)
        (fun w' => placeOf info r w' (Function.update c.attempts w attempt w') (s.workers w'))
        (s.latches r)) ∧
      ∀ version, attempt = .exchanging version → isLocked version = false) ∨
    ∃ latches version, progress = .acquired (version % 2 ^ 32) ∧
      s.acquire info w e = some (latches, version) ∧
      ∀ r, Agrees n (words r)
        (fun w' => placeOf info r w' (Function.update c.attempts w .fresh w')
          (Function.update s.workers w (some { e with phase := .ready version }) w'))
        (latches r) := by
  have hw : w < n := h.few w e hWorker
  unfold State.access at hAccess
  unfold Isolation.State.acquire
  split at hAccess
  · rename_i r hTarget
    have hOn : e.On r := hTarget
    obtain ⟨⟨words', progress'⟩, hWords, hEq⟩ := Option.map_eq_some_iff.mp hAccess
    obtain ⟨rfl, rfl⟩ := Prod.mk.inj hEq
    have hPlace : placeOf info r w (c.attempts w) (s.workers w) = (c.attempts w).lockPlace := by
      rw [hWorker, placeOf_start hOn hStart]
    rcases (h.agrees r).access hn hw hPlace (h.expected w) hWords with
      ⟨attempt, rfl, hAgrees, hExpected⟩ | ⟨latches, version, rfl, hAcquire, hAgrees⟩
    · refine .inl ⟨attempt, rfl, fun r' => ?_, hExpected⟩
      rw [← placeOf_start hOn hStart] at hAgrees
      have hMove := h.move hWorker hOn hAgrees fun r'' hr => placeOf_not_on
        fun hOn' => hr (Target.resource.inj (hOn'.symm.trans hOn))
      have hMove' := hMove r'
      rw [← hWorker, Function.update_eq_self, Function.update_eq_self] at hMove'
      exact hMove'
    · refine .inr ⟨Function.update s.latches r latches, version, rfl, ?_, ?_⟩
      · have hTarget' : e.annotations.target = .resource r := hTarget
        have hAcquire' : (s.latches r).acquire w (dispatch info w e.annotations) =
          some (latches, version) := hAcquire
        rw [hTarget']
        dsimp only
        rw [hAcquire']
        rfl
      · have hOn' : Execution.On { e with phase := .ready version } r := hTarget
        refine h.move hWorker hOn ?_ fun r'' hr => placeOf_not_on
          fun hOn'' => hr (Target.resource.inj (hOn''.symm.trans hOn))
        rw [placeOf_held hOn' nofun]
        exact hAgrees
  · rename_i hTarget
    obtain ⟨rfl, rfl⟩ := Prod.mk.inj (Option.some.inj hAccess)
    have hNone : ∀ r, ¬ e.On r := hTarget
    refine .inr ⟨s.latches, 0, rfl, ?_, ?_⟩
    · split
      · rename_i r hTarget'
        exact absurd hTarget' (hNone r)
      · rfl
    · exact h.moveFree hWorker hNone fun r => placeOf_not_on (hNone r)

/-- An access that is not the last one. -/
theorem again (h : Follows info n log c s) (hn : n ≤ 2 ^ 30) {w : Nat} {e : Execution R T}
    {spurious : Bool} {words : R → Words} {attempt : Attempt}
    (hWorker : c.base.workers w = some e) (hStart : e.phase = .start)
    (hAccess : c.access info spurious w e = some (words, .again attempt)) :
    Follows info n (log ++ [.acquire w])
      { c with words := words, attempts := Function.update c.attempts w attempt } s := by
  rw [← h.wrap] at hWorker
  obtain ⟨e, hWorker', rfl⟩ := Isolation.State.of_wrap_workers hWorker
  have hStart' : e.phase = .start := Phase.wrap_eq_start.mp hStart
  rcases h.access hn hWorker' hStart' hAccess with ⟨_, hEq, hAgrees, hExpected⟩ | ⟨_, _, hEq, _⟩
  · obtain rfl := Progress.again.inj hEq
    refine ⟨h.wrap, hAgrees, fun w' version hEq' => ?_, fun w' hPhase => ?_, h.few,
      fun w' e' r hWorker'' hOn hPhase hMode => ?_⟩
    · rcases update_cases hEq' with ⟨_, hNew⟩ | ⟨_, hOld⟩
      · exact hExpected version hNew.symm
      · exact h.expected w' version hOld
    · have hne : w' ≠ w := by
        rintro rfl
        exact hPhase e hWorker' hStart'
      show Function.update c.attempts w attempt w' = _
      rw [Function.update_of_ne hne]
      exact h.fresh w' hPhase
    · refine (h.recent w' e' r hWorker'' hOn hPhase hMode).snoc ?_ (Nat.le_add_right _ _)
      rintro rfl
      rw [hWorker', Option.some.injEq] at hWorker''
      exact hPhase (hWorker'' ▸ hStart')
  · exact nomatch hEq

/-- The versions agree on the words exactly if they do on the contracts. -/
theorem accepts_iff (h : Follows info n log c s) (hInv : Isolation.Inv info s) (hBrief : Brief log)
    {w : Nat} {e : Execution R T} (hWorker : s.workers w = some e) (hPhase : e.phase ≠ .start) :
    c.accepts info w e.wrap = s.accepts info w e := by
  unfold State.accepts Isolation.State.accepts
  split
  · rename_i r hTarget
    have hOn : e.On r := hTarget
    have hTarget' : e.annotations.target = .resource r := hTarget
    rw [hTarget']
    by_cases hMode : dispatch info w e.annotations = .optimisticRead
    · have hShows := hInv.held.shows w _ (Isolation.State.hold_of_on hWorker hOn hPhase)
      rw [hMode] at hShows
      have hLe : e.phase.version ≤ (s.latches r).version := hShows.2
      obtain ⟨before, window, rfl, hWindow, hBound⟩ := h.recent w e r hWorker hOn hPhase hMode
      have hFew := hBrief w before window [] (by rw [List.append_nil]) hWindow
      have hVersion : (e.wrap.phase.version = (c.words r).version) =
          (e.phase.version = (s.latches r).version) := by
        rw [show e.wrap.phase.version = e.phase.version % 2 ^ 32 from Phase.wrap_version,
          (h.agrees r).version, eq_iff_iff]
        omega
      simp only [hVersion]
      rfl
    · have hMode' : dispatch info w e.wrap.annotations ≠ .optimisticRead := hMode
      simp [hMode, hMode']
  · rename_i hTarget
    split
    · rename_i r hTarget'
      exact absurd hTarget' (hTarget r)
    · rfl

variable [DecidableEq T]

/-- A step that leaves the latches alone. -/
theorem other {base : Isolation.State R T} (h : Follows info n log c s)
    (hLeaves : LeavesLatches n event) (hStep : Isolation.Step info c.base event base) :
    ∃ s', Isolation.Step info s event s' ∧
      Follows info n (log ++ [event]) { c with base := base } s' := by
  rw [← h.wrap] at hStep
  obtain ⟨s', hStep', hWrap, hLatches, hKept⟩ := unwrap_step hLeaves hStep
  refine ⟨s', hStep', hWrap, fun r => ?_, h.expected, fun w hPhase => ?_, fun w e' hWorker => ?_,
    fun w e' r hWorker hOn hPhase hMode => ?_⟩
  · rw [hLatches]
    refine (congrArg (Agrees n (c.words r) · (s.latches r)) (funext fun w => ?_)).mpr (h.agrees r)
    refine placeOf_kept (hKept w) fun hNone => h.fresh w fun e hWorker => ?_
    rw [hNone] at hWorker
    exact nomatch hWorker
  · refine h.fresh w fun e hWorker => ?_
    have hKeptW := hKept w
    rw [hWorker] at hKeptW
    cases hWorker' : s'.workers w with
    | none => rw [hWorker'] at hKeptW; exact nomatch hKeptW
    | some e' =>
        rw [hWorker'] at hKeptW
        cases hKeptW with
        | same _ hStart _ => exact fun hEq => hPhase e' hWorker' (hStart.mpr hEq)
  · have hKeptW := hKept w
    rw [hWorker] at hKeptW
    cases hWorker' : s.workers w with
    | none =>
        rw [hWorker'] at hKeptW
        cases hKeptW with
        | taken hw _ => exact hw
    | some e => exact h.few w e hWorker'
  · have hKeptW := hKept w
    rw [hWorker] at hKeptW
    generalize hWorker' : s.workers w = x at hKeptW
    cases hKeptW with
    | taken _ hStart => exact absurd hStart hPhase
    | @same e _ hAnnotations hStart hVersion =>
        rw [hVersion, hLatches]
        have hOld := h.recent w e r hWorker' (by rw [Execution.On, ← hAnnotations]; exact hOn)
          (fun hEq => hPhase (hStart.mpr hEq)) (by rw [← hAnnotations]; exact hMode)
        exact hOld.snoc (not_synchronises hLeaves) (Nat.le_add_right _ _)

/-- The acquisition. -/
theorem acquired (h : Follows info n log c s) (hInv : Isolation.Inv info s) (hn : n ≤ 2 ^ 30)
    {w : Nat} {e : Execution R T} {spurious : Bool} {words : R → Words} {version : Nat}
    (hWorker : c.base.workers w = some e) (hStart : e.phase = .start)
    (hAccess : c.access info spurious w e = some (words, .acquired version)) :
    ∃ s', Isolation.Step info s (.acquire w) s' ∧ Follows info n (log ++ [.acquire w])
      { base := { c.base with
          workers := Function.update c.base.workers w (some { e with phase := .ready version }) }
        words := words
        attempts := Function.update c.attempts w .fresh } s' := by
  rw [← h.wrap] at hWorker
  obtain ⟨e, hWorker', rfl⟩ := Isolation.State.of_wrap_workers hWorker
  have hStart' : e.phase = .start := Phase.wrap_eq_start.mp hStart
  rcases h.access hn hWorker' hStart' hAccess with
    ⟨_, hEq, _⟩ | ⟨latches, version, hEq, hAcquire, hAgrees⟩
  · exact nomatch hEq
  · obtain rfl := Progress.acquired.inj hEq
    refine ⟨_, .acquire hWorker' hStart' hAcquire, ?_, hAgrees, fun w' version' hEq' => ?_,
      fun w' hPhase => ?_, fun w' e' hWorker'' => ?_, fun w' e' r hWorker'' hOn hPhase hMode => ?_⟩
    · simp only [← h.wrap, Isolation.State.wrap, Isolation.wrap_update]
      rfl
    · rcases update_cases hEq' with ⟨_, hNew⟩ | ⟨_, hOld⟩
      · exact nomatch hNew
      · exact h.expected w' version' hOld
    · by_cases hw : w' = w
      · subst hw
        exact Function.update_self ..
      · show Function.update c.attempts w .fresh w' = _
        rw [Function.update_of_ne hw]
        refine h.fresh w' fun e' hOther => hPhase e' ?_
        exact (Function.update_of_ne hw _ _).trans hOther
    · rcases update_cases hWorker'' with ⟨rfl, _⟩ | ⟨_, hOld⟩
      · exact h.few w' e hWorker'
      · exact h.few w' e' hOld
    · rcases update_cases hWorker'' with ⟨rfl, hNew⟩ | ⟨hw, hOld⟩
      · obtain rfl := Option.some.inj hNew
        refine ⟨log, [], rfl, List.forall_mem_nil _, Nat.le_of_eq ?_⟩
        rw [acquire_version hAcquire hOn hMode]
        rfl
      · refine (h.recent w' e' r hOld hOn hPhase hMode).snoc (fun hEq' => hw hEq'.symm) ?_
        rw [acquire_sections hInv hWorker' hStart' hAcquire]
        exact Nat.le_add_right _ _

/-- The end of a task. -/
theorem accept (h : Follows info n log c s) (hInv : Isolation.Inv info s) (hBrief : Brief log)
    (hn : n ≤ 2 ^ 30) {w : Nat} {e : Execution R T} {version : Nat} {overlapped : Bool}
    (hWorker : c.base.workers w = some e) (hPhase : e.phase = .returned version overlapped)
    (hAccepts : c.accepts info w e = true) :
    ∃ s', Isolation.Step info s (.accept w) s' ∧ Follows info n (log ++ [.accept w])
      { c with
        base := { c.base with
          workers := Function.update c.base.workers w none
          accepted := e :: c.base.accepted }
        words := c.release info w e } s' := by
  rw [← h.wrap] at hWorker
  obtain ⟨e, hWorker', rfl⟩ := Isolation.State.of_wrap_workers hWorker
  obtain ⟨version', hPhase', rfl⟩ := Phase.of_wrap_returned hPhase
  have hReturned : e.phase ≠ .start := by rw [hPhase']; nofun
  rw [h.accepts_iff hInv hBrief hWorker' hReturned] at hAccepts
  have hFresh : c.attempts w = .fresh := by
    refine h.fresh w fun e' hOther => ?_
    rw [hWorker', Option.some.injEq] at hOther
    exact hOther ▸ hReturned
  refine ⟨_, .accept hWorker' hPhase' hAccepts, ?_, fun r => ?_, h.expected, fun w' hOthers => ?_,
    fun w' e' hWorker'' => ?_, fun w' e' r hWorker'' hOn hPhase'' hMode => ?_⟩
  · simp only [← h.wrap, Isolation.State.wrap, Isolation.wrap_update]
    rfl
  · have hAttempts := (Function.update_eq_self w c.attempts).symm
    by_cases hResource : ∃ r', e.On r'
    · obtain ⟨r', hOn⟩ := hResource
      have hPlace : placeOf info r' w (c.attempts w) (s.workers w) =
          lockPlace (dispatch info w e.annotations) := by
        rw [hWorker', placeOf_held hOn hReturned]
      have hHere := (h.agrees r').release hn (h.few w e hWorker') hPlace
      have hMove := h.move (a := c.attempts w) (x := none) hWorker' hOn hHere
        (fun _ _ => rfl) r
      rw [Function.update_eq_self] at hMove
      rw [Isolation.State.release_of_on hOn, release_of_on hOn]
      exact hMove
    · have hNone : ∀ r', ¬ e.On r' := fun r' hOn => hResource ⟨r', hOn⟩
      have hMove := h.moveFree (a := c.attempts w) (x := none) hWorker' hNone
        (fun _ => rfl) r
      rw [Function.update_eq_self] at hMove
      rw [Isolation.State.release_of_not_on hNone, release_of_not_on hNone]
      exact hMove
  · by_cases hw : w' = w
    · rw [hw]
      exact hFresh
    · refine h.fresh w' fun e' hOther => hOthers e' ?_
      exact (Function.update_of_ne hw _ _).trans hOther
  · exact h.few w' e' (update_elsewhere hWorker'' nofun).2
  · obtain ⟨hw, hOld⟩ := update_elsewhere hWorker'' nofun
    refine (h.recent w' e' r hOld hOn hPhase'' hMode).snoc (fun hEq => hw hEq.symm) ?_
    exact release_sections info s w e r

/-- Another try of an optimistic read. -/
theorem retry (h : Follows info n log c s) (hInv : Isolation.Inv info s) (hBrief : Brief log)
    {w : Nat} {e : Execution R T} {version : Nat} {overlapped : Bool}
    (hWorker : c.base.workers w = some e) (hPhase : e.phase = .returned version overlapped)
    (hAccepts : c.accepts info w e = false) :
    ∃ s', Isolation.Step info s (.retry w) s' ∧ Follows info n (log ++ [.retry w])
      { c with
        base := { c.base with
          annotations := Function.update c.base.annotations e.task e.annotations
          workers := Function.update c.base.workers w (some { e with phase := .start }) } } s' := by
  rw [← h.wrap] at hWorker
  obtain ⟨e, hWorker', rfl⟩ := Isolation.State.of_wrap_workers hWorker
  obtain ⟨version', hPhase', rfl⟩ := Phase.of_wrap_returned hPhase
  have hReturned : e.phase ≠ .start := by rw [hPhase']; nofun
  rw [h.accepts_iff hInv hBrief hWorker' hReturned] at hAccepts
  have hFresh : c.attempts w = .fresh := by
    refine h.fresh w fun e' hOther => ?_
    rw [hWorker', Option.some.injEq] at hOther
    exact hOther ▸ hReturned
  refine ⟨_, .retry hWorker' hPhase' hAccepts, ?_, fun r => ?_, h.expected, fun w' hOthers => ?_,
    fun w' e' hWorker'' => ?_, fun w' e' r hWorker'' hOn hPhase'' hMode => ?_⟩
  · simp only [← h.wrap, Isolation.State.wrap, Isolation.wrap_update]
    rfl
  · -- an optimistic read holds no latch that a place could tell of
    have hBefore : placeOf info r w (c.attempts w) (s.workers w) = .outside := by
      rw [hWorker']
      by_cases hOn : e.On r
      · rw [placeOf_held hOn hReturned, optimisticRead_of_not_accepts hAccepts]
        rfl
      · exact placeOf_not_on hOn
    have hAfter : placeOf info r w (c.attempts w) (some { e with phase := .start }) =
        .outside := by
      rw [hFresh]
      by_cases hOn : e.On r
      · exact placeOf_start hOn rfl
      · exact placeOf_not_on hOn
    have hStay := (h.agrees r).stay hBefore
    rw [← hAfter, ← placeOf_update, Function.update_eq_self] at hStay
    exact hStay
  · by_cases hw : w' = w
    · rw [hw]
      exact hFresh
    · refine h.fresh w' fun e' hOther => hOthers e' ?_
      exact (Function.update_of_ne hw _ _).trans hOther
  · rcases update_cases hWorker'' with ⟨rfl, _⟩ | ⟨_, hOld⟩
    · exact h.few w' e hWorker'
    · exact h.few w' e' hOld
  · rcases update_cases hWorker'' with ⟨rfl, hNew⟩ | ⟨hw, hOld⟩
    · obtain rfl := Option.some.inj hNew
      exact absurd rfl hPhase''
    · exact (h.recent w' e' r hOld hOn hPhase'' hMode).snoc (fun hEq => hw hEq.symm)
        (Nat.le_add_right _ _)

/-- A step on the words is none on the contracts, or the same one. -/
theorem step {c' : State R T} (h : Follows info n log c s) (hInv : Isolation.Inv info s)
    (hBrief : Brief log) (hn : n ≤ 2 ^ 30) (hStep : Step info n c event c') :
    ∃ s', (s' = s ∨ Isolation.Step info s event s') ∧
      Follows info n (log ++ [event]) c' s' := by
  cases hStep with
  | other _ hLeaves hOther =>
      obtain ⟨s', hStep', hFollows⟩ := h.other hLeaves hOther
      exact ⟨s', .inr hStep', hFollows⟩
  | again _ hWorker hStart hAccess => exact ⟨s, .inl rfl, h.again hn hWorker hStart hAccess⟩
  | acquired _ hWorker hStart hAccess =>
      obtain ⟨s', hStep', hFollows⟩ := h.acquired hInv hn hWorker hStart hAccess
      exact ⟨s', .inr hStep', hFollows⟩
  | accept hWorker hPhase hAccepts =>
      obtain ⟨s', hStep', hFollows⟩ := h.accept hInv hBrief hn hWorker hPhase hAccepts
      exact ⟨s', .inr hStep', hFollows⟩
  | retry hWorker hPhase hAccepts =>
      obtain ⟨s', hStep', hFollows⟩ := h.retry hInv hBrief hWorker hPhase hAccepts
      exact ⟨s', .inr hStep', hFollows⟩

end Follows

end Follows

/-! ## Every run -/

section Runs

variable [DecidableEq R] [DecidableEq T] {info : R → Information} {n : Nat}
  {log : List (Isolation.Event R T)} {c : State R T} {annotations : T → Annotations R}

/-- The induction over the run. -/
theorem Follows.run (hn : n ≤ 2 ^ 30) (hBrief : Brief log)
    (hRun : Run (Step info n) (State.initial annotations) log c) :
    ∃ log' s, log'.Sublist log ∧
      Run (Isolation.Step info) (Isolation.State.initial annotations) log' s ∧
      Follows info n log c s := by
  refine hRun.log_invariant (P := fun log c => Brief log → ∃ log' s, log'.Sublist log ∧
    Run (Isolation.Step info) (Isolation.State.initial annotations) log' s ∧
    Follows info n log c s) ?_ ?_ hBrief
  · exact fun _ => ⟨[], _, List.Sublist.refl _, Run.nil, follows_initial info n annotations⟩
  · intro log event mid fin hMid hStep hBrief
    obtain ⟨log', s, hSub, hRun', hFollows⟩ := hMid hBrief.prefix
    have hInv : Isolation.Inv info s :=
      hRun'.invariant (Isolation.inv_initial info annotations)
        fun _ _ _ hMid hStep => hStep.inv hMid
    obtain ⟨s', hStep' | hStep', hFollows'⟩ := hFollows.step hInv hBrief.prefix hn hStep
    · exact ⟨log', s', List.sublist_append_of_sublist_left hSub, hStep' ▸ hRun', hFollows'⟩
    · exact ⟨log' ++ [event], s', hSub.append (List.Sublist.refl _), hRun'.snoc hStep',
        hFollows'⟩

/-- Every run on the words is one on the contracts, less the accesses that acquire nothing. -/
theorem follows_of_run (hn : n ≤ 2 ^ 30) (hBrief : Brief log)
    (hRun : Run (Step info n) (State.initial annotations) log c) :
    ∃ log' s, log'.Sublist log ∧
      Run (Isolation.Step info) (Isolation.State.initial annotations) log' s ∧
      Follows info n log c s :=
  Follows.run hn hBrief hRun

/-- The latches of one resource. -/
def latched : Hint := ⟨.normal, .mostlyWritten, .exclusiveWriter, .latch⟩

/-- A reader on worker 1 finds a writer on worker 0, and has to take its addition back. -/
theorem run_backingOff : ∃ c : State Unit Bool,
    Run (Step (Isolation.build (fun _ => latched) fun _ => 0) 2)
      (State.initial fun isReadonly => ⟨isReadonly, .resource ()⟩)
      [.scheduleFrom true 1, .scheduleFrom false 0, .take 0 false, .acquire 0, .enter 0,
        .take 1 true, .acquire 1] c ∧
    c.base.WriterInside 0 () ∧ c.attempts 1 = .backingOff := by
  have hReader : Step (Isolation.build (fun _ => latched) fun _ => 0) 2
      (State.initial fun isReadonly => ⟨isReadonly, .resource ()⟩ : State Unit Bool)
      (.scheduleFrom true 1) _ := Step.other _ trivial (.scheduleFrom rfl)
  have hWriter := (Run.single hReader).snoc
    (.other (.scheduleFrom false 0) trivial (.scheduleFrom rfl))
  have hTake := hWriter.snoc (.other (.take 0 false) Nat.two_pos (.take rfl (by decide)))
  have hAcquire := hTake.snoc (e := .acquire 0) (.acquired false rfl rfl rfl)
  have hEnter := hAcquire.snoc
    (.other (.enter 0) trivial (.enter rfl rfl (iff_of_false Bool.false_ne_true (by
      rintro ⟨r, w', -, hw, e, hWorker, -⟩
      simp [Function.update_of_ne hw, Isolation.State.push, State.initial,
        Isolation.State.initial] at hWorker))))
  have hTake' := hEnter.snoc
    (.other (.take 1 true) Nat.one_lt_two (.take rfl (by decide)))
  have hRun := hTake'.snoc (e := .acquire 1) (.again false rfl rfl rfl)
  exact ⟨_, hRun, ⟨_, rfl, rfl, trivial, rfl⟩, rfl⟩

theorem follows_of_run_backingOff :
    ∃ (c : State Unit Bool) (log' : List (Isolation.Event Unit Bool))
      (s : Isolation.State Unit Bool), c.attempts 1 = .backingOff ∧
      Run (Isolation.Step (Isolation.build (fun _ => latched) fun _ => 0))
        (Isolation.State.initial fun isReadonly => ⟨isReadonly, .resource ()⟩) log' s ∧
      s.wrap = c.base := by
  obtain ⟨c, hRun, _, hBacking⟩ := run_backingOff
  obtain ⟨log', s, _, hRun', hFollows⟩ :=
    follows_of_run (by decide) (brief_of_short (by decide)) hRun
  exact ⟨c, log', s, hBacking, hRun', hFollows.wrap⟩

/-- The isolation level that was asked for holds on the words: at most `2 ^ 30` workers, and
fewer than `2 ^ 30` tasks that end while one is in `execute()`. -/
theorem words_isolate {hints : R → Hint} {channelIds : R → Nat} (hn : n ≤ 2 ^ 30)
    (hBrief : Brief log)
    (hRun : Run (Step (Isolation.build hints channelIds) n) (State.initial annotations) log c)
    (r : R) : c.base.Isolated (hints r) r := by
  obtain ⟨log', s, _, hRun', hFollows⟩ := Follows.run hn hBrief hRun
  have hInv : Isolation.Inv (Isolation.build hints channelIds) s :=
    hRun'.invariant (Isolation.inv_initial _ annotations) fun _ _ _ hMid hStep => hStep.inv hMid
  rw [← hFollows.wrap]
  exact (hInv.isolated r).wrap

theorem words_isolate_backingOff : ∃ c : State Unit Bool,
    c.base.WriterInside 0 () ∧ c.attempts 1 = .backingOff ∧ c.base.Isolated latched () := by
  obtain ⟨c, hRun, hInside, hBacking⟩ := run_backingOff
  exact ⟨c, hInside, hBacking, words_isolate (by decide) (brief_of_short (by decide)) hRun ()⟩

end Runs

end MxTasking.Tasking.LatchWords
