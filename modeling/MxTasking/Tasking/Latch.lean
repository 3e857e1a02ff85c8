import MxTasking.Tasking.Synchronization
import Mathlib.Logic.Function.Basic
import Mathlib.Data.List.Basic
import Mathlib.Data.Nat.Bitwise

/-!
# The latches of a resource

Every `ResourceInterface` carries a `Spinlock`, an `RWSpinLock` and an `OptimisticLock`
(`resource_interface.h`, `optimistic_lock.h`).  Here they are what their contracts say: an
acquisition is one step that either succeeds or is not taken yet, and the version of the
`OptimisticLock` does not wrap around.

The second half is about the worker's side: `Held` says what the latches show about the workers
that hold them, and is kept by every acquisition and every release.

## Main results

* `Held.acquire`, `Held.release` — the relation survives.
* `Held.not_locked` — a version nobody holds is not locked.
-/

namespace MxTasking.Tasking

/-! ## Versions -/

/-- `OptimisticLock::is_locked`. -/
def isLocked (version : Nat) : Bool := version &&& 0b10 = 0b10

theorem isLocked_eq (version : Nat) : isLocked version = decide (version / 2 % 2 = 1) := by
  have hBit : version &&& 2 = 2 ↔ version / 2 % 2 = 1 := by
    have hAnd := Nat.and_two_pow version 1
    rw [Nat.testBit_eq_decide_div_mod_eq] at hAnd
    by_cases h : version / 2 % 2 = 1
    · simp_all
    · simp_all
  simp [isLocked, hBit]

/-- `fetch_add(0b10)` locks what was unlocked and the other way round. -/
@[simp] theorem isLocked_add (version : Nat) : isLocked (version + 0b10) = !isLocked version := by
  rw [isLocked_eq, isLocked_eq, ← decide_not, decide_eq_decide]
  omega

/-! ## Latches -/

/-- The latches of one resource, with the workers that hold them. -/
structure Latches where
  exclusive : Option Nat := none
  writer : Option Nat := none
  readers : List Nat := []
  version : Nat := 0b100
  deriving DecidableEq, Repr

/-- The constructor of `scoped_latch`, or `version()` of an optimistic read, by worker `w`;
`none` while it has to spin.  The number is the version an optimistic read remembers. -/
def Latches.acquire (latches : Latches) (w : Nat) : Mode → Option (Latches × Nat)
  | .plain => some (latches, 0)
  | .exclusive =>
      if latches.exclusive = none then some ({ latches with exclusive := some w }, 0) else none
  | .sharedRead =>
      if latches.writer = none then
        some ({ latches with readers := w :: latches.readers }, 0)
      else none
  | .sharedWrite =>
      if latches.writer = none ∧ latches.readers = [] then
        some ({ latches with writer := some w }, 0)
      else none
  | .optimisticRead =>
      if isLocked latches.version then none else some (latches, latches.version)
  | .optimisticWrite => some ({ latches with version := latches.version + 0b10 }, 0)
  | .olfitWrite =>
      if isLocked latches.version then none
      else some ({ latches with version := latches.version + 0b10 }, 0)

/-- The destructor of `scoped_latch`. -/
def Latches.release (latches : Latches) (w : Nat) : Mode → Latches
  | .plain | .optimisticRead => latches
  | .exclusive => { latches with exclusive := none }
  | .sharedRead => { latches with readers := latches.readers.erase w }
  | .sharedWrite => { latches with writer := none }
  | .optimisticWrite | .olfitWrite => { latches with version := latches.version + 0b10 }

/-- The modes that lock the version. -/
def Mode.LocksVersion (mode : Mode) : Prop := mode = .optimisticWrite ∨ mode = .olfitWrite

instance (mode : Mode) : Decidable mode.LocksVersion :=
  inferInstanceAs (Decidable (_ ∨ _))

/-- Everything an acquisition can do. -/
theorem Latches.acquire_cases {latches latches' : Latches} {w : Nat} {mode : Mode}
    {version : Nat} (h : latches.acquire w mode = some (latches', version)) :
    (mode = .plain ∧ latches' = latches) ∨
    (mode = .exclusive ∧ latches.exclusive = none ∧
      latches' = { latches with exclusive := some w }) ∨
    (mode = .sharedRead ∧ latches.writer = none ∧
      latches' = { latches with readers := w :: latches.readers }) ∨
    (mode = .sharedWrite ∧ latches.writer = none ∧ latches.readers = [] ∧
      latches' = { latches with writer := some w }) ∨
    (mode = .optimisticRead ∧ isLocked latches.version = false ∧ version = latches.version ∧
      latches' = latches) ∨
    (mode = .optimisticWrite ∧ latches' = { latches with version := latches.version + 0b10 }) ∨
    (mode = .olfitWrite ∧ isLocked latches.version = false ∧
      latches' = { latches with version := latches.version + 0b10 }) := by
  cases mode with
  | plain =>
      obtain ⟨rfl, -⟩ := Prod.mk.inj (Option.some.inj h)
      exact .inl ⟨rfl, rfl⟩
  | exclusive =>
      obtain ⟨hFree, hEq⟩ := Option.ite_none_right_eq_some.mp h
      obtain ⟨rfl, -⟩ := Prod.mk.inj (Option.some.inj hEq)
      simp [hFree]
  | sharedRead =>
      obtain ⟨hFree, hEq⟩ := Option.ite_none_right_eq_some.mp h
      obtain ⟨rfl, -⟩ := Prod.mk.inj (Option.some.inj hEq)
      simp [hFree]
  | sharedWrite =>
      obtain ⟨⟨hWriter, hReaders⟩, hEq⟩ := Option.ite_none_right_eq_some.mp h
      obtain ⟨rfl, -⟩ := Prod.mk.inj (Option.some.inj hEq)
      simp [hWriter, hReaders]
  | optimisticRead =>
      obtain ⟨hLocked, hEq⟩ := Option.ite_none_left_eq_some.mp h
      obtain ⟨rfl, rfl⟩ := Prod.mk.inj (Option.some.inj hEq)
      simp [hLocked]
  | optimisticWrite =>
      obtain ⟨rfl, -⟩ := Prod.mk.inj (Option.some.inj h)
      simp
  | olfitWrite =>
      obtain ⟨hLocked, hEq⟩ := Option.ite_none_left_eq_some.mp h
      obtain ⟨rfl, -⟩ := Prod.mk.inj (Option.some.inj hEq)
      simp [hLocked]

/-- What an acquisition does to the version. -/
theorem Latches.acquire_version {latches latches' : Latches} {w : Nat} {mode : Mode}
    {version : Nat} (h : latches.acquire w mode = some (latches', version)) :
    latches'.version = latches.version + if mode.LocksVersion then 0b10 else 0 := by
  rcases Latches.acquire_cases h with ⟨rfl, rfl⟩ | ⟨rfl, -, rfl⟩ | ⟨rfl, -, rfl⟩ |
    ⟨rfl, -, -, rfl⟩ | ⟨rfl, -, -, rfl⟩ | ⟨rfl, rfl⟩ | ⟨rfl, -, rfl⟩ <;> rfl

/-- A release does the same. -/
theorem Latches.release_version (latches : Latches) (w : Nat) (mode : Mode) :
    (latches.release w mode).version =
      latches.version + if mode.LocksVersion then 0b10 else 0 := by
  cases mode <;> simp [Latches.release, Mode.LocksVersion]

/-- With scheduled writers, whoever locks the version is bound to the resource's channel. -/
theorem bound_of_locksVersion {R : Type*} {info : R → Information} {channelId : Nat}
    {task : Annotations R} {r : R} (hTarget : task.target = .resource r)
    (hPrimitive : (info r).synchronizationPrimitive = .scheduleWriter)
    (hLocks : (dispatch info channelId task).LocksVersion) : Bound info task r := by
  refine ⟨hTarget, .inr ⟨hPrimitive, ?_⟩⟩
  rw [dispatch_of_scheduleWriter hTarget hPrimitive] at hLocks
  cases hReader : task.isReadonly with
  | true => grind [Mode.LocksVersion]
  | false => rfl

/-! ## Who holds what -/

/-- A worker between the acquisition and the release. -/
structure Hold (R : Type*) where
  resource : R
  mode : Mode
  version : Nat

variable {R : Type*}

/-- What the latches of its resource show while worker `w` holds them. -/
def Hold.Shows (hold : Hold R) (w : Nat) (latches : Latches) : Prop :=
  match hold.mode with
  | .plain => True
  | .exclusive => latches.exclusive = some w
  | .sharedRead => w ∈ latches.readers
  | .sharedWrite => latches.writer = some w
  | .optimisticRead => isLocked hold.version = false ∧ hold.version ≤ latches.version
  | .optimisticWrite | .olfitWrite => isLocked latches.version = true

theorem Hold.Shows.locked {hold : Hold R} {w : Nat} {latches : Latches}
    (h : hold.Shows w latches) (hMode : hold.mode.LocksVersion) :
    isLocked latches.version = true := by
  rcases hMode with hMode | hMode
  · simpa [Hold.Shows, hMode] using h
  · simpa [Hold.Shows, hMode] using h

section Steps

variable {latches latches' : Latches} {w w' : Nat} {mode : Mode} {version : Nat}

theorem Latches.acquire_shows (hAcquire : latches.acquire w mode = some (latches', version))
    (hSingle : mode = .optimisticWrite → isLocked latches.version = false) (r : R) :
    (Hold.mk r mode version).Shows w latches' := by
  rcases Latches.acquire_cases hAcquire with ⟨rfl, rfl⟩ | ⟨rfl, -, rfl⟩ | ⟨rfl, -, rfl⟩ |
    ⟨rfl, -, -, rfl⟩ | ⟨rfl, hLocked, rfl, rfl⟩ | ⟨rfl, rfl⟩ | ⟨rfl, hLocked, rfl⟩
  · exact trivial
  · exact rfl
  · exact List.mem_cons_self
  · exact rfl
  · exact ⟨hLocked, le_rfl⟩
  · simp [Hold.Shows, hSingle rfl]
  · simp [Hold.Shows, hLocked]

/-- An acquisition takes nothing away from the others. -/
theorem Hold.Shows.acquire {hold : Hold R} (h : hold.Shows w' latches)
    (hAcquire : latches.acquire w mode = some (latches', version))
    (hLocks : hold.mode.LocksVersion → ¬ mode.LocksVersion) : hold.Shows w' latches' := by
  obtain ⟨r, mode', version'⟩ := hold
  rcases Latches.acquire_cases hAcquire with ⟨rfl, rfl⟩ | ⟨rfl, hFree, rfl⟩ | ⟨rfl, -, rfl⟩ |
    ⟨rfl, hFree, -, rfl⟩ | ⟨rfl, -, -, rfl⟩ | ⟨rfl, rfl⟩ | ⟨rfl, -, rfl⟩
  · exact h
  · cases mode' <;> simp_all [Hold.Shows]
  · cases mode' <;> simp_all [Hold.Shows]
  · cases mode' <;> simp_all [Hold.Shows]
  · exact h
  · cases mode' <;> simp_all [Hold.Shows, Mode.LocksVersion, Nat.le_add_right_of_le]
  · cases mode' <;> simp_all [Hold.Shows, Mode.LocksVersion, Nat.le_add_right_of_le]

/-- Neither does a release. -/
theorem Hold.Shows.release {hold : Hold R} (h : hold.Shows w' latches) (hNe : w' ≠ w)
    (hOwn : (Hold.mk hold.resource mode version).Shows w latches)
    (hLocks : hold.mode.LocksVersion → ¬ mode.LocksVersion) :
    hold.Shows w' (latches.release w mode) := by
  obtain ⟨r, mode', version'⟩ := hold
  cases mode with
  | plain => exact h
  | optimisticRead => exact h
  | exclusive => cases mode' <;> simp_all [Hold.Shows, Latches.release]
  | sharedRead => cases mode' <;> simp_all [Hold.Shows, Latches.release, List.mem_erase_of_ne hNe]
  | sharedWrite => cases mode' <;> simp_all [Hold.Shows, Latches.release]
  | optimisticWrite =>
      cases mode' <;>
        simp_all [Hold.Shows, Latches.release, Mode.LocksVersion, Nat.le_add_right_of_le]
  | olfitWrite =>
      cases mode' <;>
        simp_all [Hold.Shows, Latches.release, Mode.LocksVersion, Nat.le_add_right_of_le]

/-- The writer and the readers of the `RWSpinLock` exclude each other. -/
def Latches.Apart (latches : Latches) : Prop := latches.writer ≠ none → latches.readers = []

theorem Latches.Apart.acquire (h : latches.Apart)
    (hAcquire : latches.acquire w mode = some (latches', version)) : latches'.Apart := by
  rcases Latches.acquire_cases hAcquire with ⟨rfl, rfl⟩ | ⟨rfl, -, rfl⟩ | ⟨rfl, hWriter, rfl⟩ |
    ⟨rfl, -, hReaders, rfl⟩ | ⟨rfl, -, -, rfl⟩ | ⟨rfl, rfl⟩ | ⟨rfl, -, rfl⟩
  · exact h
  · exact h
  · exact fun hNe => absurd hWriter hNe
  · exact fun _ => hReaders
  · exact h
  · exact h
  · exact h

theorem Latches.Apart.release (h : latches.Apart) : (latches.release w mode).Apart := by
  cases mode with
  | sharedRead =>
      intro hNe
      have hReaders : latches.readers = [] := h hNe
      simp [Latches.release, hReaders]
  | sharedWrite => exact fun hNe => absurd rfl hNe
  | _ => exact h

/-- The version was not locked before. -/
theorem Latches.acquire_unlocked (hAcquire : latches.acquire w mode = some (latches', version))
    (hSingle : mode = .optimisticWrite → isLocked latches.version = false)
    (hMode : mode.LocksVersion) : isLocked latches.version = false := by
  rcases hMode with rfl | rfl
  · exact hSingle rfl
  · simpa using (Option.ite_none_left_eq_some.mp hAcquire).1

end Steps

/-- What the latches of all resources show about all workers. -/
structure Held (hold : Nat → Option (Hold R)) (latches : R → Latches) : Prop where
  shows : ∀ w h, hold w = some h → h.Shows w (latches h.resource)
  apart : ∀ r, (latches r).Apart
  unique : ∀ w w' h h', hold w = some h → hold w' = some h' → h.resource = h'.resource →
    h.mode.LocksVersion → h'.mode.LocksVersion → w = w'
  /-- A locked version was locked by somebody. -/
  owner : ∀ r, isLocked (latches r).version = true →
    ∃ w h, hold w = some h ∧ h.resource = r ∧ h.mode.LocksVersion

namespace Held

variable {hold : Nat → Option (Hold R)} {latches : R → Latches} {w : Nat} {r : R} {mode : Mode}
  {version : Nat}

/-- Nobody holds anything. -/
theorem initial : Held (fun _ => none) (fun _ : R => {}) where
  shows _ _ h := nomatch h
  apart _ _ := rfl
  unique _ _ _ _ h := nomatch h
  owner _ h := absurd h (by decide)

/-- A version nobody holds is not locked. -/
theorem not_locked (hHeld : Held hold latches)
    (hNone : ∀ w h, hold w = some h → h.resource = r → ¬ h.mode.LocksVersion) :
    isLocked (latches r).version = false := by
  rw [← Bool.not_eq_true]
  intro hLocked
  obtain ⟨w, h, hHold, hResource, hMode⟩ := hHeld.owner r hLocked
  exact hNone w h hHold hResource hMode

variable [DecidableEq R]

/-- A worker that held nothing acquires the latches of `r`. -/
theorem acquire {latches' : Latches} (hHeld : Held hold latches) (hNone : hold w = none)
    (hAcquire : (latches r).acquire w mode = some (latches', version))
    (hSingle : mode = .optimisticWrite → isLocked (latches r).version = false) :
    Held (Function.update hold w (some ⟨r, mode, version⟩))
      (Function.update latches r latches') := by
  -- While `mode` locks the version, nobody else has locked it.
  have hOther : ∀ w' h, hold w' = some h → h.resource = r → h.mode.LocksVersion →
      ¬ mode.LocksVersion := by
    rintro w' h hHold rfl hMode hLocks
    have hUnlocked := Latches.acquire_unlocked hAcquire hSingle hLocks
    rw [(hHeld.shows w' h hHold).locked hMode] at hUnlocked
    exact nomatch hUnlocked
  refine ⟨?_, ?_, ?_, ?_⟩
  · intro w' h hHold
    by_cases hw : w' = w
    · subst hw
      rw [Function.update_self, Option.some.injEq] at hHold
      subst hHold
      rw [Function.update_self]
      exact Latches.acquire_shows hAcquire hSingle r
    · rw [Function.update_of_ne hw] at hHold
      by_cases hr : h.resource = r
      · rw [hr, Function.update_self]
        exact (hr ▸ hHeld.shows w' h hHold).acquire hAcquire (hOther w' h hHold hr)
      · rw [Function.update_of_ne hr]
        exact hHeld.shows w' h hHold
  · intro r'
    by_cases hr : r' = r
    · rw [hr, Function.update_self]
      exact (hHeld.apart r).acquire hAcquire
    · rw [Function.update_of_ne hr]
      exact hHeld.apart r'
  · intro w₁ w₂ h₁ h₂ hHold₁ hHold₂ hResource hMode₁ hMode₂
    simp only [Function.update_apply] at hHold₁ hHold₂
    grind [hHeld.unique]
  · intro r' hLocked
    by_cases hr : r' = r
    · subst hr
      rw [Function.update_self] at hLocked
      by_cases hMode : mode.LocksVersion
      · exact ⟨w, _, Function.update_self .., rfl, hMode⟩
      · rw [Latches.acquire_version hAcquire, if_neg hMode] at hLocked
        obtain ⟨w', h, hHold, hRest⟩ := hHeld.owner r' hLocked
        have hw : w' ≠ w := by rintro rfl; exact absurd (hNone.symm.trans hHold) nofun
        exact ⟨w', h, by rw [Function.update_of_ne hw, hHold], hRest⟩
    · rw [Function.update_of_ne hr] at hLocked
      obtain ⟨w', h, hHold, hRest⟩ := hHeld.owner r' hLocked
      have hw : w' ≠ w := by rintro rfl; exact absurd (hNone.symm.trans hHold) nofun
      exact ⟨w', h, by rw [Function.update_of_ne hw, hHold], hRest⟩

/-- A worker releases what it acquired. -/
theorem release (hHeld : Held hold latches) (hHold : hold w = some ⟨r, mode, version⟩) :
    Held (Function.update hold w none)
      (Function.update latches r ((latches r).release w mode)) := by
  have hOther : ∀ w' h, w' ≠ w → hold w' = some h → h.resource = r → h.mode.LocksVersion →
      ¬ mode.LocksVersion := by
    intro w' h hw hHold' hResource hMode hLocks
    exact hw (hHeld.unique w' w h _ hHold' hHold hResource hMode hLocks)
  refine ⟨?_, ?_, ?_, ?_⟩
  · intro w' h hHold'
    by_cases hw : w' = w
    · rw [hw, Function.update_self] at hHold'
      exact nomatch hHold'
    · rw [Function.update_of_ne hw] at hHold'
      by_cases hr : h.resource = r
      · subst hr
        rw [Function.update_self]
        exact (hHeld.shows w' h hHold').release hw (hHeld.shows w _ hHold)
          (hOther w' h hw hHold' rfl)
      · rw [Function.update_of_ne hr]
        exact hHeld.shows w' h hHold'
  · intro r'
    by_cases hr : r' = r
    · rw [hr, Function.update_self]
      exact (hHeld.apart r).release
    · rw [Function.update_of_ne hr]
      exact hHeld.apart r'
  · intro w₁ w₂ h₁ h₂ hHold₁ hHold₂
    simp only [Function.update_apply] at hHold₁ hHold₂
    grind [hHeld.unique]
  · intro r' hLocked
    by_cases hr : r' = r
    · subst hr
      rw [Function.update_self] at hLocked
      by_cases hMode : mode.LocksVersion
      · rw [Latches.release_version, if_pos hMode, isLocked_add,
          (hHeld.shows w _ hHold).locked hMode] at hLocked
        exact nomatch hLocked
      · rw [Latches.release_version, if_neg hMode] at hLocked
        obtain ⟨w', h, hHold', hResource, hLocks⟩ := hHeld.owner r' hLocked
        have hw : w' ≠ w := by
          rintro rfl
          rw [hHold, Option.some.injEq] at hHold'
          subst hHold'
          exact hMode hLocks
        exact ⟨w', h, by rw [Function.update_of_ne hw, hHold'], hResource, hLocks⟩
    · rw [Function.update_of_ne hr] at hLocked
      obtain ⟨w', h, hHold', hResource, hLocks⟩ := hHeld.owner r' hLocked
      have hw : w' ≠ w := by
        rintro rfl
        rw [hHold, Option.some.injEq] at hHold'
        subst hHold'
        exact hr hResource.symm
      exact ⟨w', h, by rw [Function.update_of_ne hw, hHold'], hResource, hLocks⟩

end Held

end MxTasking.Tasking
