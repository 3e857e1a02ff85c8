import MxTasking.Tasking.Latch
import MxTasking.Verified.TransitionSystem

/-!
# The optimistic lock

`optimistic_lock.h`: one 32-bit word that is a version and a lock.  Acquiring and releasing both
add two, so bit 1 is set while a writer holds the lock and every write section moves the
version on by four; after `2 ^ 30` sections it is back where it was.

Every load, compare-exchange and `fetch_add` on the word is a step, and the threads take theirs in
any order.  The writers use `lock<SINGLE_WRITER>()`: `lock<false>()` spins until a
compare-exchange succeeds, `lock<true>()` is one `fetch_add` and relies on the writers not to
overlap.  Readers remember the version that `read_valid()` returned and ask `is_valid()` later.

## Main results

* `Tracks.run` — the version counts the write sections, and one writer holds the lock at most.
* `version_lock` — a validated read had no writer beside it.
-/

namespace MxTasking.Tasking.OptimisticLock

open MxTasking.Verified (Run update_cases update_elsewhere)

/-! ## The program -/

/-- How far a thread has come. -/
inductive Thread where
  | idle
  /-- In `lock<false>()`, in front of a load of `read_valid()`. -/
  | locking
  /-- In `try_lock()`, in front of the compare-exchange. -/
  | exchanging (version : Nat)
  /-- Between `lock()` and `unlock()`. -/
  | holding
  /-- In `read_valid()` of a reader, in front of a load. -/
  | reading
  /-- Behind `read_valid()`, which returned `version`. -/
  | validating (version : Nat)
  deriving DecidableEq, Repr

/-- The word and the threads. -/
structure State where
  version : Nat
  threads : Nat → Thread

inductive Event where
  | call (thread : Nat)
  | load (thread : Nat)
  | exchange (thread : Nat)
  | lockSingle (thread : Nat)
  | unlock (thread : Nat)
  | isValid (thread : Nat) (valid : Bool)
  deriving DecidableEq, Repr

namespace State

def initial : State := ⟨0b100, fun _ => .idle⟩

/-- A thread goes on. -/
def set (s : State) (thread : Nat) (q : Thread) : State :=
  { s with threads := Function.update s.threads thread q }

/-- `_version.fetch_add(0b10)`, behind which the thread is at `q`. -/
def fetchAdd (s : State) (thread : Nat) (q : Thread) : State :=
  { s.set thread q with version := (s.version + 0b10) % 2 ^ 32 }

/-- Some writer holds the lock. -/
def Locked (s : State) : Prop := ∃ w, s.threads w = .holding

end State

/-- The steps, with the writers of one kind. -/
inductive Step (singleWriter : Bool) : State → Event → State → Prop where
  | lock {s} (w : Nat) : singleWriter = false → s.threads w = .idle →
      Step singleWriter s (.call w) (s.set w .locking)
  | readValid {s} (r : Nat) : s.threads r = .idle → Step singleWriter s (.call r) (s.set r .reading)
  -- the loads of `read_valid()`, in `try_lock()` and of a reader
  | spin {s} (i : Nat) : s.threads i = .locking ∨ s.threads i = .reading →
      isLocked s.version = true → Step singleWriter s (.load i) s
  | loaded {s} (w : Nat) : s.threads w = .locking → isLocked s.version = false →
      Step singleWriter s (.load w) (s.set w (.exchanging s.version))
  | validRead {s} (r : Nat) : s.threads r = .reading → isLocked s.version = false →
      Step singleWriter s (.load r) (s.set r (.validating s.version))
  -- `compare_exchange_strong(version, version + 0b10)`
  | exchanged {s} (w : Nat) : s.threads w = .exchanging s.version →
      Step singleWriter s (.exchange w) (s.fetchAdd w .holding)
  | notExchanged {s} (w version : Nat) : s.threads w = .exchanging version → version ≠ s.version →
      Step singleWriter s (.exchange w) (s.set w .locking)
  -- `lock<true>()`, which the callers do not overlap with another writer
  | lockSingle {s} (w : Nat) : singleWriter = true → s.threads w = .idle → ¬ s.Locked →
      Step singleWriter s (.lockSingle w) (s.fetchAdd w .holding)
  | unlock {s} (w : Nat) : s.threads w = .holding →
      Step singleWriter s (.unlock w) (s.fetchAdd w .idle)
  | isValid {s} (r version : Nat) : s.threads r = .validating version →
      Step singleWriter s (.isValid r (version == s.version)) (s.set r .idle)

/-- A write section is completed. -/
def Event.isUnlock : Event → Bool
  | .unlock _ => true
  | _ => false

/-- The number of write sections completed in a log. -/
def sections (es : List Event) : Nat := es.countP Event.isUnlock

/-- `s` is a state of the run `es` from `s₁` to `s₂`. -/
def Passes (singleWriter : Bool) (s₁ : State) (es : List Event) (s₂ s : State) : Prop :=
  ∃ before after, es = before ++ after ∧ Run (Step singleWriter) s₁ before s ∧
    Run (Step singleWriter) s after s₂

/-! ## The word -/

theorem isLocked_mod {n : Nat} (h : n % 4 = 0) : isLocked (n % 2 ^ 32) = false ∧
    isLocked ((n + 2) % 2 ^ 32) = true := by
  rw [isLocked_eq, isLocked_eq]
  constructor
  · rw [decide_eq_false]
    omega
  · rw [decide_eq_true]
    omega

/-- From the version `start`, which is not locked, the word has counted `n` write sections; it
also counts the one that has begun, and no two have. -/
structure Tracks (start : Nat) (n : Nat) (s : State) : Prop where
  aligned : start % 4 = 0
  exclusive : ∀ w w', s.threads w = .holding → s.threads w' = .holding → w = w'
  free : ¬ s.Locked → s.version = (start + 4 * n) % 2 ^ 32
  held : s.Locked → s.version = (start + 4 * n + 2) % 2 ^ 32
  expected : ∀ w version, s.threads w = .exchanging version → isLocked version = false

namespace Tracks

variable {start n : Nat} {s s' : State} {singleWriter : Bool} {e : Event} {i : Nat} {q : Thread}

theorem isLocked_iff (h : Tracks start n s) : isLocked s.version = true ↔ s.Locked := by
  have hAligned := h.aligned
  obtain ⟨hFree, hHeld⟩ := isLocked_mod (n := start + 4 * n) (by omega)
  constructor
  · intro hLocked
    by_contra hNot
    rw [h.free hNot, hFree] at hLocked
    exact absurd hLocked (by decide)
  · intro hLocked
    rw [h.held hLocked]
    exact hHeld

/-- The versions that threads expect, after one of them went on. -/
theorem expected_update (h : Tracks start n s)
    (hExpected : ∀ version, q = .exchanging version → isLocked version = false) (w version : Nat)
    (hw : Function.update s.threads i q w = .exchanging version) : isLocked version = false := by
  rcases update_cases hw with ⟨_, hNew⟩ | ⟨_, hOld⟩
  · exact hExpected version hNew.symm
  · exact h.expected w version hOld

/-- A thread that neither held the lock nor gets it goes on. -/
theorem set (h : Tracks start n s) (hWas : s.threads i ≠ .holding) (hIs : q ≠ .holding)
    (hExpected : ∀ version, q = .exchanging version → isLocked version = false) :
    Tracks start n (s.set i q) := by
  have hSame : ∀ w, (s.set i q).threads w = .holding ↔ s.threads w = .holding := by
    intro w
    by_cases hEq : w = i
    · subst hEq
      simp [State.set, hWas, hIs]
    · simp [State.set, hEq]
  have hLocked : (s.set i q).Locked ↔ s.Locked := exists_congr hSame
  refine ⟨h.aligned, fun w w' hw hw' => ?_, fun hFree => ?_, fun hHeld => ?_,
    h.expected_update hExpected⟩
  · exact h.exclusive w w' ((hSame w).mp hw) ((hSame w').mp hw')
  · exact h.free (fun hOld => hFree (hLocked.mpr hOld))
  · exact h.held (hLocked.mp hHeld)

/-- A free lock is acquired. -/
theorem acquire (h : Tracks start n s) (hFree : ¬ s.Locked) :
    Tracks start n (s.fetchAdd i .holding) := by
  have hOnly : ∀ w, (s.fetchAdd i .holding).threads w = .holding → w = i := by
    intro w hw
    rcases update_cases hw with ⟨hEq, _⟩ | ⟨_, hOld⟩
    · exact hEq
    · exact absurd ⟨w, hOld⟩ hFree
  have hLocked : (s.fetchAdd i .holding).Locked := ⟨i, Function.update_self ..⟩
  refine ⟨h.aligned, fun w w' hw hw' => (hOnly w hw).trans (hOnly w' hw').symm,
    fun hNot => absurd hLocked hNot, fun _ => ?_, h.expected_update (by simp)⟩
  show (s.version + 2) % 2 ^ 32 = _
  rw [h.free hFree]
  omega

/-- The writer releases the lock, and one more section is complete. -/
theorem release (h : Tracks start n s) (hHolds : s.threads i = .holding) :
    Tracks start (n + 1) (s.fetchAdd i .idle) := by
  have hNone : ¬ (s.fetchAdd i .idle).Locked := by
    rintro ⟨w, hw⟩
    obtain ⟨hne, hOld⟩ := update_elsewhere hw (by decide)
    exact hne (h.exclusive w i hOld hHolds)
  refine ⟨h.aligned, fun w _ hw _ => absurd ⟨w, hw⟩ hNone, fun _ => ?_,
    fun hLocked => absurd hLocked hNone, h.expected_update (by simp)⟩
  show (s.version + 2) % 2 ^ 32 = _
  rw [h.held ⟨i, hHolds⟩]
  omega

theorem step (h : Tracks start n s) (hStep : Step singleWriter s e s') :
    Tracks start (n + sections [e]) s' := by
  cases hStep with
  | lock w _ hIdle => exact h.set (by rw [hIdle]; decide) (by decide) (by simp)
  | readValid r hIdle => exact h.set (by rw [hIdle]; decide) (by decide) (by simp)
  | spin i hAt hLocked => exact h
  | loaded w hAt hFree =>
      refine h.set (by rw [hAt]; decide) (by simp) fun version hEq => ?_
      rw [← Thread.exchanging.inj hEq]
      exact hFree
  | validRead r hAt hFree => exact h.set (by rw [hAt]; decide) (by simp) (by simp)
  | exchanged w hAt =>
      -- an old version that is the current one again is not locked either
      apply h.acquire
      rw [← h.isLocked_iff, h.expected w s.version hAt]
      decide
  | notExchanged w version hAt hne => exact h.set (by rw [hAt]; simp) (by decide) (by simp)
  | lockSingle w _ hIdle hFree => exact h.acquire hFree
  | unlock w hHolds => exact h.release hHolds
  | isValid r version hAt => exact h.set (by rw [hAt]; simp) (by decide) (by simp)

/-- Over every run. -/
theorem run {s₁ : State} {es : List Event} (h : Tracks start n s₁)
    (hRun : Run (Step singleWriter) s₁ es s) : Tracks start (n + sections es) s := by
  refine hRun.log_invariant (P := fun es s => Tracks start (n + sections es) s) h ?_
  intro es e mid fin hMid hStep
  rw [sections, List.countP_append, ← Nat.add_assoc]
  exact hMid.step hStep

theorem initial : Tracks 0b100 0 State.initial where
  aligned := rfl
  exclusive := by simp [State.initial]
  free _ := rfl
  held := by rintro ⟨w, hw⟩; exact absurd hw (by simp [State.initial])
  expected := by simp [State.initial]

/-- From a moment at which the lock is free the count can start anew. -/
theorem restart (h : Tracks start n s) (hFree : ¬ s.Locked) : Tracks s.version 0 s := by
  have hAligned := h.aligned
  have hVersion := h.free hFree
  refine ⟨by omega, h.exclusive, fun _ => ?_, fun hLocked => absurd hLocked hFree, h.expected⟩
  omega

end Tracks

/-! ## Readers -/

section Readers

variable {singleWriter : Bool} {s s₁ s₂ : State} {es : List Event} {w : Nat}

/-- Without a completed section the lock stays where it is. -/
theorem holding_of_run (h : s.threads w = .holding) (hRun : Run (Step singleWriter) s es s₂)
    (hNone : sections es = 0) : s₂.threads w = .holding := by
  induction hRun with
  | nil => exact h
  | @snoc es e mid fin _ hStep ih =>
      rw [sections, List.countP_append, Nat.add_eq_zero_iff] at hNone
      have hMid := ih hNone.1
      have hOther : ∀ {i q}, mid.threads i ≠ .holding →
          Function.update mid.threads i q w = .holding := by
        intro i q hi
        have hne : w ≠ i := by
          rintro rfl
          exact hi hMid
        rw [Function.update_of_ne hne]
        exact hMid
      cases hStep with
      | lock i _ hAt => exact hOther (by rw [hAt]; decide)
      | readValid i hAt => exact hOther (by rw [hAt]; decide)
      | spin i hAt hLocked => exact hMid
      | loaded i hAt hFree => exact hOther (by rw [hAt]; decide)
      | validRead i hAt hFree => exact hOther (by rw [hAt]; decide)
      | exchanged i hAt => exact hOther (by rw [hAt]; simp)
      | notExchanged i version hAt hne => exact hOther (by rw [hAt]; simp)
      | lockSingle i _ hAt hFree => exact hOther (by rw [hAt]; decide)
      | unlock i hHolds => exact absurd hNone.2 Nat.one_ne_zero
      | isValid i version hAt => exact hOther (by rw [hAt]; simp)

/-- The load with which `read_valid()` returns. -/
theorem validRead_cases {r version : Nat} (h : Step singleWriter s (.load r) s₁)
    (hAt : s.threads r = .reading) (hRead : s₁.threads r = .validating version) :
    isLocked s.version = false ∧ version = s.version ∧ s₁ = s.set r (.validating version) := by
  cases h with
  | spin _ _ hLocked =>
      rw [hAt] at hRead
      exact absurd hRead (by simp)
  | loaded _ hLocking hFree =>
      rw [hAt] at hLocking
      exact absurd hLocking (by decide)
  | validRead _ _ hFree =>
      have hEq : Thread.validating s.version = .validating version := by
        simpa [State.set] using hRead
      obtain rfl := Thread.validating.inj hEq
      exact ⟨hFree, rfl, rfl⟩

/-- `is_valid(version)` is true for the current version only. -/
theorem isValid_cases {r version : Nat} (h : Step singleWriter s (.isValid r true) s₁)
    (hAt : s.threads r = .validating version) : s.version = version := by
  generalize hEvent : Event.isValid r true = e at h
  cases h with
  | isValid r' version' hAt' =>
      obtain ⟨rfl, hTrue⟩ := Event.isValid.inj hEvent
      rw [hAt] at hAt'
      rw [Thread.validating.inj hAt']
      exact (beq_iff_eq.mp hTrue.symm).symm
  | _ => exact absurd hEvent (by simp)

/-- The version is what it was when the lock was free: with fewer than `2 ^ 30` sections in
between there was none, and no writer has the lock at any moment. -/
theorem not_locked_of_same_version {start : Nat} (h : Tracks start 0 s₁) (hFree : ¬ s₁.Locked)
    (hRun : Run (Step singleWriter) s₁ es s₂) (hSame : s₂.version = s₁.version)
    (hFew : sections es < 2 ^ 30) (hPass : Passes singleWriter s₁ es s₂ s) : ¬ s.Locked := by
  have hEnd := h.run hRun
  rw [Nat.zero_add] at hEnd
  have hStart := h.free hFree
  have hAligned := h.aligned
  have hFree₂ : ¬ s₂.Locked := by
    intro hLocked
    have hHeld := hEnd.held hLocked
    omega
  have hNone : sections es = 0 := by
    have hVersion := hEnd.free hFree₂
    omega
  obtain ⟨before, after, rfl, _, hAfter⟩ := hPass
  rintro ⟨w, hw⟩
  rw [sections, List.countP_append, Nat.add_eq_zero_iff] at hNone
  exact hFree₂ ⟨w, holding_of_run hw hAfter hNone.2⟩

end Readers

/-- The lock is a version lock.  After every run bit 1 is set exactly if a writer holds the
lock, and no two writers do.  And a reader for which `read_valid()` returned
`version` and now `is_valid(version)` is true: if fewer than `2 ^ 30` write sections
were completed since, no writer held the lock at any moment in between. -/
theorem version_lock (singleWriter : Bool) (es : List Event) (s : State)
    (hRun : Run (Step singleWriter) State.initial es s) :
    (isLocked s.version = true ↔ s.Locked) ∧
    (∀ w w', s.threads w = .holding → s.threads w' = .holding → w = w') ∧
    ∀ (r version : Nat) (es₀ es₁ : List Event) (s₀ s₁ : State),
      Run (Step singleWriter) State.initial es₀ s₀ → s₀.threads r = .reading →
      Step singleWriter s₀ (.load r) s₁ → s₁.threads r = .validating version →
      Run (Step singleWriter) s₁ es₁ s → s.threads r = .validating version →
      Step singleWriter s (.isValid r true) (s.set r .idle) → sections es₁ < 2 ^ 30 →
      ∀ mid, Passes singleWriter s₁ es₁ s mid → ¬ mid.Locked := by
  have hTracks := Tracks.initial.run hRun
  refine ⟨hTracks.isLocked_iff, hTracks.exclusive, ?_⟩
  intro r version es₀ es₁ s₀ s₁ hRun₀ hReading hLoad hRead hRun₁ hAt hValid hFew mid hPass
  have hTracks₀ := Tracks.initial.run hRun₀
  obtain ⟨hFree, rfl, rfl⟩ := validRead_cases hLoad hReading hRead
  have hSame : s.version = s₀.version := isValid_cases hValid hAt
  have hNotLocked : ¬ s₀.Locked := by
    rw [← hTracks₀.isLocked_iff, hFree]
    decide
  have hSet : Tracks s₀.version 0 (s₀.set r (.validating s₀.version)) :=
    (hTracks₀.restart hNotLocked).set (by rw [hReading]; decide) (by simp) (by simp)
  have hNotLocked₁ : ¬ (s₀.set r (.validating s₀.version)).Locked := by
    rw [← hSet.isLocked_iff]
    exact Bool.eq_false_iff.mp hFree
  exact not_locked_of_same_version hSet hNotLocked₁ hRun₁ hSame hFew hPass

/-- A reader validates what it read beside a writer that was waiting. -/
theorem version_lock_reader : ∃ es s, Run (Step false) State.initial es s ∧ es.length = 4 ∧
    (isLocked s.version = true ↔ s.Locked) ∧ ¬ s.Locked := by
  have hRead : Step false State.initial (.call 0) _ := Step.readValid 0 rfl
  have hLoad := (Run.single hRead).snoc (Step.validRead 0 rfl rfl)
  have hLock := hLoad.snoc (Step.lock 1 rfl rfl)
  have hRun := hLock.snoc (Step.loaded 1 rfl rfl)
  have hSpec := version_lock false _ _ hRun
  refine ⟨_, _, hRun, rfl, hSpec.1, ?_⟩
  have hStart : Run (Step false) State.initial [Event.call 0] _ := Run.single hRead
  exact hSpec.2.2 0 0b100 [.call 0] [.call 1, .load 1] _ _ hStart rfl (Step.validRead 0 rfl rfl) rfl
    ((Run.single (Step.lock 1 rfl rfl)).snoc (Step.loaded 1 rfl rfl)) rfl
    (Step.isValid 0 0b100 rfl) (by decide) _ ⟨_, [], (List.append_nil _).symm, by
      exact (Run.single (Step.lock 1 rfl rfl)).snoc (Step.loaded 1 rfl rfl), Run.nil⟩

end MxTasking.Tasking.OptimisticLock
