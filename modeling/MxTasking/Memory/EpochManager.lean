import MxTasking.Verified.TransitionSystem
import Mathlib.Data.List.Basic
import Mathlib.Logic.Function.Basic
import Mathlib.Algebra.Ring.Nat

/-!
# Epoch-based reclamation

`epoch_manager.h` and `.cpp`, with global garbage collection, and the places where a worker
enters an epoch.  Every atomic access of the source is a step of its own:

* a worker enters by loading the global epoch and storing it as its local epoch; behind the store it
  may take references to resources that have not been removed, and it keeps them until
  the store of its next `enter`;
* a remover stamps a resource with the global epoch, after which nobody can find it
  any more, and pushes it to the garbage;
* the epoch thread increments the global epoch, reads the local epochs one after the other, and
  pops the garbage, of which it frees what was removed before the minimum it has read.

A worker that has not entered yet has the largest epoch there is.  When all of them look
like that to the scan, the minimum does not protect anything, and a worker may enter and take a
reference while the pops go on.

## Main results

* `Step.inv` — what relates epochs, removals and the minimum of a pass.
* `no_dangling_of_run` — no resource is freed under a worker that may hold it, in every run in which
  the garbage popped behind a scan of sentinels was removed before anybody entered.
-/

namespace MxTasking.Memory.Epoch

open MxTasking.Verified

/-- `std::numeric_limits<epoch_t>::max()`: the local epoch of a worker that has not entered. -/
def maxEpoch : Nat := 2 ^ 32 - 1

/-- Where the epoch thread is. -/
inductive Phase (R : Type*) where
  /-- Between two rounds of `enter_epoch_periodically`. -/
  | waiting
  /-- The global epoch has been incremented. -/
  | incremented
  /-- In `min_local_epoch`, with the next channel to read and the minimum so far. -/
  | scanning (channelId minEpoch : Nat)
  /-- In the loop of `reclaim_epoch_garbage`. -/
  | reclaiming (minEpoch : Nat) (deferred : List R)

/-- The epoch manager, its workers and the resources. -/
structure State (R : Type*) where
  globalEpoch : Nat
  localEpochs : Nat → Nat
  /-- The epoch a worker has loaded in `enter` and not stored yet. -/
  loaded : Nat → Option Nat
  /-- The resources that had been removed when a worker entered last. -/
  entered : Nat → Option (List R)
  /-- The references a worker holds. -/
  references : Nat → List R
  /-- `remove_epoch()` of the resources that have been removed. -/
  removeEpoch : R → Option Nat
  removed : List R
  /-- Removed resources that are not in the queue yet. -/
  removing : List R
  garbage : List R
  phase : Phase R
  /-- What has been passed to `on_reclaim` and `free`. -/
  freed : List R

variable {R : Type*}

/-- The members after construction. -/
def State.initial : State R where
  globalEpoch := 0
  localEpochs := fun _ => maxEpoch
  loaded := fun _ => none
  entered := fun _ => none
  references := fun _ => []
  removeEpoch := fun _ => none
  removed := []
  removing := []
  garbage := []
  phase := .waiting
  freed := []

/-- `reset()`, where `isFree` is the answer of the allocator. -/
def State.reset (s : State R) (isFree : Bool) : State R :=
  if isFree then { s with globalEpoch := 0, localEpochs := fun _ => maxEpoch } else s

/-- The workers have been joined: none of them reads a resource any more, and `reclaim_all`
frees the garbage. -/
def State.stop (s : State R) : State R :=
  { s with
    loaded := fun _ => none
    entered := fun _ => none
    references := fun _ => []
    garbage := []
    freed := s.garbage ++ s.freed }

inductive Event (R : Type*) where
  | load (channelId : Nat)
  | store (channelId : Nat)
  | take (channelId : Nat) (r : R)
  | remove (r : R)
  | push (r : R)
  | increment
  | scan
  | scanned
  | pop
  | finish
  | restart (isFree : Bool)

/-- One atomic step of a system with `countChannels` workers. -/
inductive Step [DecidableEq R] (countChannels : Nat) : State R → Event R → State R → Prop where
  | load {s : State R} {w : Nat} (hWorker : w < countChannels) (hIdle : s.loaded w = none) :
      Step countChannels s (.load w)
        { s with loaded := Function.update s.loaded w (some s.globalEpoch) }
  | store {s : State R} {w e : Nat} (hLoaded : s.loaded w = some e) :
      Step countChannels s (.store w)
        { s with
          localEpochs := Function.update s.localEpochs w e
          loaded := Function.update s.loaded w none
          entered := Function.update s.entered w (some s.removed)
          references := Function.update s.references w [] }
  | take {s : State R} {w : Nat} {r : R} (hEntered : s.entered w ≠ none)
      (hPresent : r ∉ s.removed) :
      Step countChannels s (.take w r)
        { s with references := Function.update s.references w (r :: s.references w) }
  | remove {s : State R} {r : R} (hPresent : r ∉ s.removed) :
      Step countChannels s (.remove r)
        { s with
          removeEpoch := Function.update s.removeEpoch r (some s.globalEpoch)
          removed := r :: s.removed
          removing := r :: s.removing }
  | push {s : State R} {r : R} (hRemoving : r ∈ s.removing) :
      Step countChannels s (.push r)
        { s with removing := s.removing.erase r, garbage := s.garbage ++ [r] }
  /-- The epoch does not wrap. -/
  | increment {s : State R} (hPhase : s.phase = .waiting) (hWrap : s.globalEpoch + 1 < 2 ^ 32) :
      Step countChannels s .increment
        { s with globalEpoch := (s.globalEpoch + 1) % 2 ^ 32, phase := .incremented }
  | scanFirst {s : State R} (hPhase : s.phase = .incremented) :
      Step countChannels s .scan { s with phase := .scanning 1 (s.localEpochs 0) }
  | scanNext {s : State R} {channelId minEpoch : Nat}
      (hPhase : s.phase = .scanning channelId minEpoch) (hNext : channelId < countChannels) :
      Step countChannels s .scan
        { s with phase := .scanning (channelId + 1) (min minEpoch (s.localEpochs channelId)) }
  | scanned {s : State R} {channelId minEpoch : Nat}
      (hPhase : s.phase = .scanning channelId minEpoch) (hEnd : ¬ channelId < countChannels) :
      Step countChannels s .scanned { s with phase := .reclaiming minEpoch [] }
  | free {s : State R} {minEpoch e : Nat} {deferred garbage : List R} {r : R}
      (hPhase : s.phase = .reclaiming minEpoch deferred) (hGarbage : s.garbage = r :: garbage)
      (hEpoch : s.removeEpoch r = some e) (hOld : e < minEpoch) :
      Step countChannels s .pop { s with garbage := garbage, freed := r :: s.freed }
  | defer {s : State R} {minEpoch e : Nat} {deferred garbage : List R} {r : R}
      (hPhase : s.phase = .reclaiming minEpoch deferred) (hGarbage : s.garbage = r :: garbage)
      (hEpoch : s.removeEpoch r = some e) (hYoung : ¬ e < minEpoch) :
      Step countChannels s .pop
        { s with garbage := garbage, phase := .reclaiming minEpoch (deferred ++ [r]) }
  /-- `pop_front` returns null: the queue is empty, or a push is not finished. -/
  | finish {s : State R} {minEpoch : Nat} {deferred : List R}
      (hPhase : s.phase = .reclaiming minEpoch deferred) :
      Step countChannels s .finish
        { s with garbage := s.garbage ++ deferred, phase := .waiting }
  /-- All threads end, and the runtime is initialised again. -/
  | restart {s : State R} {isFree : Bool} (hPhase : s.phase = .waiting)
      (hRemoving : s.removing = []) :
      Step countChannels s (.restart isFree) (s.stop.reset isFree)

/-- No worker holds a reference to a resource that has been freed. -/
def State.NoDangling (s : State R) : Prop :=
  ∀ w, ∀ r ∈ s.references w, r ∉ s.freed

/-- The worker has entered before `r` was removed, and not again since. -/
def State.MayHold (s : State R) (w : Nat) (r : R) : Prop :=
  ∃ before, s.entered w = some before ∧ r ∉ before

/-- Where the scan has read nothing but the epoch of workers that had not entered, the
resource freed next was removed before any worker entered. -/
def ScanCovers (s : State R) : Event R → Prop
  | .pop => ∀ deferred r garbage e, s.phase = .reclaiming maxEpoch deferred →
      s.garbage = r :: garbage → s.removeEpoch r = some e → e < maxEpoch →
      ∀ w, ¬ s.MayHold w r
  | _ => True

/-! ## The invariant -/

/-- The minimum `m` protects what worker `w` may hold: its local epoch was read, or it has
entered since, and then what it may hold is removed in the current epoch. -/
def State.Covered (s : State R) (m w : Nat) : Prop :=
  ∀ before, s.entered w = some before → m ≤ s.localEpochs w ∨
    ∀ r e, s.removeEpoch r = some e → r ∉ before → s.globalEpoch ≤ e

/-- What the epoch thread knows in each phase. -/
def State.PassOk (countChannels : Nat) (s : State R) : Phase R → Prop
  | .waiting => True
  | .incremented => True
  | .scanning channelId minEpoch => (minEpoch = maxEpoch ∨ minEpoch ≤ s.globalEpoch) ∧
      ∀ w, w < channelId → s.Covered minEpoch w
  | .reclaiming minEpoch deferred => (minEpoch = maxEpoch ∨ minEpoch ≤ s.globalEpoch) ∧
      (∀ w, w < countChannels → s.Covered minEpoch w) ∧ ∀ r ∈ deferred, r ∈ s.removed

structure State.Inv (countChannels : Nat) (s : State R) : Prop where
  stamped : ∀ r e, s.removeEpoch r = some e → r ∈ s.removed
  gone : ∀ r, r ∈ s.removing ∨ r ∈ s.garbage ∨ r ∈ s.freed → r ∈ s.removed
  locals : ∀ w, s.localEpochs w = maxEpoch ∨ s.localEpochs w ≤ s.globalEpoch
  loaded : ∀ w e, s.loaded w = some e → w < countChannels ∧ e ≤ s.globalEpoch
  /-- A worker is not ahead of what was removed behind its back. -/
  entered : ∀ w before, s.entered w = some before → w < countChannels ∧
    s.localEpochs w ≤ s.globalEpoch ∧ (∀ r ∈ before, r ∈ s.removed) ∧
    ∀ r e, s.removeEpoch r = some e → r ∉ before → s.localEpochs w ≤ e
  holds : ∀ w, ∀ r ∈ s.references w, s.MayHold w r
  pass : s.PassOk countChannels s.phase

theorem State.inv_initial (countChannels : Nat) :
    (State.initial : State R).Inv countChannels :=
  ⟨by simp [initial], by simp [initial], by simp [initial], by simp [initial], by simp [initial],
    by simp [initial], trivial⟩

namespace State.PassOk

variable {countChannels : Nat} {s s' : State R}

/-- A pass stays covered when every worker does and nothing comes back. -/
theorem mono {phase : Phase R} (h : s.PassOk countChannels phase)
    (hGlobal : s'.globalEpoch = s.globalEpoch) (hCovered : ∀ m w, s.Covered m w → s'.Covered m w)
    (hRemoved : ∀ r ∈ s.removed, r ∈ s'.removed) : s'.PassOk countChannels phase := by
  cases phase with
  | waiting => trivial
  | incremented => trivial
  | scanning channelId minEpoch =>
      exact ⟨hGlobal ▸ h.1, fun w hw => hCovered _ w (h.2 w hw)⟩
  | reclaiming minEpoch deferred =>
      exact ⟨hGlobal ▸ h.1, fun w hw => hCovered _ w (h.2.1 w hw),
        fun r hr => hRemoved r (h.2.2 r hr)⟩

end State.PassOk

namespace State.Inv

variable {countChannels : Nat} {s : State R}

theorem load (h : s.Inv countChannels) {w : Nat} (hWorker : w < countChannels) :
    State.Inv countChannels
      { s with loaded := Function.update s.loaded w (some s.globalEpoch) } := by
  refine ⟨h.stamped, h.gone, h.locals, fun w' e hLoaded => ?_, h.entered, h.holds,
    h.pass.mono rfl (fun _ _ hCovered => hCovered) fun _ hr => hr⟩
  dsimp only at hLoaded
  by_cases hw : w' = w
  · subst hw
    rw [Function.update_self] at hLoaded
    obtain rfl := Option.some.inj hLoaded
    exact ⟨hWorker, Nat.le_refl _⟩
  · rw [Function.update_of_ne hw] at hLoaded
    exact h.loaded w' e hLoaded

theorem store (h : s.Inv countChannels) {w e : Nat} (hLoaded : s.loaded w = some e) :
    State.Inv countChannels
      { s with
        localEpochs := Function.update s.localEpochs w e
        loaded := Function.update s.loaded w none
        entered := Function.update s.entered w (some s.removed)
        references := Function.update s.references w [] } := by
  obtain ⟨hWorker, he⟩ := h.loaded w e hLoaded
  refine ⟨h.stamped, h.gone, fun w' => ?_, fun w' e' hw' => ?_, fun w' before hw' => ?_,
    fun w' r hr => ?_, h.pass.mono rfl (fun m w' hCovered before hw' => ?_) fun _ hr => hr⟩
  · dsimp only
    by_cases hEq : w' = w
    · subst hEq
      rw [Function.update_self]
      exact .inr he
    · rw [Function.update_of_ne hEq]
      exact h.locals w'
  · dsimp only at hw'
    by_cases hEq : w' = w
    · subst hEq
      rw [Function.update_self] at hw'
      exact absurd hw' (by simp)
    · rw [Function.update_of_ne hEq] at hw'
      exact h.loaded w' e' hw'
  · dsimp only at hw' ⊢
    by_cases hEq : w' = w
    · subst hEq
      rw [Function.update_self] at hw' ⊢
      obtain rfl := Option.some.inj hw'
      exact ⟨hWorker, he, fun _ hr => hr, fun r e' hr hNot => absurd (h.stamped r e' hr) hNot⟩
    · rw [Function.update_of_ne hEq] at hw' ⊢
      exact h.entered w' before hw'
  · unfold State.MayHold
    dsimp only at hr ⊢
    by_cases hEq : w' = w
    · subst hEq
      rw [Function.update_self] at hr
      exact absurd hr (by simp)
    · rw [Function.update_of_ne hEq] at hr ⊢
      exact h.holds w' r hr
  · dsimp only at hw' ⊢
    by_cases hEq : w' = w
    · subst hEq
      rw [Function.update_self] at hw'
      obtain rfl := Option.some.inj hw'
      exact .inr fun r e' hr hNot => absurd (h.stamped r e' hr) hNot
    · rw [Function.update_of_ne hEq] at hw' ⊢
      exact hCovered before hw'

theorem take (h : s.Inv countChannels) {w : Nat} {r : R} (hEntered : s.entered w ≠ none)
    (hPresent : r ∉ s.removed) :
    State.Inv countChannels
      { s with references := Function.update s.references w (r :: s.references w) } := by
  refine ⟨h.stamped, h.gone, h.locals, h.loaded, h.entered, fun w' r' hr' => ?_,
    h.pass.mono rfl (fun _ _ hCovered => hCovered) fun _ hr => hr⟩
  dsimp only at hr'
  by_cases hEq : w' = w
  · subst hEq
    rw [Function.update_self] at hr'
    rcases List.mem_cons.mp hr' with rfl | hr'
    · obtain ⟨before, hBefore⟩ := Option.ne_none_iff_exists'.mp hEntered
      exact ⟨before, hBefore, fun hIn => hPresent ((h.entered w' before hBefore).2.2.1 _ hIn)⟩
    · exact h.holds w' r' hr'
  · rw [Function.update_of_ne hEq] at hr'
    exact h.holds w' r' hr'

theorem remove [DecidableEq R] (h : s.Inv countChannels) (r : R) :
    State.Inv countChannels
      { s with
        removeEpoch := Function.update s.removeEpoch r (some s.globalEpoch)
        removed := r :: s.removed
        removing := r :: s.removing } := by
  -- the new stamp is the global epoch, which no worker is ahead of
  have hStamp : ∀ r' e, Function.update s.removeEpoch r (some s.globalEpoch) r' = some e →
      e = s.globalEpoch ∨ s.removeEpoch r' = some e := by
    intro r' e hr'
    by_cases hEq : r' = r
    · subst hEq
      rw [Function.update_self] at hr'
      exact .inl (Option.some.inj hr').symm
    · rw [Function.update_of_ne hEq] at hr'
      exact .inr hr'
  refine ⟨fun r' e hr' => ?_, fun r' hr' => ?_, h.locals, h.loaded, fun w before hw => ?_,
    h.holds, h.pass.mono rfl (fun m w hCovered before hw => ?_) fun _ => List.mem_cons_of_mem r⟩
  · dsimp only at hr' ⊢
    by_cases hEq : r' = r
    · exact hEq ▸ List.mem_cons_self
    · rw [Function.update_of_ne hEq] at hr'
      exact List.mem_cons_of_mem r (h.stamped r' e hr')
  · dsimp only at hr' ⊢
    rw [List.mem_cons] at hr' ⊢
    rcases hr' with (rfl | hr') | hr'
    · exact .inl rfl
    · exact .inr (h.gone r' (.inl hr'))
    · exact .inr (h.gone r' (.inr hr'))
  · obtain ⟨hWorker, hGlobal, hBefore, hLocal⟩ := h.entered w before hw
    refine ⟨hWorker, hGlobal, fun r' hr' => List.mem_cons_of_mem r (hBefore r' hr'),
      fun r' e hr' hNot => ?_⟩
    rcases hStamp r' e hr' with rfl | hOld
    · exact hGlobal
    · exact hLocal r' e hOld hNot
  · rcases hCovered before hw with hRead | hLate
    · exact .inl hRead
    · refine .inr fun r' e hr' hNot => ?_
      rcases hStamp r' e hr' with rfl | hOld
      · exact Nat.le_refl _
      · exact hLate r' e hOld hNot

/-- The epoch thread goes on; only its phase and the lists of resources change. -/
theorem advance (h : s.Inv countChannels) {removing garbage freed : List R} {phase : Phase R}
    (hGone : ∀ r, r ∈ removing ∨ r ∈ garbage ∨ r ∈ freed → r ∈ s.removed)
    (hPass : s.PassOk countChannels phase) :
    State.Inv countChannels
      { s with removing := removing, garbage := garbage, freed := freed, phase := phase } :=
  ⟨h.stamped, hGone, h.locals, h.loaded, h.entered, h.holds,
    hPass.mono rfl (fun _ _ hCovered => hCovered) fun _ hr => hr⟩

theorem increment (h : s.Inv countChannels) (hWrap : s.globalEpoch + 1 < 2 ^ 32) :
    State.Inv countChannels
      { s with globalEpoch := (s.globalEpoch + 1) % 2 ^ 32, phase := .incremented } := by
  rw [Nat.mod_eq_of_lt hWrap]
  refine ⟨h.stamped, h.gone, fun w => (h.locals w).imp_right Nat.le_succ_of_le,
    fun w e hw => ?_, fun w before hw => ?_, h.holds, trivial⟩
  · have := h.loaded w e hw
    exact ⟨this.1, Nat.le_succ_of_le this.2⟩
  · obtain ⟨hWorker, hGlobal, hRest⟩ := h.entered w before hw
    exact ⟨hWorker, Nat.le_succ_of_le hGlobal, hRest⟩

theorem restart (h : s.Inv countChannels) (hPhase : s.phase = .waiting)
    (hRemoving : s.removing = []) (isFree : Bool) :
    (s.stop.reset isFree).Inv countChannels := by
  have hGone : ∀ r, r ∈ s.removing ∨ r ∈ [] ∨ r ∈ s.garbage ++ s.freed → r ∈ s.removed := by
    intro r hr
    rw [hRemoving, List.mem_append] at hr
    rcases hr with hr | hr | hr
    · exact absurd hr (by simp)
    · exact absurd hr (by simp)
    · exact h.gone r (.inr hr)
  have hPass : ∀ s' : State R, s'.PassOk countChannels s.phase := by
    intro s'
    rw [hPhase]
    trivial
  unfold State.reset
  split
  · exact ⟨h.stamped, hGone, fun _ => .inl rfl, by simp [State.stop], by simp [State.stop],
      by simp [State.stop], hPass _⟩
  · exact ⟨h.stamped, hGone, h.locals, by simp [State.stop], by simp [State.stop],
      by simp [State.stop], hPass _⟩

end State.Inv

theorem Step.inv [DecidableEq R] {countChannels : Nat} {s s' : State R} {ev : Event R}
    (h : s.Inv countChannels) (hStep : Step countChannels s ev s') : s'.Inv countChannels := by
  cases hStep with
  | load hWorker hIdle => exact h.load hWorker
  | store hLoaded => exact h.store hLoaded
  | take hEntered hPresent => exact h.take hEntered hPresent
  | @remove r hPresent => exact h.remove r
  | @push r hRemoving =>
      refine h.advance (fun r' hr' => ?_) h.pass
      rw [List.mem_append, List.mem_singleton] at hr'
      rcases hr' with hr' | (hr' | rfl) | hr'
      · exact h.gone r' (.inl (List.mem_of_mem_erase hr'))
      · exact h.gone r' (.inr (.inl hr'))
      · exact h.gone r' (.inl hRemoving)
      · exact h.gone r' (.inr (.inr hr'))
  | increment hPhase hWrap => exact h.increment hWrap
  | scanFirst hPhase =>
      refine h.advance h.gone ⟨h.locals 0, fun w hw before _ => .inl ?_⟩
      obtain rfl : w = 0 := by omega
      exact Nat.le_refl _
  | @scanNext channelId minEpoch hPhase hNext =>
      have hPass := h.pass
      rw [hPhase] at hPass
      obtain ⟨hMin, hPass⟩ := hPass
      refine h.advance h.gone ⟨?_, fun w hw before hEntered => ?_⟩
      · have := h.locals channelId
        omega
      rcases Nat.lt_succ_iff_lt_or_eq.mp hw with hw | rfl
      · rcases hPass w hw before hEntered with hRead | hLate
        · exact .inl (Nat.le_trans (Nat.min_le_left ..) hRead)
        · exact .inr hLate
      · exact .inl (Nat.min_le_right ..)
  | scanned hPhase hEnd =>
      have hPass := h.pass
      rw [hPhase] at hPass
      exact h.advance h.gone ⟨hPass.1, fun w hw => hPass.2 w (by omega), by simp⟩
  | @free minEpoch e deferred garbage r hPhase hGarbage hEpoch hOld =>
      refine h.advance (fun r' hr' => h.gone r' ?_) h.pass
      rw [hGarbage]
      rw [List.mem_cons] at hr' ⊢
      tauto
  | @defer minEpoch e deferred garbage r hPhase hGarbage hEpoch hYoung =>
      have hPass := h.pass
      rw [hPhase] at hPass
      refine h.advance (fun r' hr' => h.gone r' ?_)
        ⟨hPass.1, hPass.2.1, fun r' hr' => ?_⟩
      · rw [hGarbage, List.mem_cons]
        tauto
      · rw [List.mem_append, List.mem_singleton] at hr'
        rcases hr' with hr' | rfl
        · exact hPass.2.2 r' hr'
        · exact h.stamped r' e hEpoch
  | @finish minEpoch deferred hPhase =>
      have hPass := h.pass
      rw [hPhase] at hPass
      refine h.advance (fun r' hr' => ?_) trivial
      rw [List.mem_append] at hr'
      rcases hr' with hr' | (hr' | hr') | hr'
      · exact h.gone r' (.inl hr')
      · exact h.gone r' (.inr (.inl hr'))
      · exact hPass.2.2 r' hr'
      · exact h.gone r' (.inr (.inr hr'))
  | @restart isFree hPhase hRemoving => exact h.restart hPhase hRemoving isFree

/-! ## No use after free -/

/-- The heart of the argument: a resource that is old enough for the minimum of the pass is
held by nobody, if the minimum is that of an epoch. -/
theorem State.Inv.not_mayHold {countChannels : Nat} {s : State R} (h : s.Inv countChannels)
    {minEpoch e : Nat} {deferred : List R} {r : R}
    (hPhase : s.phase = .reclaiming minEpoch deferred) (hEpoch : s.removeEpoch r = some e)
    (hOld : e < minEpoch) (hMin : minEpoch ≤ s.globalEpoch) (w : Nat) : ¬ s.MayHold w r := by
  rintro ⟨before, hEntered, hNot⟩
  have hPass := h.pass
  rw [hPhase] at hPass
  obtain ⟨hWorker, -, -, hLocal⟩ := h.entered w before hEntered
  rcases hPass.2.1 w hWorker before hEntered with hRead | hLate
  · have := hLocal r e hEpoch hNot
    omega
  · have := hLate r e hEpoch hNot
    omega

theorem Step.noDangling [DecidableEq R] {countChannels : Nat} {s s' : State R} {ev : Event R}
    (h : s.Inv countChannels) (hSafe : s.NoDangling) (hStep : Step countChannels s ev s')
    (hCovers : ScanCovers s ev) : s'.NoDangling := by
  cases hStep with
  | @store w e hLoaded =>
      intro w' r hr
      dsimp only at hr
      by_cases hEq : w' = w
      · subst hEq
        rw [Function.update_self] at hr
        exact absurd hr (by simp)
      · rw [Function.update_of_ne hEq] at hr
        exact hSafe w' r hr
  | @take w r hEntered hPresent =>
      intro w' r' hr'
      dsimp only at hr'
      by_cases hEq : w' = w
      · subst hEq
        rw [Function.update_self] at hr'
        rcases List.mem_cons.mp hr' with rfl | hr'
        · exact fun hFreed => hPresent (h.gone _ (.inr (.inr hFreed)))
        · exact hSafe w' r' hr'
      · rw [Function.update_of_ne hEq] at hr'
        exact hSafe w' r' hr'
  | @free minEpoch e deferred garbage r hPhase hGarbage hEpoch hOld =>
      intro w r' hr' hFreed
      rcases List.mem_cons.mp hFreed with rfl | hFreed
      · refine absurd (h.holds w r' hr') ?_
        have hPass := h.pass
        rw [hPhase] at hPass
        rcases hPass.1 with rfl | hMin
        · exact hCovers deferred r' garbage e hPhase hGarbage hEpoch hOld w
        · exact h.not_mayHold hPhase hEpoch hOld hMin w
      · exact hSafe w r' hr' hFreed
  | @restart isFree hPhase hRemoving =>
      intro w r hr
      have hNone : (s.stop.reset isFree).references w = [] := by
        unfold State.reset
        split
        · rfl
        · rfl
      rw [hNone] at hr
      exact absurd hr (by simp)
  | load => exact hSafe
  | remove => exact hSafe
  | push => exact hSafe
  | increment => exact hSafe
  | scanFirst => exact hSafe
  | scanNext => exact hSafe
  | scanned => exact hSafe
  | defer => exact hSafe
  | finish => exact hSafe

/-- No worker ever holds a reference to a resource that has been freed, as long as a pass whose scan
found only workers that had not entered pops nothing that was removed after one of
them entered. -/
theorem no_dangling_of_run [DecidableEq R] {countChannels : Nat} {es : List (Event R)}
    {s : State R}
    (hRun : Run (Guarded (Step countChannels) ScanCovers) State.initial es s) :
    s.NoDangling := by
  have hBoth : s.Inv countChannels ∧ s.NoDangling := by
    refine hRun.invariant (P := fun s => s.Inv countChannels ∧ s.NoDangling)
      ⟨State.inv_initial countChannels, by simp [State.NoDangling, State.initial]⟩ ?_
    rintro ev mid fin ⟨hInv, hSafe⟩ ⟨hCovers, hStep⟩
    exact ⟨hStep.inv hInv, hStep.noDangling hInv hSafe hCovers⟩
  exact hBoth.2

/-- A worker enters and takes a reference, the resource is removed, and the pass that
follows defers it. -/
theorem no_dangling_of_run_deferred : ∃ s : State Nat,
    Run (Guarded (Step 1) ScanCovers) State.initial
      [.load 0, .store 0, .take 0 7, .remove 7, .push 7, .increment, .scan, .scanned, .pop] s ∧
    s.NoDangling := by
  have hLoad : Guarded (Step 1) ScanCovers (State.initial : State Nat) (.load 0) _ :=
    ⟨trivial, Step.load (by decide) rfl⟩
  have hStore := (Run.single hLoad).snoc
    ⟨show ScanCovers _ (.store 0) from trivial, Step.store rfl⟩
  have hTake := hStore.snoc ⟨show ScanCovers _ (.take 0 7) from trivial,
    Step.take (fun hNone => nomatch hNone) (by decide)⟩
  have hRemove := hTake.snoc ⟨show ScanCovers _ (.remove 7) from trivial,
    Step.remove (by decide)⟩
  have hPush := hRemove.snoc ⟨show ScanCovers _ (.push 7) from trivial,
    Step.push List.mem_cons_self⟩
  have hIncrement := hPush.snoc ⟨show ScanCovers _ .increment from trivial,
    Step.increment rfl (by decide)⟩
  have hScan := hIncrement.snoc ⟨show ScanCovers _ .scan from trivial, Step.scanFirst rfl⟩
  have hScanned := hScan.snoc ⟨show ScanCovers _ .scanned from trivial,
    Step.scanned rfl (by decide)⟩
  have hRun := hScanned.snoc ⟨show ScanCovers _ .pop from fun _ _ _ _ hPhase =>
      absurd (Phase.reclaiming.inj hPhase).1 (by decide),
    Step.defer rfl rfl rfl (by decide)⟩
  exact ⟨_, hRun, no_dangling_of_run hRun⟩

/-- The epoch thread scans before the workers enter.  Then both enter, the first one takes a
reference, the second one removes the resource, and the same pass frees it. -/
theorem frees_held_resource : ∃ s : State Nat,
    Run (Step 2) State.initial
      [.increment, .scan, .scan, .scanned, .load 0, .store 0, .load 1, .store 1, .take 0 7,
        .remove 7, .push 7, .pop] s ∧
    7 ∈ s.references 0 ∧ 7 ∈ s.freed := by
  have hIncrement : Step 2 (State.initial : State Nat) .increment _ :=
    Step.increment rfl (by decide)
  have hScan := ((Run.single hIncrement).snoc (Step.scanFirst rfl)).snoc
    (Step.scanNext rfl (by decide))
  have hScanned := hScan.snoc (Step.scanned rfl (by decide))
  have hFirst := (hScanned.snoc (Step.load (w := 0) (by decide) rfl)).snoc
    (Step.store (w := 0) rfl)
  have hSecond := (hFirst.snoc (Step.load (w := 1) (by decide) rfl)).snoc
    (Step.store (w := 1) rfl)
  have hTake := hSecond.snoc (Step.take (w := 0) (r := 7) (fun hNone => nomatch hNone)
    (by decide))
  have hPush := (hTake.snoc (Step.remove (r := 7) (by decide))).snoc
    (Step.push (r := 7) List.mem_cons_self)
  exact ⟨_, hPush.snoc (Step.free rfl rfl rfl (by decide)), by decide, by decide⟩

end MxTasking.Memory.Epoch
