import Mathlib.Algebra.BigOperators.Intervals
import MxTasking.HashJoin.Merge

/-!
# Every run comes to an end

Each task and each channel has some work left; a notifier that is not called yet has the work
of the phase behind it.  Every step makes the sum smaller, so there is no run without an end
when the loops over the chunks have one.
-/

namespace MxTasking.HashJoin

open MxTasking.Verified

/-- The work a task is good for: a row is read, put into a batch and executed. -/
def Task.work (J : Join) : Task → Nat
  | .partition kind i => 5 * J.count kind i + 6 * J.countCores + 4
  | .batch _ rows => rows.length + 2
  | .notification _ => 2
  | .merge => J.countCores + 3

/-- The work to send the batches from `k` on. -/
def sendWork (J : Join) (tasks : Nat → List Row) (k : Nat) : Nat :=
  ∑ t ∈ Finset.Ico k J.countCores, (3 * (tasks t).length + 6)

/-- The work to spawn the partition tasks from `k` on. -/
def dispatchWork (J : Join) (k : Nat) : Nat :=
  ∑ i ∈ Finset.Ico k J.countCores, ((Task.partition .probe i).work J + 1) + 1

/-- The work a channel has left. -/
def Running.work (J : Join) : Running → Nat
  | .idle => 0
  | .partitioning kind i j tasks => 5 * (J.count kind i - j) + sendWork J tasks 0 + 3
  | .flushing _ k tasks => sendWork J tasks k + 1
  | .notifying _ k tasks => sendWork J tasks (k + 1) + 4
  | .executing _ _ rows => rows.length + 1
  | .notified _ => 1
  | .dispatching k => dispatchWork J k
  | .merging k => J.countCores - k + 1

/-- The work behind a notifier. -/
def notifierWork (J : Join) (s : State) : Kind → Nat
  | .build => if s.pendingGlobal .build = 0 then 0 else dispatchWork J 0
  | .probe => if s.pendingGlobal .probe = 0 then 0 else Task.merge.work J

/-- All the work. -/
def work (J : Join) (s : State) : Nat :=
  ∑ p ∈ Finset.range J.countCores ×ˢ Finset.range J.countCores,
      ((s.queues p).map (Task.work J)).sum +
    ∑ c ∈ Finset.range J.countCores, (s.running c).work J +
    (notifierWork J s .build + notifierWork J s .probe)

section Work

variable {J : Join} {s s' : State} {c t : Nat} {r : Running} {x : Task} {rest : List Task}

theorem work_congr (hQueues : s'.queues = s.queues) (hRunning : s'.running = s.running)
    (hGlobal : s'.pendingGlobal = s.pendingGlobal) : work J s' = work J s := by
  simp only [work, notifierWork, hQueues, hRunning, hGlobal]

theorem work_set (hc : c < J.countCores) :
    work J (s.set c r) + (s.running c).work J = work J s + r.work J := by
  have hSum := sum_change (S := Finset.range J.countCores) (i := c)
    (f := fun c => (s.running c).work J) (g := fun c' => ((s.set c r).running c').work J)
    (a := (s.running c).work J) (b := r.work J) (Finset.mem_range.mpr hc)
    (by simp [State.set, Nat.add_comm]) (fun c' _ hne => by simp [State.set, hne])
  have hQueues : (s.set c r).queues = s.queues := rfl
  have hNotifier : notifierWork J (s.set c r) = notifierWork J s := by
    funext kind
    cases kind <;> rfl
  simp only [work, hQueues, hNotifier]
  omega

theorem work_pop (hQueue : s.queues (c, t) = x :: rest) (hc : c < J.countCores)
    (ht : t < J.countCores) : work J (s.pop c t rest) + x.work J = work J s := by
  have hSum := sum_change (S := Finset.range J.countCores ×ˢ Finset.range J.countCores)
    (i := (c, t)) (f := fun p => ((s.queues p).map (Task.work J)).sum)
    (g := fun p => (((s.pop c t rest).queues p).map (Task.work J)).sum)
    (a := x.work J) (b := 0) (by simp [hc, ht])
    (by simp [State.pop, hQueue, Nat.add_comm]) (fun p _ hne => by simp [State.pop, hne])
  have hRunning : (s.pop c t rest).running = s.running := rfl
  have hNotifier : notifierWork J (s.pop c t rest) = notifierWork J s := by
    funext kind
    cases kind <;> rfl
  simp only [work, hRunning, hNotifier]
  omega

theorem work_spawn (hc : c < J.countCores) (ht : t < J.countCores) :
    work J (s.spawn c t x) = work J s + x.work J := by
  have hSum := sum_change (S := Finset.range J.countCores ×ˢ Finset.range J.countCores)
    (i := (c, t)) (f := fun p => ((s.queues p).map (Task.work J)).sum)
    (g := fun p => (((s.spawn c t x).queues p).map (Task.work J)).sum)
    (a := 0) (b := x.work J) (by simp [hc, ht])
    (by simp [State.spawn]) (fun p _ hne => by simp [State.spawn, hne])
  have hRunning : (s.spawn c t x).running = s.running := rfl
  have hNotifier : notifierWork J (s.spawn c t x) = notifierWork J s := by
    funext kind
    cases kind <;> rfl
  simp only [work, hRunning, hNotifier]
  omega

/-- The counter of a phase is decremented, and stays above 0. -/
theorem work_setGlobal {kind : Kind} {value : Nat} (hOld : s.pendingGlobal kind ≠ 0)
    (hNew : value ≠ 0) : work J (s.setGlobal kind value) = work J s := by
  have hNotifier : notifierWork J (s.setGlobal kind value) = notifierWork J s := by
    funext k
    by_cases hEq : k = kind
    · subst hEq
      cases k <;> simp [notifierWork, State.setGlobal, hOld, hNew]
    · cases k <;> simp [notifierWork, State.setGlobal, hEq]
  simp only [work, hNotifier]
  rfl

/-- The notifier of a phase is called. -/
theorem work_call {kind : Kind} (hOld : s.pendingGlobal kind ≠ 0) :
    work J (s.setGlobal kind 0) + notifierWork J s kind = work J s := by
  have hQueues : (s.setGlobal kind 0).queues = s.queues := rfl
  have hRunning : (s.setGlobal kind 0).running = s.running := rfl
  simp only [work, hQueues, hRunning]
  cases kind <;> simp [notifierWork, State.setGlobal] <;> omega

theorem sendWork_update (tasks : Nat → List Row) (rows : List Row) (ht : t < J.countCores) :
    sendWork J (Function.update tasks t rows) 0 + 3 * (tasks t).length =
      sendWork J tasks 0 + 3 * rows.length := by
  refine sum_change (S := Finset.Ico 0 J.countCores) (i := t) (by simp [ht]) ?_ ?_
  · simp only [Function.update_self]
    omega
  · intro t' _ hne
    simp [hne]

theorem sendWork_succ (tasks : Nat → List Row) {k : Nat} (hk : k < J.countCores) :
    sendWork J tasks k = 3 * (tasks k).length + 6 + sendWork J tasks (k + 1) :=
  Finset.sum_eq_sum_Ico_succ_bot hk _

theorem dispatchWork_succ {k : Nat} (hk : k < J.countCores) :
    dispatchWork J k = (Task.partition .probe k).work J + 1 + dispatchWork J (k + 1) := by
  rw [dispatchWork, Finset.sum_eq_sum_Ico_succ_bot hk, Nat.add_assoc, dispatchWork]

theorem sendWork_nil : sendWork J (fun _ => []) 0 = 6 * J.countCores := by
  rw [sendWork, Finset.sum_const, Nat.card_Ico]
  exact Nat.mul_comm ..

/-- A channel goes on with less. -/
theorem work_set_lt {r₀ : Running} (hc : c < J.countCores) (hCase : s.running c = r₀)
    (hLess : r.work J < r₀.work J) : work J (s.set c r) < work J s := by
  have hSet := work_set (s := s) (r := r) hc
  rw [hCase] at hSet
  omega

/-- A channel takes a task. -/
theorem work_take_lt (hc : c < J.countCores) (ht : t < J.countCores) (hIdle : s.running t = .idle)
    (hQueue : s.queues (c, t) = x :: rest) (hLess : r.work J < x.work J) :
    work J ((s.pop c t rest).set t r) < work J s := by
  have hPop := work_pop hQueue hc ht
  have hSet := work_set (s := s.pop c t rest) (r := r) ht
  rw [show (s.pop c t rest).running t = .idle from hIdle, Running.work] at hSet
  omega

/-- A channel spawns a task and goes on. -/
theorem work_send_lt {r₀ : Running} (hc : c < J.countCores) (ht : t < J.countCores)
    (hCase : s.running c = r₀) (hLess : r.work J + x.work J < r₀.work J) :
    work J ((s.spawn c t x).set c r) < work J s := by
  have hSpawn := work_spawn (s := s) (x := x) hc ht
  have hSet := work_set (s := s.spawn c t x) (r := r) hc
  rw [show (s.spawn c t x).running c = r₀ from hCase] at hSet
  omega

end Work

/-- Every step makes the work smaller. -/
theorem work_step {J : Join} {s s' : State} {e : Event} (hSmall : J.Small) (h : Barrier J s)
    (hStep : Step J s e s') : work J s' < work J s := by
  have hBusy : ∀ {c r}, s.running c = r → r ≠ .idle → c < J.countCores := by
    intro c r hCase hne
    exact h.streams.busy c (by rw [hCase]; exact hne)
  have hRange : ∀ {c t x rest}, s.queues (c, t) = x :: rest → c < J.countCores ∧ t < J.countCores :=
    fun hQueue => h.streams.range _ _ (by rw [hQueue]; simp)
  -- the next index, without the wrap of 32 bits
  have hNext : ∀ {c kind i j tasks}, s.running c = .partitioning kind i j tasks →
      j < J.count kind i → (j + 1) % 2 ^ 32 = j + 1 := by
    intro c kind i j tasks hCase hj
    obtain rfl := h.placed.index _ _ _ _ _ hCase
    have hCount := hSmall kind i (hBusy hCase (by simp))
    exact Nat.mod_eq_of_lt (by omega)
  cases hStep with
  | popPartition c t kind i rest hIdle hQueue =>
      obtain ⟨hc, ht⟩ := hRange hQueue
      refine Eq.trans_lt (work_congr rfl rfl rfl) (work_take_lt
        (r := .partitioning kind i 0 fun _ => []) hc ht hIdle hQueue ?_)
      have hNil := sendWork_nil (J := J)
      simp only [Running.work, Task.work]
      omega
  | popBatch c t kind rows rest hIdle hQueue =>
      obtain ⟨hc, ht⟩ := hRange hQueue
      exact work_take_lt hc ht hIdle hQueue (Nat.lt_succ_self _)
  | popNotification c t kind rest hIdle hQueue =>
      obtain ⟨hc, ht⟩ := hRange hQueue
      refine Eq.trans_lt (work_congr rfl rfl rfl) (work_take_lt
        (r := if pred32 (s.pendingLocal kind t) = 0 then .notified kind else .idle) hc ht hIdle
        hQueue ?_)
      split <;> simp [Running.work, Task.work]
  | popMerge c t rest hIdle hQueue =>
      obtain ⟨hc, ht⟩ := hRange hQueue
      refine Eq.trans_lt (work_congr rfl rfl rfl) (work_take_lt (r := .merging 0) hc ht hIdle
        hQueue ?_)
      simp only [Running.work, Task.work]
      omega
  | row c kind i j tasks key hCase hj hKey _ =>
      rw [hNext hCase hj]
      refine work_set_lt (hBusy hCase (by simp)) hCase ?_
      have hSend := sendWork_update tasks (J.emplaceBack kind i c j key tasks)
        (J.target_lt key)
      have hLength : (J.emplaceBack kind i c j key tasks).length =
          (tasks (J.target key)).length + 1 := by
        simp [Join.emplaceBack]
      simp only [Running.work]
      omega
  | rowSpawn c kind i j tasks key hCase hj hKey _ =>
      rw [hNext hCase hj]
      refine work_send_lt (hBusy hCase (by simp)) (J.target_lt key) hCase ?_
      have hSend := sendWork_update tasks [] (J.target_lt key)
      have hLength : (J.emplaceBack kind i c j key tasks).length =
          (tasks (J.target key)).length + 1 := by
        simp [Join.emplaceBack]
      simp only [Running.work, Task.work, List.length_nil] at hSend ⊢
      omega
  | rowsDone c kind i j tasks hCase hj =>
      refine work_set_lt (hBusy hCase (by simp)) hCase ?_
      simp only [Running.work]
      omega
  | flush c kind k tasks hCase hk =>
      refine work_send_lt (hBusy hCase (by simp)) hk hCase ?_
      have hSend := sendWork_succ tasks hk
      simp only [Running.work, Task.work]
      omega
  | notify c kind k tasks hCase =>
      have hk := h.streams.notifying c kind k tasks hCase
      refine work_send_lt (hBusy hCase (by simp)) hk hCase ?_
      simp only [Running.work, Task.work]
      omega
  | flushed c kind k tasks hCase _ =>
      exact work_set_lt (hBusy hCase (by simp)) hCase (Nat.succ_pos _)
  | insert t c row rows table hCase _ =>
      exact Eq.trans_lt (work_congr rfl rfl rfl) (work_set_lt (r := .executing .build c rows)
        (hBusy hCase (by simp)) hCase (Nat.lt_succ_self _))
  | hit t c row rows value r hCase _ _ _ =>
      exact Eq.trans_lt (work_congr rfl rfl rfl) (work_set_lt (r := .executing .probe c rows)
        (hBusy hCase (by simp)) hCase (Nat.lt_succ_self _))
  | miss t c row rows hCase _ =>
      exact Eq.trans_lt (work_congr rfl rfl rfl) (work_set_lt (r := .executing .probe c rows)
        (hBusy hCase (by simp)) hCase (Nat.lt_succ_self _))
  | finish t kind c hCase => exact work_set_lt (hBusy hCase (by simp)) hCase (Nat.succ_pos _)
  | decrement t kind hCase hne =>
      have hGlobal := (h.counted (.decrement t kind hCase hne) (Or.inl rfl)).1
      rw [← work_setGlobal (J := J) hGlobal hne]
      exact work_set_lt (hBusy hCase (by simp)) hCase (Nat.succ_pos _)
  | callBuild t hCase hZero =>
      -- the work behind the notifier becomes work of the channel
      have hCall := work_call (J := J) (pred32_ne_zero hZero)
      have hNotifier : notifierWork J s .build = dispatchWork J 0 :=
        if_neg (pred32_ne_zero hZero)
      have hSet := work_set (s := s.setGlobal .build 0) (r := .dispatching 0)
        (hBusy hCase (by simp))
      rw [show (s.setGlobal .build 0).running t = _ from hCase] at hSet
      refine Eq.trans_lt (work_congr (s := (s.setGlobal .build 0).set t (.dispatching 0)) rfl rfl
        rfl) ?_
      simp only [Running.work] at hSet
      omega
  | callProbe t hCase hZero =>
      have hc := hBusy hCase (by simp)
      have hCall := work_call (J := J) (pred32_ne_zero hZero)
      have hNotifier : notifierWork J s .probe = Task.merge.work J :=
        if_neg (pred32_ne_zero hZero)
      have hSpawn := work_spawn (s := s.setGlobal .probe 0) (x := .merge) hc hc
      have hSet := work_set (s := (s.setGlobal .probe 0).spawn t t .merge) (r := .idle) hc
      rw [show ((s.setGlobal .probe 0).spawn t t .merge).running t = _ from hCase] at hSet
      refine Eq.trans_lt (work_congr (s := ((s.setGlobal .probe 0).spawn t t .merge).set t .idle)
        rfl rfl rfl) ?_
      simp only [Running.work] at hSet
      omega
  | dispatch c k hCase hk =>
      refine Eq.trans_lt (work_congr rfl rfl rfl) (work_send_lt (x := .partition .probe k)
        (r := .dispatching (k + 1)) (hBusy hCase (by simp)) hk hCase ?_)
      have hSucc := dispatchWork_succ hk
      simp only [Running.work]
      omega
  | dispatched c k hCase _ =>
      exact work_set_lt (hBusy hCase (by simp)) hCase (Nat.succ_pos _)
  | merge c k hCase hk =>
      refine Eq.trans_lt (work_congr rfl rfl rfl) (work_set_lt (r := .merging (k + 1))
        (hBusy hCase (by simp)) hCase ?_)
      simp only [Running.work]
      omega
  | merged c k hCase _ => exact work_set_lt (hBusy hCase (by simp)) hCase (Nat.succ_pos _)

/-- A state and one after it. -/
def Next (J : Join) (s s' : State) : Prop := ∃ e, Step J s e s'

/-- Every run comes to an end. -/
theorem acc_of_small {J : Join} {s : State} (hSmall : J.Small) (h : Barrier J s) :
    Acc (fun s' s => Next J s s') s := by
  refine acc_of_decreasing (wellFounded_lt : WellFounded fun m m' : Nat => m < m')
    (P := fun s m => Barrier J s ∧ work J s = m) ?_ (work J s) s ⟨h, rfl⟩
  rintro s m s' ⟨hBarrier, rfl⟩ ⟨e, hStep⟩
  exact ⟨work J s', ⟨hBarrier.step hStep, rfl⟩, work_step hSmall hBarrier hStep⟩

end MxTasking.HashJoin
