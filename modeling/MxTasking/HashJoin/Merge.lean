import MxTasking.HashJoin.Tables

/-!
# The merge task

The merge task adds up the sizes of the result sets, one after the other.  No result set changes
any more when it runs, so in the end it has counted every result tuple.
-/

namespace MxTasking.HashJoin

open MxTasking.Verified

/-- The result tuples of the first `k` channels. -/
def countTuples (s : State) (k : Nat) : Nat :=
  ∑ i ∈ Finset.range k, (s.resultSets i).items.length

/-- How far the merge task is. -/
structure Merged (J : Join) (s : State) : Prop where
  place : ∀ c, s.place .merge ≠ .dispatching c
  zero : s.place .merge ≠ .started → s.countOutputTuples = 0
  unique : ∀ c c' k k', s.running c = .merging k → s.running c' = .merging k' → c = c'
  sum : ∀ c k, s.running c = .merging k →
    k ≤ J.countCores ∧ s.countOutputTuples = countTuples s k
  done : s.place .merge = .started → (∀ c k, s.running c ≠ .merging k) →
    s.countOutputTuples = countTuples s J.countCores

namespace Merged

variable {J : Join} {s s' : State} {e : Event} {c : Nat} {r : Running}

theorem initial (J : Join) : Merged J (State.initial J) := by
  refine ⟨fun c h => ?_, fun _ => rfl, fun c c' k k' h => ?_, fun c k h => ?_, fun h => ?_⟩ <;>
    exact absurd h (by simp [State.initial])

theorem congr (h : Merged J s) (hRunning : s'.running = s.running)
    (hPlace : s'.place .merge = s.place .merge)
    (hCount : s'.countOutputTuples = s.countOutputTuples)
    (hResults : s'.resultSets = s.resultSets) : Merged J s' := by
  obtain ⟨h₁, h₂, h₃, h₄, h₅⟩ := h
  refine ⟨?_, ?_, ?_, ?_, ?_⟩ <;> simp only [countTuples, hRunning, hPlace, hCount, hResults] <;>
    assumption

/-- A channel that is not in the merge task goes on. -/
theorem set (h : Merged J s) (hOld : ∀ k, s.running c ≠ .merging k) (hNew : ∀ k, r ≠ .merging k) :
    Merged J (s.set c r) := by
  have hIff : ∀ c' k, (s.set c r).running c' = .merging k ↔ s.running c' = .merging k := by
    intro c' k
    by_cases hEq : c' = c
    · subst hEq
      simp [State.set, hOld k, hNew k]
    · simp [State.set, hEq]
  refine ⟨h.place, h.zero, ?_, ?_, ?_⟩
  · intro c' c'' k k' hc' hc''
    exact h.unique c' c'' k k' ((hIff c' k).mp hc') ((hIff c'' k').mp hc'')
  · intro c' k hc'
    exact h.sum c' k ((hIff c' k).mp hc')
  · intro hPlace hNot
    exact h.done hPlace fun c' k hc' => hNot c' k ((hIff c' k).mpr hc')

/-- Before the merge task is started nothing is counted. -/
theorem before (hPlace : s.place .merge ≠ .started)
    (hDispatching : ∀ c, s.place .merge ≠ .dispatching c) (hZero : s.countOutputTuples = 0)
    (hRunning : ∀ c k, s.running c ≠ .merging k) : Merged J s :=
  ⟨hDispatching, fun _ => hZero, fun c _ k _ hc => absurd hc (hRunning c k),
    fun c k hc => absurd hc (hRunning c k), fun hNot => absurd hNot hPlace⟩

/-- One channel is in the merge task. -/
theorem inside {k : Nat} (hPlace : s.place .merge = .started) (hk : k ≤ J.countCores)
    (hCount : s.countOutputTuples = countTuples s k) (hCase : s.running c = .merging k)
    (hOther : ∀ c' k', s.running c' = .merging k' → c' = c) : Merged J s := by
  refine ⟨by simp [hPlace], fun hNot => absurd hPlace hNot, ?_, ?_, ?_⟩
  · intro c' c'' k' k'' hc' hc''
    exact (hOther c' k' hc').trans (hOther c'' k'' hc'').symm
  · intro c' k' hc'
    obtain rfl := hOther c' k' hc'
    obtain rfl := Running.merging.inj (hCase.symm.trans hc')
    exact ⟨hk, hCount⟩
  · intro _ hNot
    exact absurd hCase (hNot c k)

/-- One step. -/
theorem step (h : Merged J s) (hBarrier : Barrier J s) (hStep : Step J s e s') : Merged J s' := by
  have hPlaced := hBarrier.placed
  cases hStep with
  | popPartition c t kind i rest hIdle hQueue =>
      exact (h.set (c := t) (r := .partitioning kind i 0 fun _ => []) (by simp [hIdle])
        (by simp)).congr rfl (by simp [State.move, State.set, State.pop]) rfl rfl
  | popBatch c t kind rows rest hIdle hQueue =>
      exact (h.set (c := t) (r := .executing kind c rows) (by simp [hIdle]) (by simp)).congr rfl rfl
        rfl rfl
  | popNotification c t kind rest hIdle hQueue =>
      exact (h.set (c := t)
        (r := if pred32 (s.pendingLocal kind t) = 0 then .notified kind else .idle)
        (by simp [hIdle]) (by intro k; split <;> simp)).congr rfl rfl rfl rfl
  | popMerge c t rest hIdle hQueue =>
      obtain ⟨hPlace, _⟩ := hPlaced.queued.place_of_mem (x := .merge) trivial
        (by rw [hQueue]; exact List.mem_cons_self ..)
      have hNot : ∀ c' k, s.running c' ≠ .merging k := by
        intro c' k hCase
        exact absurd (hPlace.symm.trans (hPlaced.merging c' k hCase)) (by simp)
      refine inside (c := t) (k := 0) (by simp [State.move]) (Nat.zero_le _) ?_
        (by simp [State.move, State.set]) ?_
      · exact h.zero (by simp [hPlace])
      · intro c' k' hCase
        rcases update_cases hCase with ⟨hEq, _⟩ | ⟨_, hOld⟩
        · exact hEq
        · exact absurd hOld (hNot c' k')
  | row c kind i j tasks key hCase _ _ _ => exact h.set (by simp [hCase]) (by simp)
  | rowSpawn c kind i j tasks key hCase _ _ _ =>
      exact (h.set (c := c) (r := .partitioning kind i ((j + 1) % 2 ^ 32)
        (Function.update tasks (J.target key) [])) (by simp [hCase]) (by simp)).congr rfl rfl rfl
        rfl
  | rowsDone c kind i j tasks hCase _ => exact h.set (by simp [hCase]) (by simp)
  | flush c kind k tasks hCase _ =>
      exact (h.set (c := c) (r := .notifying kind k tasks) (by simp [hCase]) (by simp)).congr
        rfl rfl rfl rfl
  | notify c kind k tasks hCase =>
      exact (h.set (c := c) (r := .flushing kind (k + 1) tasks) (by simp [hCase]) (by simp)).congr
        rfl rfl rfl rfl
  | flushed c kind k tasks hCase _ => exact h.set (by simp [hCase]) (by simp)
  | insert t c row rows table hCase _ =>
      exact (h.set (c := t) (r := .executing .build c rows) (by simp [hCase]) (by simp)).congr
        rfl rfl rfl rfl
  | hit t c row rows value r hCase _ _ _ =>
      have ht : t < J.countCores := hBarrier.streams.busy t (by rw [hCase]; simp)
      obtain ⟨hc, hWaiting⟩ := hBarrier.streams.executing .probe c t _ hCase
      -- the result set changes, but the merge task is not even spawned
      have hPlace : s.place .merge = .notifier :=
        hPlaced.merge.mpr fun hZero => hBarrier.finished hZero hc ht hWaiting
      refine before (by simp [State.set, State.process, hPlace])
        (by simp [State.set, State.process, hPlace]) (h.zero (by simp [hPlace])) ?_
      intro c' k hNew
      obtain ⟨_, hOld⟩ := update_elsewhere hNew (by simp)
      exact absurd (hPlace.symm.trans (hPlaced.merging c' k hOld)) (by simp)
  | miss t c row rows hCase _ =>
      exact (h.set (c := t) (r := .executing .probe c rows) (by simp [hCase]) (by simp)).congr
        rfl rfl rfl rfl
  | finish t kind c hCase => exact h.set (by simp [hCase]) (by simp)
  | decrement t kind hCase _ =>
      exact (h.set (c := t) (r := .idle) (by simp [hCase]) (by simp)).congr rfl rfl rfl rfl
  | callBuild t hCase _ =>
      exact (h.set (c := t) (r := .dispatching 0) (by simp [hCase]) (by simp)).congr rfl rfl rfl rfl
  | callProbe t hCase hZero =>
      have hPlace := hPlaced.merge.mpr (pred32_ne_zero hZero)
      refine before (by simp [State.set, State.move]) (by simp [State.set, State.move])
        (h.zero (by simp [hPlace])) ?_
      intro c' k hNew
      obtain ⟨_, hOld⟩ := update_elsewhere hNew (by simp)
      exact absurd (hPlace.symm.trans (hPlaced.merging c' k hOld)) (by simp)
  | dispatch c k hCase _ =>
      exact (h.set (c := c) (r := .dispatching (k + 1)) (by simp [hCase]) (by simp)).congr rfl
        (by simp [State.set, State.move, State.spawn]) rfl rfl
  | dispatched c k hCase _ => exact h.set (by simp [hCase]) (by simp)
  | merge c k hCase hk =>
      obtain ⟨_, hCount⟩ := h.sum c k hCase
      refine inside (c := c) (k := k + 1) (hPlaced.merging c k hCase) hk ?_
        (by simp [State.set]) ?_
      · show s.countOutputTuples + _ = ∑ i ∈ Finset.range (k + 1), _
        rw [Finset.sum_range_succ, hCount]
        rfl
      · intro c' k' hNew
        rcases update_cases hNew with ⟨hEq, _⟩ | ⟨_, hOld⟩
        · exact hEq
        · exact h.unique c' c k' k hOld hCase
  | merged c k hCase hk =>
      obtain ⟨hLe, hCount⟩ := h.sum c k hCase
      obtain rfl : k = J.countCores := by omega
      have hNot : ∀ c' k, (s.set c .idle).running c' ≠ .merging k := by
        intro c' k hNew
        obtain ⟨hne, hOld⟩ := update_elsewhere hNew (by simp)
        exact hne (h.unique c' c k _ hOld hCase)
      exact ⟨h.place, h.zero, fun c' _ k _ hc' => absurd hc' (hNot c' k),
        fun c' k hc' => absurd hc' (hNot c' k), fun _ _ => hCount⟩

theorem run {log : List Event} (hRun : Run (Step J) (State.initial J) log s) : Merged J s := by
  refine (hRun.invariant (P := fun s => Barrier J s ∧ Merged J s)
    ⟨Barrier.initial J, initial J⟩ fun e mid fin h hStep => ?_).2
  exact ⟨h.1.step hStep, h.2.step h.1 hStep⟩

end Merged

end MxTasking.HashJoin
