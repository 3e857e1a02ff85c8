import MxTasking.Tasking.Delivery

/-!
# The channels deliver

Between two executions a worker is in the loops of `fill`, in front of `next()` or at the head of
its own loop.  Left alone, it comes out of all of them: with a task in its hand if there is one in
its queues or its buffer.  So the runtime never keeps a program waiting that could go on.

## Main results

* `exists_filled` — `Channel::fill` comes to its end and finds what there is.
* `exists_ready` — a worker whose queues are not empty gets a task.
* `exists_end` — a program that ends over mailboxes can be ended by the runtime, from every state.
-/

namespace MxTasking.Tasking.Delivery

open MxTasking.Verified

/-! ## One worker -/

section Channel

variable {T : Type*} {s s' : Tasking.State T}

/-- The tasks stay, whether in a queue or in the buffer. -/
theorem undelivered_of_turns (h : Turns s s') (hInv : ∃ xs, s.Inv xs) :
    undelivered s' = undelivered s := by
  induction h with
  | refl => rfl
  | tail hBefore hTurn ih =>
      obtain ⟨xs, hxs⟩ := Turns.inv hBefore hInv
      exact (undelivered_of_worker hxs hTurn.2.1 hTurn.2.2).trans ih

/-- The number of a queue in the loops of `fill`. -/
def InRange : Control → Prop
  | .fill _ _ index _ => index ≤ maxNumaNodes + 1
  | .pop _ _ index _ _ _ => index ≤ maxNumaNodes
  | _ => True

theorem inRange_of_worker (h : InRange s.control) (hStep : Tasking.Step s .worker s') :
    InRange s'.control := by
  have hNext : ∀ {index available : Nat}, fillEnds index available = false →
      index ≤ maxNumaNodes + 1 → index ≤ maxNumaNodes := by
    intro index available hEnds hIndex
    have hLast : index ≠ maxNumaNodes + 1 := by
      rintro rfl
      simp [fillEnds] at hEnds
    omega
  cases hStep with
  | skip hControl hEnds _ =>
      rw [hControl] at h
      exact Nat.succ_le_succ (hNext hEnds h)
  | enter hControl hEnds _ _ =>
      rw [hControl] at h
      exact hNext hEnds h
  | put hControl _ _ =>
      rw [hControl] at h
      exact h
  | null hControl _ | count hControl _ =>
      rw [hControl] at h
      exact Nat.succ_le_succ h
  | outer _ | low _ _ _ | refill _ _ | profiling _ _ => exact Nat.zero_le _
  | filled _ _ _ | enterInner _ | afterRefill _ | afterProfiling _ | next _ _ | drained _ _
  | execute _ _ | executed _ => exact trivial

theorem inRange_of_turns (h : Turns s s') (hRange : InRange s.control) : InRange s'.control := by
  induction h with
  | refl => exact hRange
  | tail _ hTurn ih => exact inRange_of_worker ih hTurn.2.1

theorem contents_eq (h : ∃ xs, s.Inv xs) : s.Inv s.buffer.contents := by
  obtain ⟨xs, hxs⟩ := h
  rwa [TaskBuffer.contents, hxs.holds.contents_eq]

/-- The loop of `TaskBuffer::fill` moves what is in the queue until the buffer is full. -/
theorem exists_popped {caller : Caller} {p : Priority} {index available : Nat}
    (tasks : List (Spawned T)) :
    ∀ (s : Tasking.State T) (i tail : Nat), (∃ xs, s.Inv xs) →
      s.control = .pop caller p index available i tail →
      s.queues (s.queueAt p index) = tasks →
      ∃ s' available', Turns s s' ∧ s'.control = .fill caller p (index + 1) available' ∧
        (s.buffer.contents ≠ [] ∨ tasks ≠ [] ∧ i < available → s'.buffer.contents ≠ []) := by
  induction tasks with
  | nil =>
      intro s i tail hInv hControl hQueue
      have hNot : s.control ≠ .executing := by rw [hControl]; nofun
      by_cases hRound : i < available
      · exact ⟨_, _, .head hNot (.null hControl hRound) rfl (.refl _), rfl,
          fun h => h.resolve_right fun hTasks => hTasks.1 rfl⟩
      · exact ⟨_, _, .head hNot (.count hControl hRound) rfl (.refl _), rfl,
          fun h => h.resolve_right fun hTasks => hTasks.1 rfl⟩
  | cons task tasks ih =>
      intro s i tail hInv hControl hQueue
      have hNot : s.control ≠ .executing := by rw [hControl]; nofun
      by_cases hRound : i < available
      · have hPut := Step.put hControl hRound hQueue
        have hNext := (contents_eq hInv).put hControl hRound hQueue
        obtain ⟨s', available', hTurns, hEnd, hSome⟩ := ih _ (i + 1) _ ⟨_, hNext⟩ rfl
          (Function.update_self ..)
        refine ⟨s', available', .head hNot hPut rfl hTurns, hEnd, fun _ => hSome (Or.inl ?_)⟩
        rw [TaskBuffer.contents, hNext.holds.contents_eq]
        exact List.append_ne_nil_of_right_ne_nil _ (List.cons_ne_nil _ _)
      · exact ⟨_, _, .head hNot (.count hControl hRound) rfl (.refl _), rfl,
          fun h => h.resolve_right fun hTasks => hRound hTasks.2⟩

/-- The loop of `fill<P>` over the queues: it comes to its end, and if the buffer is empty then, all
the queues it came by are. -/
theorem exists_passed {caller : Caller} {p : Priority} (n : Nat) :
    ∀ (s : Tasking.State T) (index available : Nat), (∃ xs, s.Inv xs) →
      s.control = .fill caller p index available → n + index = maxNumaNodes + 1 →
      ∃ s' index' available', Turns s s' ∧ s'.control = .fill caller p index' available' ∧
        fillEnds index' available' = true ∧
        (s'.buffer.contents = [] → s.buffer.contents = [] ∧ s'.queues = s.queues ∧
          s'.numaNodeId = s.numaNodeId ∧
          ∀ k, index ≤ k → k ≤ maxNumaNodes → s.queues (s.queueAt p k) = []) := by
  induction n with
  | zero =>
      intro s index available hInv hControl hIndex
      rw [Nat.zero_add] at hIndex
      refine ⟨s, index, available, .refl s, hControl, by simp [fillEnds, hIndex],
        fun hEmpty => ⟨hEmpty, rfl, rfl, fun k hk hk' => ?_⟩⟩
      omega
  | succ n ih =>
      intro s index available hInv hControl hIndex
      have hNot : s.control ≠ .executing := by simp [hControl]
      have hRoom : s.buffer.contents = [] → available ≠ 0 := by
        intro hEmpty hZero
        have hOk := (contents_eq hInv).control
        rw [hControl, hEmpty, hZero] at hOk
        exact absurd (show 0 + 0 = taskBufferSize from hOk) (by decide)
      by_cases hEnds : fillEnds index available = true
      · refine ⟨s, index, available, .refl s, hControl, hEnds, fun hEmpty => ?_⟩
        have hAvailable := hRoom hEmpty
        have hLast : index ≠ maxNumaNodes + 1 := by omega
        simp [fillEnds, hAvailable, hLast] at hEnds
      · rw [Bool.not_eq_true] at hEnds
        by_cases hNothing : available = 0 ∨ s.queues (s.queueAt p index) = []
        · obtain ⟨s', index', available', hTurns, hEnd, hLast, hEmpty⟩ := ih
            { s with control := .fill caller p (index + 1) available } (index + 1) available
            ((Step.skip hControl hEnds hNothing).inv (contents_eq hInv)) rfl (by omega)
          refine ⟨s', index', available', .head hNot (.skip hControl hEnds hNothing) rfl hTurns,
            hEnd, hLast, fun hNil => ?_⟩
          obtain ⟨hContents, hQueues, hNuma, hAll⟩ := hEmpty hNil
          refine ⟨hContents, hQueues, hNuma, fun k hk hk' => ?_⟩
          rcases Nat.eq_or_lt_of_le hk with rfl | hLess
          · exact hNothing.resolve_left (hRoom hContents)
          · exact hAll k hLess hk'
        · rw [not_or] at hNothing
          have hEnter := Step.enter hControl hEnds hNothing.1 hNothing.2
          obtain ⟨s₁, available₁, hPopped, hFill, hSome⟩ := exists_popped _ _ 0 _
            (hEnter.inv (contents_eq hInv)) rfl rfl
          have hBuffered := hSome (Or.inr ⟨hNothing.2, Nat.pos_of_ne_zero hNothing.1⟩)
          obtain ⟨s', index', available', hTurns, hEnd, hLast, hEmpty⟩ := ih s₁ (index + 1)
            available₁ (hPopped.inv (hEnter.inv (contents_eq hInv))) hFill (by omega)
          exact ⟨s', index', available', .head hNot hEnter rfl (hPopped.trans hTurns), hEnd, hLast,
            fun hNil => absurd (hEmpty hNil).1 hBuffered⟩

/-- `Channel::fill` comes to its end.  If the buffer is empty then, the queues it came by are. -/
theorem exists_filled {caller : Caller} {p : Priority} {index available : Nat}
    (hInv : ∃ xs, s.Inv xs) (hControl : s.control = .fill caller p index available)
    (hIndex : index ≤ maxNumaNodes + 1) :
    ∃ s' size, Turns s s' ∧ s'.control = .filled caller size ∧
      (s'.buffer.contents = [] → p = .normal → index = 0 → s.buffer.contents = [] ∧
        ∀ p' k, k ≤ maxNumaNodes → s.queues (s.queueAt p' k) = []) := by
  obtain ⟨s₁, index₁, available₁, hPassed, hControl₁, hEnds₁, hEmpty₁⟩ :=
    exists_passed (maxNumaNodes + 1 - index) s index available hInv hControl (by omega)
  have hInv₁ := hPassed.inv hInv
  have hNot₁ : s₁.control ≠ .executing := by rw [hControl₁]; nofun
  by_cases hLow : p = .normal ∧ s₁.buffer.empty = true
  · obtain ⟨rfl, hBuffer⟩ := hLow
    have hStep := Step.low hControl₁ hEnds₁ hBuffer
    obtain ⟨s₂, index₂, available₂, hPassed₂, hControl₂, hEnds₂, hEmpty₂⟩ :=
      exists_passed (maxNumaNodes + 1) _ 0 taskBufferSize (hStep.inv (contents_eq hInv₁)) rfl rfl
    have hNot₂ : s₂.control ≠ .executing := by rw [hControl₂]; nofun
    refine ⟨_, _, hPassed.trans (.head hNot₁ hStep rfl (hPassed₂.trans
      (.head hNot₂ (.filled hControl₂ hEnds₂ nofun) rfl (.refl _)))), rfl, ?_⟩
    rintro hNil - rfl
    obtain ⟨hContents₁, -, -, hAll₂⟩ := hEmpty₂ hNil
    obtain ⟨hContents, hQueues, hNuma, hAll₁⟩ := hEmpty₁ hContents₁
    refine ⟨hContents, fun p' k hk => ?_⟩
    cases p' with
    | normal => exact hAll₁ k (Nat.zero_le _) hk
    | low =>
        have hLow := hAll₂ k (Nat.zero_le _) hk
        simp only [State.queueAt, hQueues, hNuma] at hLow ⊢
        exact hLow
  · have hSome : p = .normal → s₁.buffer.empty = false := fun hp =>
      Bool.eq_false_iff.mpr fun hBuffer => hLow ⟨hp, hBuffer⟩
    refine ⟨_, _, hPassed.trans (.head hNot₁ (.filled hControl₁ hEnds₁ hSome) rfl (.refl _)), rfl,
      fun hNil hp _ => ?_⟩
    have hEmpty := (contents_eq hInv₁).holds.empty_iff.mpr hNil
    rw [hSome hp] at hEmpty
    exact absurd hEmpty (by decide)

/-- `fill` comes to its end wherever the worker is in it. -/
theorem exists_filled_of_pop {caller : Caller} {p : Priority} {index available i tail : Nat}
    (hInv : ∃ xs, s.Inv xs) (hControl : s.control = .pop caller p index available i tail)
    (hIndex : index ≤ maxNumaNodes) :
    ∃ s' size, Turns s s' ∧ s'.control = .filled caller size := by
  obtain ⟨s₁, available₁, hPopped, hControl₁, -⟩ := exists_popped _ s i tail hInv hControl rfl
  obtain ⟨s', size, hTurns, hFilled, -⟩ :=
    exists_filled (hPopped.inv hInv) hControl₁ (Nat.succ_le_succ hIndex)
  exact ⟨s', size, hPopped.trans hTurns, hFilled⟩

/-- A worker that does not execute comes to `next()`. -/
theorem exists_inner (hInv : ∃ xs, s.Inv xs) (hRange : InRange s.control)
    (hIdle : ¬ Busy s.control) : ∃ s', Turns s s' ∧ s'.control = .inner := by
  have hEnter : ∀ {s₁ : Tasking.State T} {size : Nat}, s₁.control = .filled .outer size →
      ∃ s', Turns s₁ s' ∧ s'.control = .inner := fun {s₁ size} hFilled =>
    ⟨_, .head (by rw [hFilled]; nofun) (.enterInner hFilled) rfl (.refl _), rfl⟩
  have hCaller : ∀ {s₁ : Tasking.State T} {caller : Caller} {size : Nat}, Turns s s₁ →
      s₁.control = .filled caller size → caller = .outer →
        ∃ s', Turns s s' ∧ s'.control = .inner := by
    rintro s₁ caller size hTurns hFilled rfl
    obtain ⟨s', hLast, hInner⟩ := hEnter hFilled
    exact ⟨s', hTurns.trans hLast, hInner⟩
  cases hControl : s.control with
  | outer =>
      have hStep := Step.outer hControl
      obtain ⟨s₁, size, hTurns, hFilled, -⟩ :=
        exists_filled (hStep.inv (contents_eq hInv)) rfl (Nat.zero_le _)
      exact hCaller (.head (by rw [hControl]; nofun) hStep rfl hTurns) hFilled rfl
  | fill caller p index available =>
      rw [hControl] at hRange hIdle
      obtain ⟨s₁, size, hTurns, hFilled, -⟩ := exists_filled hInv hControl hRange
      exact hCaller hTurns hFilled (not_not.mp hIdle)
  | pop caller p index available i tail =>
      rw [hControl] at hRange hIdle
      obtain ⟨s₁, size, hTurns, hFilled⟩ := exists_filled_of_pop hInv hControl hRange
      exact hCaller hTurns hFilled (not_not.mp hIdle)
  | filled caller size =>
      rw [hControl] at hIdle
      exact hCaller (.refl s) hControl (not_not.mp hIdle)
  | inner => exact ⟨s, .refl s, hControl⟩
  | taken | executing =>
      rw [hControl] at hIdle
      exact absurd trivial hIdle

/-- A worker with a task in its hand comes to its execution. -/
theorem exists_executing (hInv : ∃ xs, s.Inv xs) (hRange : InRange s.control)
    (hBusy : Busy s.control) : ∃ s', Turns s s' ∧ s'.control = .executing := by
  have hCaller : ∀ {s₁ : Tasking.State T} {caller : Caller} {size : Nat}, Turns s s₁ →
      s₁.control = .filled caller size → caller ≠ .outer →
      ∃ s', Turns s s' ∧ s'.control = .executing := by
    intro s₁ caller size hTurns hFilled hNot
    have hNext : s₁.control ≠ .executing := by rw [hFilled]; nofun
    cases caller with
    | outer => exact absurd rfl hNot
    | refill =>
        exact ⟨_, hTurns.trans (.head hNext (.afterRefill hFilled) rfl (.refl _)), rfl⟩
    | profiling =>
        exact ⟨_, hTurns.trans (.head hNext (.afterProfiling hFilled) rfl (.refl _)), rfl⟩
  cases hControl : s.control with
  | taken =>
      have hNot : s.control ≠ .executing := by rw [hControl]; nofun
      by_cases hSmall : s.channelSize - 1 ≤ s.prefetchDistance
      · have hStep := Step.refill hControl hSmall
        obtain ⟨s₁, size, hTurns, hFilled, -⟩ :=
          exists_filled (hStep.inv (contents_eq hInv)) rfl (Nat.zero_le _)
        exact hCaller (.head hNot hStep rfl hTurns) hFilled nofun
      · exact ⟨_, .head hNot (.execute hControl hSmall) rfl (.refl _), rfl⟩
  | fill caller p index available =>
      rw [hControl] at hRange hBusy
      obtain ⟨s₁, size, hTurns, hFilled, -⟩ := exists_filled hInv hControl hRange
      exact hCaller hTurns hFilled hBusy
  | pop caller p index available i tail =>
      rw [hControl] at hRange hBusy
      obtain ⟨s₁, size, hTurns, hFilled⟩ := exists_filled_of_pop hInv hControl hRange
      exact hCaller hTurns hFilled hBusy
  | filled caller size =>
      rw [hControl] at hBusy
      exact hCaller (.refl s) hControl hBusy
  | executing => exact ⟨s, .refl s, hControl⟩
  | outer | inner =>
      rw [hControl] at hBusy
      exact hBusy.elim

/-- The queues that are read by `fill`. -/
def InReach : Backend → Prop
  | .localQueue _ => True
  | .remoteQueue _ numaNodeId => numaNodeId < maxNumaNodes

/-- From whatever region the worker begins, it comes by all queues. -/
theorem exists_queueAt {queue : Backend} (hReach : InReach queue) :
    ∃ p k, k ≤ maxNumaNodes ∧ s.queueAt p k = queue := by
  cases queue with
  | localQueue p => exact ⟨p, 0, Nat.zero_le _, rfl⟩
  | remoteQueue p numaNodeId =>
      have hNode : numaNodeId < 8 := hReach
      have hMask : ∀ n : Nat, n &&& (maxNumaNodes - 1) = n % 8 := fun n =>
        Nat.and_two_pow_sub_one_eq_mod n 3
      refine ⟨p, (numaNodeId + 8 - s.numaNodeId % 8) % 8 + 1, ?_, ?_⟩
      · show _ ≤ 8
        omega
      · show Backend.remoteQueue p _ = _
        rw [hMask]
        congr 1
        omega

/-- A worker that has something in its queues or its buffer comes to `next()` with a task in the
buffer. -/
theorem exists_ready {queue : Backend} (hInv : ∃ xs, s.Inv xs) (hRange : InRange s.control)
    (hIdle : ¬ Busy s.control) (hReach : InReach queue) (hSome : undelivered s queue ≠ []) :
    ∃ s', Turns s s' ∧ s'.control = .inner ∧ s'.buffer.contents ≠ [] := by
  obtain ⟨s₁, hTurns₁, hInner₁⟩ := exists_inner hInv hRange hIdle
  by_cases hContents : s₁.buffer.contents = []
  · have hInv₁ := contents_eq (hTurns₁.inv hInv)
    have hHolds : s₁.buffer.Holds [] := hContents ▸ hInv₁.holds
    have hDrained := Step.drained hInner₁ hHolds.next_nil
    obtain ⟨xs, hxs⟩ := hDrained.inv hInv₁
    have hOuter := Step.outer (s := { s₁ with control := .outer }) rfl
    obtain ⟨s₂, size, hTurns₂, hFilled, hAll⟩ := exists_filled (hOuter.inv hxs) rfl (Nat.zero_le _)
    refine ⟨{ s₂ with channelSize := size, control := .inner },
      hTurns₁.trans (.head (by rw [hInner₁]; nofun) hDrained rfl
        (.head nofun hOuter rfl (hTurns₂.trans
          (.head (by rw [hFilled]; nofun) (.enterInner hFilled) rfl (.refl _))))), rfl,
      fun hNil => hSome ?_⟩
    -- the buffer was filled from all queues, so there was nothing in any of them
    obtain ⟨-, hQueues⟩ := hAll hNil rfl rfl
    obtain ⟨p, k, hk, rfl⟩ := exists_queueAt (s := s₁) hReach
    have hQueue : s₁.queues (s₁.queueAt p k) = [] := hQueues p k hk
    rw [← undelivered_of_turns hTurns₁ hInv, Delivery.undelivered, hContents, hQueue]
    rfl
  · exact ⟨s₁, hTurns₁, hInner₁, hContents⟩

end Channel

/-! ## All workers -/

section Runtime

variable {ι σ τ ε : Type*} [DecidableEq ι] {numaNodeId : ι → Nat} {priority : τ → Priority}
  {prog : Program ι σ τ ε} {s s' : State ι σ τ} {e : Event ι ε} {t : ι}

/-- Where the workers are, beside `Inv`. -/
structure Placed (prog : Program ι σ τ ε) (s : State ι σ τ) : Prop where
  inRange : ∀ t, InRange (s.channels t).control
  held : ∀ t, Busy (s.channels t).control → (s.channels t).control ≠ .executing →
    s.current t ≠ none
  working : ∀ t, ¬ prog.idle s.program t →
    (s.channels t).control = .executing ∧ s.current t = none

/-- A worker becomes busy by taking a task out of the buffer. -/
theorem busy_of_turn {T : Type*} {s s' : Tasking.State T} (hTurn : Turn s s')
    (h : Busy s'.control) : Busy s.control := by
  obtain ⟨hExecuting, hStep, hReturned⟩ := hTurn
  cases hStep with
  | outer _ | enterInner _ | drained _ _ => exact absurd h (by simp [Busy])
  | next _ _ => exact absurd hReturned (by simp)
  | profiling hControl _ | executed hControl => exact absurd hControl hExecuting
  | skip hControl _ _ | enter hControl _ _ _ | put hControl _ _ | null hControl _
  | count hControl _ | low hControl _ _ | filled hControl _ _ =>
      rw [hControl]
      exact h
  | afterRefill hControl =>
      rw [hControl]
      exact show Caller.refill ≠ .outer by decide
  | afterProfiling hControl =>
      rw [hControl]
      exact show Caller.profiling ≠ .outer by decide
  | refill hControl _ | execute hControl _ =>
      rw [hControl]
      exact trivial

namespace Placed

theorem push (h : Placed prog s) (source target : ι) (task : τ) :
    Placed prog (s.push numaNodeId priority source target task) := by
  have hSame : ∀ t, ((s.push numaNodeId priority source target task).channels t).control =
      (s.channels t).control := by
    intro t
    by_cases hEq : t = target
    · subst hEq
      simp [State.push, Tasking.State.push]
    · simp [State.push, hEq]
  refine ⟨fun t => ?_, fun t => ?_, fun t => ?_⟩
  · rw [hSame]
    exact h.inRange t
  · rw [hSame]
    exact h.held t
  · rw [hSame]
    exact h.working t

/-- One channel goes on, and its worker is not in an execution. -/
theorem move (h : Placed prog s) {channel : Tasking.State (ι × τ)} {task : Option (ι × τ)}
    (hRange : InRange channel.control)
    (hHeld : Busy channel.control → channel.control ≠ .executing → task ≠ none)
    (hIdle : prog.idle s.program t) : Placed prog ((s.move t channel).hold t task) := by
  refine ⟨fun t' => ?_, fun t' => ?_, fun t' ht => ?_⟩
  · by_cases hEq : t' = t
    · subst hEq
      simpa [State.move, State.hold] using hRange
    · simpa [State.move, State.hold, hEq] using h.inRange t'
  · by_cases hEq : t' = t
    · subst hEq
      simpa [State.move, State.hold] using hHeld
    · simpa [State.move, State.hold, hEq] using h.held t'
  · have hne : t' ≠ t := by
      rintro rfl
      exact ht hIdle
    simpa [State.move, State.hold, hne] using h.working t' ht

theorem move_hold_self (s : State ι σ τ) (t : ι) (channel : Tasking.State (ι × τ)) :
    (s.move t channel).hold t (s.current t) = s.move t channel := by
  simp [State.move, State.hold]

/-- The program goes on at `t`, which is executing. -/
theorem advance (h : Placed prog s) (hControl : (s.channels t).control = .executing)
    {task : Option (ι × τ)} (hNone : task = none) {program : σ}
    (hOther : ∀ t' ≠ t, prog.idle s.program t' → prog.idle program t') :
    Placed prog ({ s with program := program }.hold t task) := by
  subst hNone
  refine ⟨h.inRange, fun t' hBusy hNot => ?_, fun t' ht => ?_⟩
  · have hne : t' ≠ t := by
      rintro rfl
      exact hNot hControl
    simpa [State.hold, hne] using h.held t' hBusy hNot
  · by_cases hEq : t' = t
    · subst hEq
      exact ⟨hControl, by simp [State.hold]⟩
    · simpa [State.hold, hEq] using h.working t' fun hIdle => ht (hOther t' hEq hIdle)

omit [DecidableEq ι] in
/-- A worker that is not executing serves an idle party. -/
theorem idle (h : Placed prog s) (hControl : (s.channels t).control ≠ .executing) :
    prog.idle s.program t := by
  by_contra hBusy
  exact hControl (h.working t hBusy).1

theorem step (hPrompt : prog.Prompt) (h : Placed prog s)
    (hStep : Step numaNodeId priority prog s e s') : Placed prog s' := by
  cases hStep with
  | @worker t channel hControl hWorker hReturned =>
      have hMoved : Placed prog ((s.move t channel).hold t (s.current t)) :=
        h.move (inRange_of_worker (h.inRange t) hWorker)
          (fun hBusy _ => h.held t (busy_of_turn ⟨hControl, hWorker, hReturned⟩ hBusy) hControl)
          (h.idle hControl)
      rwa [move_hold_self] at hMoved
  | @next t buffer x hControl hNext =>
      exact h.move trivial (fun _ _ => nofun) (h.idle (by rw [hControl]; nofun))
  | @begin t source task e program hControl hCurrent hReceive =>
      exact h.advance hControl rfl (hPrompt.receive_other hReceive)
  | @work t e program task hControl hCurrent hWork =>
      have hProgram := h.advance hControl hCurrent (hPrompt.work_other hWork)
      have hSame : ({ s with program := program }.hold t (s.current t) : State ι σ τ) =
          { s with program := program } := by simp [State.hold]
      rw [hSame] at hProgram
      cases task with
      | none => exact hProgram
      | some sent => exact hProgram.push t sent.1 sent.2
  | @executed t hControl hCurrent hIdle =>
      have hMoved : Placed prog
          ((s.move t { s.channels t with control := .inner }).hold t (s.current t)) :=
        h.move trivial (fun hBusy _ => hBusy.elim) hIdle
      rwa [move_hold_self] at hMoved

theorem run {es : List (Event ι ε)} (hPrompt : prog.Prompt) (h : Placed prog s)
    (hRun : Run (Step numaNodeId priority prog) s es s') : Placed prog s' :=
  hRun.invariant h fun _ _ _ hMid hStep => hMid.step hPrompt hStep

/-- Before the workers run. -/
theorem start {prefetchDistance : Nat} {program : σ} {sent : List (ι × ι × τ)}
    (hIdle : ∀ t, prog.idle program t) :
    Placed prog (State.start numaNodeId priority prefetchDistance program sent) := by
  have hPushed : ∀ (sent : List (ι × ι × τ)) (s : State ι σ τ), Placed prog s →
      Placed prog (sent.foldl
        (fun s task => s.push numaNodeId priority task.1 task.2.1 task.2.2) s) := by
    intro sent
    induction sent with
    | nil => exact fun s h => h
    | cons task sent ih => exact fun s h => ih _ (h.push ..)
  exact hPushed sent _ ⟨fun _ => trivial, fun _ hBusy => hBusy.elim,
    fun t ht => absurd (hIdle t) ht⟩

end Placed

/-- A worker with a task in its hand comes to its execution. -/
theorem exists_run_executing (h : Inv numaNodeId priority s) (hPlaced : Placed prog s)
    (hCurrent : s.current t ≠ none) :
    ∃ es s', Run (Step numaNodeId priority prog) s es s' ∧ es.filterMap Event.step? = [] ∧
      s'.program = s.program ∧ (s'.channels t).control = .executing ∧ s'.current t ≠ none := by
  obtain ⟨channel, hTurns, hExecuting⟩ :=
    exists_executing (h.channel t) (hPlaced.inRange t) (h.current t hCurrent)
  obtain ⟨es, hRun, hNone⟩ := exists_moved numaNodeId priority prog hTurns
  exact ⟨es, _, hRun, hNone, rfl, by simpa [State.move] using hExecuting, hCurrent⟩

/-- A worker with something in its mailbox gets a task into its hand. -/
theorem exists_run_taken (h : Inv numaNodeId priority s) (hPlaced : Placed prog s) {source : ι}
    {p : Priority} (hReach : ∀ source, numaNodeId source < maxNumaNodes)
    (hCurrent : s.current t = none) (hControl : (s.channels t).control ≠ .executing)
    (hBox : s.boxes numaNodeId priority (source, t, p) ≠ []) :
    ∃ es s', Run (Step numaNodeId priority prog) s es s' ∧ es.filterMap Event.step? = [] ∧
      s'.program = s.program ∧ s'.current t ≠ none := by
  have hIdle : ¬ Busy (s.channels t).control := fun hBusy =>
    hPlaced.held t hBusy hControl hCurrent
  have hSome : undelivered (s.channels t) (route numaNodeId source t p) ≠ [] := by
    intro hNil
    simp [State.boxes, hCurrent, hNil, sentBy] at hBox
  have hQueue : InReach (route numaNodeId source t p) := by
    unfold route
    split
    · exact trivial
    · exact hReach source
  obtain ⟨channel, hTurns, hInner, hContents⟩ :=
    exists_ready (h.channel t) (hPlaced.inRange t) hIdle hQueue hSome
  obtain ⟨es, hRun, hNone⟩ :=
    exists_moved numaNodeId priority prog hTurns
  have hHolds := (contents_eq (hTurns.inv (h.channel t))).holds
  rcases hNext : channel.buffer.next with ⟨buffer, _ | x⟩
  · exact absurd (hHolds.next_none hNext).1 hContents
  · have hStep : Step numaNodeId priority prog (s.move t channel) (.next t) _ :=
      .next (by simpa [State.move] using hInner) (by simpa [State.move] using hNext)
    refine ⟨_, _, hRun.snoc hStep, ?_, rfl, by simp [State.hold]⟩
    rw [List.filterMap_append, hNone]
    rfl

/-- A party that is idle is brought to a message as long as there is one in its mailboxes. -/
theorem exists_run_begin (hPrompt : prog.Prompt) (h : Inv numaNodeId priority s)
    (hPlaced : Placed prog s) {source : ι} {p : Priority}
    (hReach : ∀ source, numaNodeId source < maxNumaNodes) (hIdle : prog.idle s.program t)
    (hBox : s.boxes numaNodeId priority (source, t, p) ≠ []) :
    ∃ es s' e, Run (Step numaNodeId priority prog) s es s' ∧
      es.filterMap Event.step? = [e] := by
  have hBegin : ∀ {es : List (Event ι ε)} {s₁ : State ι σ τ},
      Run (Step numaNodeId priority prog) s es s₁ → es.filterMap Event.step? = [] →
      s₁.program = s.program → s₁.current t ≠ none → ∃ es s' e,
        Run (Step numaNodeId priority prog) s es s' ∧ es.filterMap Event.step? = [e] := by
    intro es s₁ hRun hNone hProgram hCurrent
    obtain ⟨es', s₂, hRun', hNone', hProgram', hExecuting, hCurrent'⟩ :=
      exists_run_executing (h.run hRun).1 (hPlaced.run hPrompt hRun) hCurrent
    obtain ⟨⟨source', task⟩, hTask⟩ := Option.ne_none_iff_exists'.mp hCurrent'
    have hStill : prog.idle s₂.program t := by
      rw [hProgram', hProgram]
      exact hIdle
    obtain ⟨e, program, hReceive⟩ := hPrompt.receives source' task hStill
    refine ⟨_, _, e, (hRun.append hRun').snoc (.begin hExecuting hTask hReceive), ?_⟩
    rw [List.filterMap_append, List.filterMap_append, hNone, hNone']
    rfl
  by_cases hCurrent : s.current t = none
  · by_cases hControl : (s.channels t).control = .executing
    · -- the execution before has to return first
      have hStep : Step numaNodeId priority prog s (.executed t) _ :=
        .executed hControl hCurrent hIdle
      have hInv := h.step hStep
      have hBoxes : State.boxes numaNodeId priority
          (s.move t { s.channels t with control := .inner }) (source, t, p) ≠ [] := by
        have hSame := congrArg Mailboxes.State.boxes (Run.eq_of_nil hInv.2)
        exact ne_of_eq_of_ne (congrFun hSame (source, t, p)) hBox
      obtain ⟨es, s₁, hRun, hNone, hProgram, hTaken⟩ :=
        exists_run_taken hInv.1 (hPlaced.step hPrompt hStep) hReach hCurrent
          (by simp [State.move]) hBoxes
      exact hBegin ((Run.single hStep).append hRun) hNone hProgram hTaken
    · obtain ⟨es, s₁, hRun, hNone, hProgram, hTaken⟩ :=
        exists_run_taken h hPlaced hReach hCurrent hControl hBox
      exact hBegin hRun hNone hProgram hTaken
  · exact hBegin Run.nil rfl rfl hCurrent

/-- What the program can do over mailboxes does not stay undone for ever: the runtime comes to
some step of the program. -/
theorem exists_run_step (hPrompt : prog.Prompt) (h : Inv numaNodeId priority s)
    (hPlaced : Placed prog s) (hReach : ∀ source, numaNodeId source < maxNumaNodes) {e : ε}
    {m : Mailboxes.State ι σ τ Priority}
    (hStep : Mailboxes.Step priority prog (s.mailboxes numaNodeId priority) e m) :
    ∃ es s' e, Run (Step numaNodeId priority prog) s es s' ∧
      es.filterMap Event.step? = [e] := by
  cases hStep with
  | receive hBox hReceive =>
      exact exists_run_begin hPrompt h hPlaced hReach (hPrompt.waits hReceive)
        (ne_of_eq_of_ne hBox (List.cons_ne_nil _ _))
  | work hWork =>
      obtain ⟨hControl, hCurrent⟩ := hPlaced.working _ (hPrompt.works hWork)
      exact ⟨_, _, _, Run.single (.work hControl hCurrent hWork), rfl⟩

/-- From a state in which the program has only finitely many steps over mailboxes, the runtime can
bring it to its end. -/
theorem exists_end (hPrompt : prog.Prompt) (hReach : ∀ source, numaNodeId source < maxNumaNodes)
    {m : Mailboxes.State ι σ τ Priority}
    (hAcc : Acc (fun m' m => ∃ e, Mailboxes.Step priority prog m e m') m) :
    ∀ s, s.mailboxes numaNodeId priority = m → Inv numaNodeId priority s → Placed prog s →
      ∃ es s', Run (Step numaNodeId priority prog) s es s' ∧
        ∀ e m', ¬ Mailboxes.Step priority prog (s'.mailboxes numaNodeId priority) e m' := by
  induction hAcc with
  | intro m _ ih =>
      rintro s rfl h hPlaced
      by_cases hNext : ∃ e m', Mailboxes.Step priority prog (s.mailboxes numaNodeId priority) e m'
      · obtain ⟨e, m', hStep⟩ := hNext
        obtain ⟨es, s₁, e₁, hRun, hOne⟩ := exists_run_step hPrompt h hPlaced hReach hStep
        obtain ⟨hInv, hMail⟩ := h.run hRun
        rw [hOne] at hMail
        obtain ⟨es', s', hRest, hEnd⟩ :=
          ih _ ⟨e₁, hMail.step_of_single⟩ s₁ rfl hInv (hPlaced.run hPrompt hRun)
        exact ⟨_, s', hRun.append hRest, hEnd⟩
      · exact ⟨[], s, Run.nil, fun e m' hStep => hNext ⟨e, m', hStep⟩⟩

/-- No task is on its way. -/
structure Quiet (s : State ι σ τ) : Prop where
  current : ∀ t, s.current t = none
  undelivered : ∀ t queue, Delivery.undelivered (s.channels t) queue = []

variable (priority) in
theorem sentBy_ne {x : ι × τ} {tasks : List (ι × τ)} (h : x ∈ tasks) :
    sentBy priority x.1 (priority x.2) tasks ≠ [] :=
  List.ne_nil_of_mem (List.mem_map_of_mem (List.mem_filter.mpr ⟨h, by simp⟩))

/-- What is on its way is in some mailbox. -/
theorem Inv.quiet_iff (h : Inv numaNodeId priority s) :
    Quiet s ↔ s.boxes numaNodeId priority = fun _ => [] := by
  constructor
  · intro hQuiet
    funext box
    simp [State.boxes, hQuiet.current, hQuiet.undelivered, sentBy]
  · intro hBoxes
    refine ⟨fun t => ?_, fun t queue => ?_⟩
    · by_contra hCurrent
      obtain ⟨x, hx⟩ := Option.ne_none_iff_exists'.mp hCurrent
      refine sentBy_ne priority ?_ (congrFun hBoxes (x.1, t, priority x.2))
      exact List.mem_append_left _ (by simp [hx])
    · by_contra hQueue
      obtain ⟨x, hx⟩ := List.exists_mem_of_ne_nil _ hQueue
      refine sentBy_ne priority ?_ (congrFun hBoxes (x.task.1, t, priority x.task.2))
      rw [← h.routed t queue x hx]
      exact List.mem_append_right _ (List.mem_map_of_mem hx)

theorem prompt_collecting : collecting.Prompt where
  receives _ message _ := ⟨message, _, rfl, rfl⟩
  waits _ := trivial
  works hWork := hWork.elim
  receive_other _ _ _ _ := trivial
  work_other hWork := hWork.elim

theorem acc_collecting {m : Mailboxes.State Bool (List (Bool × Nat)) Nat Priority}
    (hNone : m.boxes = fun _ => []) :
    Acc (fun m' m => ∃ e, Mailboxes.Step (fun _ => .normal) collecting m e m') m := by
  refine Acc.intro m fun m' hNext => ?_
  obtain ⟨e, hStep⟩ := hNext
  cases hStep with
  | receive hBox _ =>
      rw [hNone] at hBox
      exact absurd hBox (List.cons_ne_nil _ _).symm
  | work hWork => exact hWork.elim

/-- The runtime does not get stuck.  If every run of a program over mailboxes comes to an end, then
the runtime can bring it to an end from every state it gets into: no task is kept for ever in
a queue or in a buffer, wherever the workers are in their loops and whatever their distance to
prefetch. -/
theorem exists_end_of_run (numaNodeId : ι → Nat) (priority : τ → Priority)
    (prog : Program ι σ τ ε) (hPrompt : prog.Prompt)
    (hReach : ∀ source, numaNodeId source < maxNumaNodes) (prefetchDistance : Nat) (program : σ)
    (hIdle : ∀ t, prog.idle program t) (sent : List (ι × ι × τ))
    (hAcc : Acc (fun m' m => ∃ e, Mailboxes.Step priority prog m e m')
      (Mailboxes.start priority program sent)) (es : List (Event ι ε)) (s : State ι σ τ)
    (hRun : Run (Step numaNodeId priority prog)
      (State.start numaNodeId priority prefetchDistance program sent) es s) :
    ∃ es' s', Run (Step numaNodeId priority prog) s es' s' ∧
      ∀ e m, ¬ Mailboxes.Step priority prog (s'.mailboxes numaNodeId priority) e m := by
  obtain ⟨hInv, hStart⟩ := inv_start numaNodeId priority prefetchDistance program sent
  obtain ⟨hInvEnd, hMail⟩ := hInv.run hRun
  rw [hStart] at hMail
  exact exists_end hPrompt hReach (hMail.acc hAcc) s rfl hInvEnd
    ((Placed.start hIdle).run hPrompt hRun)

/-- A task that a channel has spawned for the other one is executed. -/
theorem exists_end_of_run_collecting :
    ∃ es s, Run (Step (fun _ => 0) (fun _ => .normal) collecting)
        (State.start (fun _ => 0) (fun _ => .normal) 2 [] [(false, true, 5)]) es s ∧
      ∀ e m, ¬ Mailboxes.Step (fun _ => .normal) collecting
        (s.mailboxes (fun _ => 0) fun _ => .normal) e m := by
  have hAcc : Acc (fun m' m => ∃ e, Mailboxes.Step (fun _ => .normal) collecting m e m')
      (Mailboxes.start (fun _ => Priority.normal) [] [(false, true, 5)]) := by
    refine Acc.intro _ fun m' hNext => ?_
    obtain ⟨e, hStep⟩ := hNext
    cases hStep with
    | @receive source target message rest _ _ hBox _ =>
        refine acc_collecting ?_
        have hOnly : (source, target, Priority.normal) = (false, true, Priority.normal) ∧
            rest = [] := by
          revert hBox
          cases source <;> cases target <;> simp [Mailboxes.start, Mailboxes.post]
        obtain ⟨hSame, rfl⟩ := hOnly
        show Function.update (Function.update (fun _ => []) (false, true, Priority.normal) [5])
          (source, target, Priority.normal) [] = fun _ => []
        rw [hSame, Function.update_idem]
        exact Function.update_eq_self _ fun _ => []
    | work hWork => exact hWork.elim
  exact exists_end_of_run _ _ collecting prompt_collecting (fun _ => by decide) 2 []
    (fun _ => trivial) [(false, true, 5)] hAcc [] _ Run.nil

end Runtime

end MxTasking.Tasking.Delivery
