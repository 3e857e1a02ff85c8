import MxTasking.HashJoin.System

/-!
# Where the tasks of the hash join are

A partition task and the merge task exist once.  Each of them waits in its notifier, is in
front of being spawned, is in exactly one queue, or has been started (`Placed`).  With that
nothing is partitioned twice, and a channel that partitions a chunk partitions its own.
-/

namespace MxTasking.HashJoin

open MxTasking.Verified (update_cases)

/-- The tasks of which there is one. -/
def Task.Single : Task → Prop
  | .partition _ _ => True
  | .merge => True
  | _ => False

/-- The channel a single task is spawned to by channel `c`. -/
def Task.home (c : Nat) : Task → Nat
  | .partition _ i => i
  | _ => c

/-- The channel is in a `PartitionTask` of the phase. -/
def Running.Partitions (kind : Kind) : Running → Prop
  | .partitioning k _ _ _ => k = kind
  | .flushing k _ _ => k = kind
  | .notifying k _ _ => k = kind
  | _ => False

/-- A single task is in a queue exactly when its place says so. -/
def Queued (s : State) : Prop :=
  ∀ c t x, x.Single → (s.queues (c, t)).count x =
    if s.place x = .queued c ∧ t = x.home c then 1 else 0

namespace Queued

variable {s : State} {c t : Nat} {x : Task} {rest : List Task}

theorem place_of_mem (h : Queued s) (hx : x.Single) (hMem : x ∈ s.queues (c, t)) :
    s.place x = .queued c ∧ t = x.home c := by
  have hCount := h c t x hx
  have hPos := List.count_pos_iff.mpr hMem
  by_contra hNot
  rw [if_neg hNot] at hCount
  omega

theorem mem_of_place (h : Queued s) (hx : x.Single) (hPlace : s.place x = .queued c) :
    x ∈ s.queues (c, x.home c) := by
  have hCount := h c (x.home c) x hx
  rw [if_pos ⟨hPlace, rfl⟩] at hCount
  exact List.count_pos_iff.mp (by omega)

/-- Only queues and places matter. -/
theorem congr {s' : State} (h : Queued s) (hQueues : s'.queues = s.queues)
    (hPlace : s'.place = s.place) : Queued s' := by
  intro c t x hx
  rw [hQueues, hPlace]
  exact h c t x hx

theorem pop_other (h : Queued s) {y : Task} (hQueue : s.queues (c, t) = y :: rest)
    (hy : ¬ y.Single) : Queued (s.pop c t rest) := by
  intro c' t' x hx
  have hOld := h c' t' x hx
  by_cases hEq : (c', t') = (c, t)
  · have hne : y ≠ x := by
      rintro rfl
      exact hy hx
    refine Eq.trans ?_ hOld
    rw [hEq, hQueue, List.count_cons_of_ne hne]
    simp [State.pop]
  · refine Eq.trans ?_ hOld
    simp [State.pop, hEq]

theorem pop_single (h : Queued s) (hQueue : s.queues (c, t) = x :: rest) (hx : x.Single) :
    Queued ((s.pop c t rest).move x .started) := by
  obtain ⟨hPlace, hHome⟩ := h.place_of_mem hx (by rw [hQueue]; exact List.mem_cons_self ..)
  intro c' t' y hy
  have hOld := h c' t' y hy
  by_cases hEq : y = x
  · subst hEq
    have hCount : ((s.pop c t rest).queues (c', t')).count y = 0 := by
      by_cases hSame : (c', t') = (c, t)
      · rw [hSame, hQueue, List.count_cons_self] at hOld
        rw [hSame]
        simp only [State.pop, Function.update_self]
        split at hOld <;> omega
      · have hNot : ¬ (s.place y = .queued c' ∧ t' = y.home c') := by
          rintro ⟨hPlace', rfl⟩
          obtain rfl := Place.queued.inj (hPlace.symm.trans hPlace')
          rw [hHome] at hSame
          exact hSame rfl
        rw [if_neg hNot] at hOld
        simpa [State.pop, hSame] using hOld
    simpa [State.move] using hCount
  · by_cases hSame : (c', t') = (c, t)
    · rw [hSame, hQueue, List.count_cons_of_ne (Ne.symm hEq)] at hOld
      simp only [State.move, State.pop, hSame, Function.update_self, Function.update_of_ne hEq]
      exact hOld
    · simpa [State.move, State.pop, hSame, hEq] using hOld

theorem push_other (h : Queued s) {y : Task} (hy : ¬ y.Single) : Queued (s.spawn c t y) := by
  intro c' t' x hx
  have hOld := h c' t' x hx
  by_cases hEq : (c', t') = (c, t)
  · have hne : y ≠ x := by
      rintro rfl
      exact hy hx
    refine Eq.trans ?_ hOld
    rw [hEq]
    simp [State.spawn, hne]
  · refine Eq.trans ?_ hOld
    simp [State.spawn, hEq]

theorem push_single (h : Queued s) (hx : x.Single) (hPlace : ∀ c, s.place x ≠ .queued c) :
    Queued ((s.spawn c (x.home c) x).move x (.queued c)) := by
  intro c' t' y hy
  have hOld := h c' t' y hy
  by_cases hEq : y = x
  · subst hEq
    rw [if_neg fun hNot => hPlace c' hNot.1] at hOld
    by_cases hSame : (c', t') = (c, y.home c)
    · obtain ⟨rfl, rfl⟩ := Prod.mk.inj hSame
      simp [State.spawn, State.move, hOld]
    · have hNot : ¬ (c = c' ∧ t' = y.home c') := by
        rintro ⟨rfl, rfl⟩
        exact hSame rfl
      simpa [State.spawn, State.move, hSame, hNot] using hOld
  · by_cases hSame : (c', t') = (c, x.home c)
    · obtain ⟨rfl, rfl⟩ := Prod.mk.inj hSame
      simpa [State.spawn, State.move, hEq, Ne.symm hEq, List.count_singleton] using hOld
    · simpa [State.spawn, State.move, hEq, hSame] using hOld

end Queued

theorem pred32_ne_zero {x : Nat} (h : pred32 x = 0) : x ≠ 0 := by
  rintro rfl
  exact absurd h (by decide)

theorem pred32_eq {x : Nat} (hx : x < 2 ^ 32) (hPos : x ≠ 0) : pred32 x = x - 1 := by
  unfold pred32
  omega

/-- Where the single tasks are. -/
structure Placed (J : Join) (s : State) : Prop where
  queued : Queued s
  started : ∀ c kind, (s.running c).Partitions kind → s.place (.partition kind c) = .started
  index : ∀ c kind i j tasks, s.running c = .partitioning kind i j tasks → i = c
  dispatching : ∀ c k, s.running c = .dispatching k →
    ∀ i, k ≤ i → s.place (.partition .probe i) = .dispatching c
  dispatched : ∀ i c, s.place (.partition .probe i) = .dispatching c → i < J.countCores →
    ∃ k ≤ i, s.running c = .dispatching k
  build : ∀ i < J.countCores, s.place (.partition .build i) = .queued 0 ∨
    s.place (.partition .build i) = .started
  probe : ∀ i, s.place (.partition .probe i) = .notifier ↔ s.pendingGlobal .build ≠ 0
  merge : s.place .merge = .notifier ↔ s.pendingGlobal .probe ≠ 0
  merging : ∀ c k, s.running c = .merging k → s.place .merge = .started

namespace Placed

variable {J : Join} {s s' : State} {c t : Nat}

theorem initial (J : Join) : Placed J (State.initial J) := by
  have hPos := J.pos
  refine ⟨?_, ?_, ?_, ?_, ?_, ?_, ?_, ?_, ?_⟩
  · intro c t x hx
    cases x with
    | partition kind i =>
        cases kind with
        | build => simp only [State.initial, Task.home]; grind
        | probe => simp only [State.initial]; grind
    | merge => simp only [State.initial]; grind
    | batch kind rows => exact absurd hx not_false
    | notification kind => exact absurd hx not_false
  · intro c kind h; exact absurd h not_false
  · intro c kind i j tasks h; exact absurd h (by simp [State.initial])
  · intro c k h; exact absurd h (by simp [State.initial])
  · intro i c h; exact absurd h (by simp [State.initial])
  · intro i hi; exact Or.inl (if_pos hi)
  · intro i; simp [State.initial]; omega
  · simp [State.initial]; omega
  · intro c k h; exact absurd h (by simp [State.initial])

/-- Only queues, channels, places and the global counters matter. -/
theorem congr (h : Placed J s) (hQueues : s'.queues = s.queues) (hRunning : s'.running = s.running)
    (hPlace : s'.place = s.place) (hGlobal : s'.pendingGlobal = s.pendingGlobal) :
    Placed J s' := by
  obtain ⟨h₁, h₂, h₃, h₄, h₅, h₆, h₇, h₈, h₉⟩ := h
  refine ⟨h₁.congr hQueues hPlace, ?_, ?_, ?_, ?_, ?_, ?_, ?_, ?_⟩ <;>
    simp only [hRunning, hPlace, hGlobal] <;> assumption

theorem pop_other (h : Placed J s) {y : Task} {rest : List Task}
    (hQueue : s.queues (c, t) = y :: rest) (hy : ¬ y.Single) : Placed J (s.pop c t rest) :=
  ⟨h.queued.pop_other hQueue hy, h.started, h.index, h.dispatching, h.dispatched, h.build, h.probe,
    h.merge, h.merging⟩

theorem push_other (h : Placed J s) (y : Task) (hy : ¬ y.Single) : Placed J (s.spawn c t y) :=
  ⟨h.queued.push_other hy, h.started, h.index, h.dispatching, h.dispatched, h.build, h.probe,
    h.merge, h.merging⟩

/-- A channel goes on in what it is doing, or ends it. -/
theorem set (h : Placed J s) (r : Running)
    (hPartitions : ∀ kind, r.Partitions kind → (s.running c).Partitions kind)
    (hIndex : ∀ kind i j tasks, r = .partitioning kind i j tasks → i = c)
    (hDispatching : ∀ k, r ≠ .dispatching k)
    (hWas : ∀ k, s.running c = .dispatching k → J.countCores ≤ k)
    (hMerging : ∀ k, r = .merging k → ∃ k', s.running c = .merging k') :
    Placed J (s.set c r) := by
  refine ⟨h.queued.congr rfl rfl, ?_, ?_, ?_, ?_, h.build, h.probe, h.merge, ?_⟩
  · intro c' kind hc'
    by_cases hEq : c' = c
    · subst hEq
      exact h.started c' kind (hPartitions kind (by simpa [State.set] using hc'))
    · exact h.started c' kind (by simpa [State.set, hEq] using hc')
  · intro c' kind i j tasks hc'
    rcases update_cases hc' with ⟨rfl, hr⟩ | ⟨_, hOld⟩
    · exact hIndex kind i j tasks hr.symm
    · exact h.index c' kind i j tasks hOld
  · intro c' k hc'
    rcases update_cases hc' with ⟨_, hr⟩ | ⟨_, hOld⟩
    · exact absurd hr.symm (hDispatching k)
    · exact h.dispatching c' k hOld
  · intro i c' hPlace hi
    obtain ⟨k, hk, hRun⟩ := h.dispatched i c' hPlace hi
    have hne : c' ≠ c := by
      rintro rfl
      exact absurd (hWas k hRun) (by omega)
    exact ⟨k, hk, (Function.update_of_ne hne _ _).trans hRun⟩
  · intro c' k hc'
    rcases update_cases hc' with ⟨_, hr⟩ | ⟨_, hOld⟩
    · obtain ⟨k', hk'⟩ := hMerging k hr.symm
      exact h.merging c k' hk'
    · exact h.merging c' k hOld

/-- A channel executes a batch, a notification or nothing. -/
theorem setPlain (h : Placed J s) (r : Running)
    (hr : r = .idle ∨ (∃ kind source rows, r = .executing kind source rows) ∨
      ∃ kind, r = .notified kind)
    (hWas : ∀ k, s.running c = .dispatching k → J.countCores ≤ k) : Placed J (s.set c r) := by
  refine h.set r ?_ ?_ ?_ hWas ?_ <;>
    rcases hr with rfl | ⟨_, _, _, rfl⟩ | ⟨_, rfl⟩ <;> simp [Running.Partitions]

/-- A channel goes on with its partition task. -/
theorem setPartition (h : Placed J s) (r : Running) (kind : Kind) (hr : r.Partitions kind)
    (hPartitions : (s.running c).Partitions kind)
    (hIndex : ∀ kind i j tasks, r = .partitioning kind i j tasks → i = c) :
    Placed J (s.set c r) := by
  have hKind : ∀ k, r.Partitions k → k = kind := by
    intro k hk
    cases r with
    | partitioning _ _ _ _ => exact hk.symm.trans hr
    | flushing _ _ _ => exact hk.symm.trans hr
    | notifying _ _ _ => exact hk.symm.trans hr
    | _ => exact absurd hk not_false
  refine h.set r (fun k hk => hKind k hk ▸ hPartitions) hIndex ?_ ?_ ?_
  · rintro k rfl
    exact hr
  · intro k hk
    rw [hk] at hPartitions
    exact absurd hPartitions not_false
  · rintro k rfl
    exact absurd hr not_false

/-- A counter is decremented, and stays above 0. -/
theorem setGlobal (h : Placed J s) {kind : Kind} {value : Nat} (hOld : s.pendingGlobal kind ≠ 0)
    (hNew : value ≠ 0) : Placed J (s.setGlobal kind value) := by
  have hIff : ∀ k, (s.setGlobal kind value).pendingGlobal k ≠ 0 ↔ s.pendingGlobal k ≠ 0 := by
    intro k
    by_cases hEq : k = kind
    · subst hEq
      simp [State.setGlobal, hOld, hNew]
    · simp [State.setGlobal, hEq]
  exact ⟨h.queued.congr rfl rfl, h.started, h.index, h.dispatching, h.dispatched, h.build,
    fun i => (h.probe i).trans (hIff _).symm, h.merge.trans (hIff _).symm, h.merging⟩

/-- A single task is started, and the channel is in that task then. -/
theorem popSingle (h : Placed J s) {x : Task} {rest : List Task} (hx : x.Single)
    (hIdle : s.running t = .idle) (hQueue : s.queues (c, t) = x :: rest) (r : Running)
    (hPartitions : ∀ kind, r.Partitions kind → x = .partition kind t)
    (hIndex : ∀ kind i j tasks, r = .partitioning kind i j tasks → i = t)
    (hDispatching : ∀ k, r ≠ .dispatching k) (hMerging : ∀ k, r = .merging k → x = .merge) :
    Placed J (((s.pop c t rest).set t r).move x .started) := by
  obtain ⟨hPlace, _⟩ := h.queued.place_of_mem hx (by rw [hQueue]; exact List.mem_cons_self ..)
  refine ⟨(h.queued.pop_single hQueue hx).congr rfl rfl, ?_, ?_, ?_, ?_, ?_, ?_, ?_, ?_⟩ <;>
    simp only [State.pop, State.set, State.move]
  · have := h.started
    grind
  · have := h.index
    grind
  · have := h.dispatching
    grind
  · have := h.dispatched
    grind
  · have := h.build
    grind
  · have := h.probe
    grind
  · have := h.merge
    grind
  · have := h.merging
    grind

/-- A partition task is started: it is the one of the channel. -/
theorem popPartition (h : Placed J s) {kind : Kind} {i : Nat} {rest : List Task}
    (hIdle : s.running t = .idle) (hQueue : s.queues (c, t) = .partition kind i :: rest)
    (tasks : Nat → List Row) :
    Placed J (((s.pop c t rest).set t (.partitioning kind i 0 tasks)).move (.partition kind i)
      .started) := by
  obtain ⟨_, hHome⟩ := h.queued.place_of_mem (x := .partition kind i) trivial
    (by rw [hQueue]; exact List.mem_cons_self ..)
  obtain rfl : t = i := hHome
  refine h.popSingle (x := .partition kind t) trivial hIdle hQueue _ ?_ ?_ (by simp) (by simp)
  · rintro kind' rfl
    rfl
  · intro kind' i' j' tasks' hEq
    exact (Running.partitioning.inj hEq).2.1.symm

/-- The merge task is started. -/
theorem popMerge (h : Placed J s) {rest : List Task} (hIdle : s.running t = .idle)
    (hQueue : s.queues (c, t) = .merge :: rest) :
    Placed J (((s.pop c t rest).set t (.merging 0)).move .merge .started) :=
  h.popSingle (x := .merge) trivial hIdle hQueue _ (fun _ hNot => absurd hNot not_false) (by simp)
    (by simp) fun _ _ => rfl

/-- The build phase ends: the notifier is about to spawn the probe partition tasks. -/
theorem callBuild (h : Placed J s) (hGlobal : s.pendingGlobal .build ≠ 0) :
    Placed J (((s.setGlobal .build 0).moveProbes (.dispatching t)).set t (.dispatching 0)) := by
  have hNotifier : ∀ i, s.place (.partition .probe i) = .notifier :=
    fun i => (h.probe i).mpr hGlobal
  refine ⟨?_, ?_, ?_, ?_, ?_, ?_, ?_, ?_, ?_⟩ <;>
    simp only [State.setGlobal, State.moveProbes, State.set]
  · intro c' t' x hx
    refine (h.queued c' t' x hx).trans ?_
    cases x with
    | partition kind i => cases kind <;> simp [hNotifier]
    | _ => rfl
  · have := h.started
    grind [Running.Partitions]
  · have := h.index
    grind
  · have := h.dispatching
    grind
  · have := h.dispatched
    grind
  · have := h.build
    grind
  · have := h.probe
    grind
  · have := h.merge
    grind
  · have := h.merging
    grind

/-- A probe partition task is spawned. -/
theorem dispatch (h : Placed J s) {k : Nat} (hCase : s.running c = .dispatching k) :
    Placed J (((s.spawn c k (.partition .probe k)).move (.partition .probe k) (.queued c)).set c
      (.dispatching (k + 1))) := by
  have hPlace := h.dispatching c k hCase k (Nat.le_refl k)
  have hQueued := h.queued.push_single (c := c) (x := .partition .probe k) trivial
    (by simp [hPlace])
  refine ⟨hQueued.congr rfl rfl, ?_, ?_, ?_, ?_, ?_, ?_, ?_, ?_⟩ <;>
    simp only [State.spawn, State.move, State.set]
  · have := h.started
    grind [Running.Partitions]
  · have := h.index
    grind
  · intro c' k' hc' i hi
    rcases update_cases hc' with ⟨rfl, hEq⟩ | ⟨hne, hOld⟩
    · obtain rfl := Running.dispatching.inj hEq
      rw [Function.update_of_ne (by simp; omega)]
      exact h.dispatching c' k hCase i (by omega)
    · have hOther := h.dispatching c' k' hOld i hi
      have hik : i ≠ k := by
        rintro rfl
        exact hne (Place.dispatching.inj (hOther.symm.trans hPlace))
      rw [Function.update_of_ne (by simpa using hik)]
      exact hOther
  · have := h.dispatched
    grind
  · have := h.build
    grind
  · have := h.probe
    grind
  · have := h.merge
    grind
  · have := h.merging
    grind

/-- The probe phase ends: the merge task is spawned. -/
theorem callProbe (h : Placed J s) (hCase : s.running t = .notified .probe)
    (hGlobal : s.pendingGlobal .probe ≠ 0) :
    Placed J ((((s.setGlobal .probe 0).spawn t t .merge).move .merge (.queued t)).set t .idle) := by
  have hPlace := h.merge.mpr hGlobal
  have hQueued := h.queued.push_single (c := t) (x := .merge) trivial (by simp [hPlace])
  refine ⟨hQueued.congr rfl rfl, ?_, ?_, ?_, ?_, ?_, ?_, ?_, ?_⟩ <;>
    simp only [State.setGlobal, State.spawn, State.move, State.set]
  · have := h.started
    grind [Running.Partitions]
  · have := h.index
    grind
  · have := h.dispatching
    grind
  · have := h.dispatched
    grind
  · have := h.build
    grind
  · have := h.probe
    grind
  · have := h.merge
    grind
  · have := h.merging
    grind

/-- Of the partition tasks that the notifier spawns none is started. -/
theorem started_moveProbes (h : Placed J s) (hGlobal : s.pendingGlobal .build ≠ 0) (kind : Kind)
    (c : Nat) : (s.moveProbes (.dispatching t)).place (.partition kind c) = .started ↔
      s.place (.partition kind c) = .started := by
  cases kind with
  | build => exact Iff.rfl
  | probe =>
      have hPlace := (h.probe c).mpr hGlobal
      simp [State.moveProbes, hPlace]

theorem started_dispatch (h : Placed J s) {k : Nat} (hCase : s.running c = .dispatching k)
    (kind : Kind) (i : Nat) :
    (s.move (.partition .probe k) (.queued c)).place (.partition kind i) = .started ↔
      s.place (.partition kind i) = .started := by
  have hPlace := h.dispatching c k hCase k (Nat.le_refl k)
  by_cases hEq : Task.partition kind i = .partition .probe k
  · rw [hEq]
    simp [State.move, hPlace]
  · simp [State.move, Function.update_of_ne hEq]

/-- One step, given that no counter underflows. -/
theorem step {e : Event} (h : Placed J s) (hStep : Step J s e s')
    (hGlobal : ∀ t kind, s.running t = .notified kind → s.pendingGlobal kind ≠ 0) :
    Placed J s' := by
  cases hStep with
  | popPartition c t kind i rest hIdle hQueue => exact h.popPartition hIdle hQueue _
  | popBatch c t kind rows rest hIdle hQueue =>
      exact (h.pop_other hQueue not_false).setPlain _ (by simp) (by simp [State.pop, hIdle])
  | popNotification c t kind rest hIdle hQueue =>
      exact Placed.congr ((h.pop_other hQueue not_false).setPlain (c := t)
        (if pred32 (s.pendingLocal kind t) = 0 then .notified kind else .idle)
        (by split <;> simp) (by simp [State.pop, hIdle])) rfl rfl rfl rfl
  | popMerge c t rest hIdle hQueue => exact h.popMerge hIdle hQueue
  | row c kind i j tasks key hCase _ _ _ =>
      exact h.setPartition _ kind rfl (by rw [hCase]; rfl)
        (by rintro _ _ _ _ ⟨⟩; exact h.index _ _ _ _ _ hCase)
  | rowSpawn c kind i j tasks key hCase _ _ _ =>
      exact (h.push_other (.batch kind _) not_false).setPartition _ kind rfl
        (by rw [State.spawn, hCase]; rfl) (by rintro _ _ _ _ ⟨⟩; exact h.index _ _ _ _ _ hCase)
  | rowsDone c kind i j tasks hCase _ =>
      exact h.setPartition _ kind rfl (by rw [hCase]; rfl) (by simp)
  | flush c kind k tasks hCase _ =>
      exact (h.push_other (.batch kind _) not_false).setPartition _ kind rfl
        (by rw [State.spawn, hCase]; rfl) (by simp)
  | notify c kind k tasks hCase =>
      exact (h.push_other (.notification kind) not_false).setPartition _ kind rfl
        (by rw [State.spawn, hCase]; rfl) (by simp)
  | flushed c kind k tasks hCase _ => exact h.setPlain _ (by simp) (by simp [hCase])
  | insert t c row rows table hCase _ =>
      exact Placed.congr (h.setPlain (c := t) (.executing .build c rows) (by simp)
        (by simp [hCase])) rfl rfl rfl rfl
  | hit t c row rows value r hCase _ _ _ =>
      exact Placed.congr (h.setPlain (c := t) (.executing .probe c rows) (by simp)
        (by simp [hCase])) rfl rfl rfl rfl
  | miss t c row rows hCase _ =>
      exact Placed.congr (h.setPlain (c := t) (.executing .probe c rows) (by simp)
        (by simp [hCase])) rfl rfl rfl rfl
  | finish t kind c hCase => exact h.setPlain _ (by simp) (by simp [hCase])
  | decrement t kind hCase hne =>
      exact (h.setGlobal (hGlobal t kind hCase) hne).setPlain _ (by simp)
        (by simp [State.setGlobal, hCase])
  | callBuild t hCase hZero => exact h.callBuild (pred32_ne_zero hZero)
  | callProbe t hCase hZero => exact h.callProbe hCase (pred32_ne_zero hZero)
  | dispatch c k hCase _ => exact h.dispatch hCase
  | dispatched c k hCase hk =>
      exact h.setPlain _ (by simp) (by rw [hCase]; rintro _ ⟨⟩; omega)
  | merge c k hCase _ =>
      exact Placed.congr (h.set (c := c) (.merging (k + 1)) (by simp [Running.Partitions])
        (by simp) (by simp) (by simp [hCase]) (fun _ _ => ⟨k, hCase⟩)) rfl rfl rfl rfl
  | merged c k hCase _ => exact h.setPlain _ (by simp) (by simp [hCase])

end Placed

end MxTasking.HashJoin
