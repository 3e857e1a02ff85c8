import MxTasking.HashJoin.Termination

/-!
# The phases are completed

A run that cannot go on has done everything, unless a table or a result set has no room: then a
channel is in a loop without end, or writes behind its memory.  Together with the end of every
run, both notifiers are called, and each of them once.

## Main results

* `Invariant.run` — what holds in every state.
* `Invariant.completed` — what holds when no channel has a step.
* `Invariant.room_of_finished` — there was room when the build phase is over.
* `phase_barrier_of_run` — the barrier between the phases.
-/

namespace MxTasking.HashJoin

open MxTasking.Verified
open InlineHashtable (Represents)

/-- There is room for all keys, and the loops over the chunks and over the slots come to an end. -/
structure Join.Served (J : Join) : Prop where
  small : J.Small
  made : J.tableBits < 32
  tables : ∀ t < J.countCores, (J.inserted t).card < 2 ^ J.tableBits ∨
    ((J.inserted t).card ≤ 2 ^ J.tableBits ∧
      ∀ kind, ∀ key ∈ J.keys kind, J.target key = t → key ∈ J.inserted t)
  results : J.perCore .probe ≠ 0 ∨ ∀ key ∈ J.right, key ∉ J.left ∧ key ≠ maxKey

/-- What holds in every state. -/
structure Invariant (J : Join) (s : State) : Prop where
  barrier : Barrier J s
  accounted : Accounted J s
  data : Data J s
  merged : Merged J s

namespace Invariant

variable {J : Join} {s s' : State} {c t : Nat}

theorem run (hSmall : J.Small) {log : List Event} (hRun : Run (Step J) (State.initial J) log s) :
    Invariant J s := by
  refine hRun.invariant (P := Invariant J)
    ⟨Barrier.initial J, Accounted.initial J, Data.initial J, Merged.initial J⟩ ?_
  intro e mid fin h hStep
  exact ⟨h.barrier.step hStep, h.accounted.step hSmall h.barrier hStep,
    h.data.step h.barrier h.accounted hStep, h.merged.step h.barrier hStep⟩

/-- A key that is looked for in its table is found, or an empty slot is. -/
theorem room (h : Invariant J s) (hServed : J.Served) (kind : Kind) {key : UInt32}
    (ht : t < J.countCores) (hKey : key ∈ J.keys kind) (hTarget : J.target key = t) :
    (J.inserted t).card < (s.tables t).slots ∨
      ((J.inserted t).card ≤ (s.tables t).slots ∧ key ∈ J.inserted t) := by
  rw [InlineHashtable.slots, h.data.bits t]
  exact (hServed.tables t ht).imp id fun hAll => ⟨hAll.1, hAll.2 kind key hKey hTarget⟩

/-- A row that is executed has a key of its table, for the channel. -/
theorem key_of_executing (h : Invariant J s) {kind : Kind} {row : Row} {rows : List Row}
    (hCase : s.running t = .executing kind c (row :: rows)) :
    row.key ∈ J.keys kind ∧ J.target row.key = t := by
  obtain ⟨hChunk, hTarget⟩ := J.mem_routedFrom.mp (h.accounted.executing h.barrier hCase)
  exact ⟨J.key_of_mem_chunkRows hChunk, hTarget⟩

/-- A build row can be inserted. -/
theorem insert (h : Invariant J s) (hServed : J.Served) {row : Row} {rows : List Row}
    (hCase : s.running t = .executing .build c (row :: rows)) : ∃ s', Next J s s' := by
  have ht : t < J.countCores := h.barrier.streams.busy t (by rw [hCase]; simp)
  obtain ⟨hKey, hTarget⟩ := h.key_of_executing hCase
  obtain ⟨m, hm⟩ := h.data.tables t
  obtain ⟨table, hTable⟩ := hm.represents.insert_isSome (J.inserted t)
    (fun key hKey => hm.mem_inserted h.accounted ht hKey)
    (h.room hServed .build ht hKey hTarget) row.id
  exact ⟨_, _, .insert t c row rows table hCase hTable⟩

/-- A probe row whose key has been searched for is answered, if there is memory for the answer. -/
theorem answered (h : Invariant J s) {row : Row} {rows : List Row} {value : Nat}
    (hCase : s.running t = .executing .probe c (row :: rows))
    (hValue : (s.tables t).get row.key = some value)
    (hPer : value ≠ maxValue → J.perCore .probe ≠ 0) : ∃ s', Next J s s' := by
  by_cases hMax : value = maxValue
  · subst hMax
    exact ⟨_, _, .miss t c row rows hCase hValue⟩
  · obtain ⟨hPos, hLe⟩ := h.data.room t (hPer hMax)
    obtain ⟨r, hr⟩ := ResultSet.emplaceBack_isSome hPos hLe (row.id, value)
    exact ⟨_, _, .hit t c row rows value r hCase hValue hMax hr⟩

/-- A probe row can be answered. -/
theorem probe (h : Invariant J s) (hServed : J.Served) {row : Row} {rows : List Row}
    (hCase : s.running t = .executing .probe c (row :: rows)) : ∃ s', Next J s s' := by
  have ht : t < J.countCores := h.barrier.streams.busy t (by rw [hCase]; simp)
  obtain ⟨hKey, hTarget⟩ := h.key_of_executing hCase
  obtain ⟨m, hm⟩ := h.data.tables t
  obtain ⟨value, hValue⟩ := hm.represents.get_isSome (J.inserted t)
    (fun key hKey => hm.mem_inserted h.accounted ht hKey) (h.room hServed .probe ht hKey hTarget)
  refine h.answered hCase hValue fun hMax => hServed.results.elim id fun hNone => ?_
  -- a key that is in no left row is not found
  obtain ⟨hLeft, hne⟩ := hNone row.key hKey
  have hGet := hm.represents.get hValue hne
  have hNo : m row.key = none := by
    by_contra hSome
    exact hLeft (Join.mem_inserted.mp (hm.mem_inserted h.accounted ht hSome)).1
  rw [hNo] at hGet
  exact absurd hGet hMax

/-- A batch goes on. -/
theorem executes (h : Invariant J s) (hServed : J.Served) {kind : Kind} {row : Row}
    {rows : List Row} (hCase : s.running t = .executing kind c (row :: rows)) :
    ∃ s', Next J s s' := by
  cases kind with
  | build => exact h.insert hServed hCase
  | probe => exact h.probe hServed hCase

/-- A channel that executes a task has a step, if its batch goes on. -/
theorem next_of_busy (h : Invariant J s) (hBusy : s.running c ≠ .idle)
    (hExecutes : ∀ kind source row rows, s.running c = .executing kind source (row :: rows) →
      ∃ s', Next J s s') : ∃ s', Next J s s' := by
  have hc : c < J.countCores := h.barrier.streams.busy c hBusy
  cases hCase : s.running c with
  | idle => exact absurd hCase hBusy
  | partitioning kind i j tasks =>
      by_cases hj : j < J.count kind i
      · obtain rfl := h.barrier.placed.index _ _ _ _ _ hCase
        obtain ⟨key, hKey⟩ := J.data_isSome hc hj
        by_cases hSize : (J.emplaceBack kind i i j key tasks).length = J.batchSize
        · exact ⟨_, _, .rowSpawn i kind i j tasks key hCase hj hKey hSize⟩
        · exact ⟨_, _, .row i kind i j tasks key hCase hj hKey hSize⟩
      · exact ⟨_, _, .rowsDone c kind i j tasks hCase hj⟩
  | flushing kind k tasks =>
      by_cases hk : k < J.countCores
      · exact ⟨_, _, .flush c kind k tasks hCase hk⟩
      · exact ⟨_, _, .flushed c kind k tasks hCase hk⟩
  | notifying kind k tasks => exact ⟨_, _, .notify c kind k tasks hCase⟩
  | executing kind source rows =>
      cases rows with
      | nil => exact ⟨_, _, .finish c kind source hCase⟩
      | cons row rows => exact hExecutes kind source row rows hCase
  | notified kind =>
      by_cases hZero : pred32 (s.pendingGlobal kind) = 0
      · cases kind with
        | build => exact ⟨_, _, .callBuild c hCase hZero⟩
        | probe => exact ⟨_, _, .callProbe c hCase hZero⟩
      · exact ⟨_, _, .decrement c kind hCase hZero⟩
  | dispatching k =>
      by_cases hk : k < J.countCores
      · exact ⟨_, _, .dispatch c k hCase hk⟩
      · exact ⟨_, _, .dispatched c k hCase hk⟩
  | merging k =>
      by_cases hk : k < J.countCores
      · exact ⟨_, _, .merge c k hCase hk⟩
      · exact ⟨_, _, .merged c k hCase hk⟩

/-- A channel with nothing to do takes a task that waits for it. -/
theorem next_of_queue (hIdle : s.running t = .idle) (hQueue : s.queues (c, t) ≠ []) :
    ∃ s', Next J s s' := by
  obtain ⟨x, rest, hx⟩ := List.exists_cons_of_ne_nil hQueue
  cases x with
  | partition kind i => exact ⟨_, _, .popPartition c t kind i rest hIdle hx⟩
  | batch kind rows => exact ⟨_, _, .popBatch c t kind rows rest hIdle hx⟩
  | notification kind => exact ⟨_, _, .popNotification c t kind rest hIdle hx⟩
  | merge => exact ⟨_, _, .popMerge c t rest hIdle hx⟩

/-- Where nothing is queued, no place is in a queue. -/
theorem place_ne_queued (h : Invariant J s) (hEmpty : ∀ c t, s.queues (c, t) = []) {x : Task}
    (hx : x.Single) : s.place x ≠ .queued c := by
  intro hPlace
  have hMem := h.barrier.placed.queued.mem_of_place hx hPlace
  rw [hEmpty] at hMem
  exact absurd hMem List.not_mem_nil

section Quiet

variable (hIdle : ∀ c, s.running c = .idle) (hEmpty : ∀ c t, s.queues (c, t) = [])
include hIdle hEmpty

/-- Where nothing is left of the partition tasks, the phase is over. -/
theorem pendingGlobal_eq_zero (h : Invariant J s) {kind : Kind}
    (hStarted : ∀ c < J.countCores, s.place (.partition kind c) = .started) :
    s.pendingGlobal kind = 0 := by
  rw [h.barrier.counters.pendingGlobal kind, howMany_eq_zero]
  rintro t ht (hLocal | hNotified)
  · refine hLocal ?_
    rw [h.barrier.counters.pendingLocal kind t ht, howMany_eq_zero]
    rintro c hc ((hNot | hOpens) | hMem)
    · exact hNot (hStarted c hc)
    · rw [hIdle c] at hOpens
      exact hOpens
    · rw [hEmpty] at hMem
      exact absurd hMem List.not_mem_nil
  · exact absurd ((hIdle t).symm.trans hNotified) (by simp)

/-- The phases follow one another to the end. -/
theorem completed_of_quiet (h : Invariant J s) :
    (∀ kind, s.pendingGlobal kind = 0) ∧ s.countOutputTuples = countTuples s J.countCores := by
  have hPlaced := h.barrier.placed
  have hBuild : s.pendingGlobal .build = 0 := by
    refine h.pendingGlobal_eq_zero hIdle hEmpty fun c hc => ?_
    exact (hPlaced.build c hc).resolve_left (h.place_ne_queued hEmpty trivial)
  have hProbe : s.pendingGlobal .probe = 0 := by
    refine h.pendingGlobal_eq_zero hIdle hEmpty fun c hc => ?_
    cases hPlace : s.place (.partition .probe c) with
    | notifier => exact absurd hBuild ((hPlaced.probe c).mp hPlace)
    | dispatching c' =>
        obtain ⟨k, _, hRun⟩ := hPlaced.dispatched c c' hPlace hc
        exact absurd ((hIdle c').symm.trans hRun) (by simp)
    | queued c' => exact absurd hPlace (h.place_ne_queued hEmpty trivial)
    | started => rfl
  have hMerge : s.place .merge = .started := by
    cases hPlace : s.place .merge with
    | notifier => exact absurd hProbe (hPlaced.merge.mp hPlace)
    | dispatching c' => exact absurd hPlace (h.merged.place c')
    | queued c' => exact absurd hPlace (h.place_ne_queued hEmpty trivial)
    | started => rfl
  refine ⟨fun kind => ?_, h.merged.done hMerge fun c k hRun => ?_⟩
  · cases kind with
    | build => exact hBuild
    | probe => exact hProbe
  · exact absurd ((hIdle c).symm.trans hRun) (by simp)

end Quiet

/-- When no channel has a step and no batch is in the way, everything is done. -/
theorem completed_of_executes (h : Invariant J s)
    (hExecutes : ∀ c kind source row rows, s.running c = .executing kind source (row :: rows) →
      ∃ s', Next J s s') (hEnd : ∀ s', ¬ Next J s s') :
    (∀ kind, s.pendingGlobal kind = 0) ∧ s.countOutputTuples = countTuples s J.countCores := by
  have hIdle : ∀ c, s.running c = .idle := by
    intro c
    by_contra hBusy
    obtain ⟨s', hNext⟩ := h.next_of_busy hBusy (hExecutes c)
    exact hEnd s' hNext
  refine h.completed_of_quiet hIdle fun c t => ?_
  by_contra hQueue
  obtain ⟨s', hNext⟩ := next_of_queue (J := J) (hIdle t) hQueue
  exact hEnd s' hNext

/-- When no channel has a step, everything is done. -/
theorem completed (h : Invariant J s) (hServed : J.Served) (hEnd : ∀ s', ¬ Next J s s') :
    (∀ kind, s.pendingGlobal kind = 0) ∧ s.countOutputTuples = countTuples s J.countCores :=
  h.completed_of_executes (fun _ _ _ _ _ hCase => h.executes hServed hCase) hEnd

/-- When the build phase is over, every table had room for its keys. -/
theorem room_of_finished (h : Invariant J s) (hZero : s.pendingGlobal .build = 0)
    (ht : t < J.countCores) : (J.inserted t).card ≤ 2 ^ J.tableBits := by
  obtain ⟨m, hm⟩ := h.data.tables t
  rw [← h.data.bits t]
  refine hm.represents.card_le (J.inserted t) (by simp [Join.mem_inserted]) fun key hKey => ?_
  obtain ⟨hLeft, hTarget, hMax⟩ := Join.mem_inserted.mp hKey
  obtain ⟨c, hc, row, hRow, rfl⟩ := J.exists_mem_chunkRows .build hLeft
  refine hm.complete c row ?_ hMax
  rw [h.accounted.finished h.barrier hZero hc ht]
  exact J.mem_routedFrom.mpr ⟨hRow, hTarget⟩

end Invariant

/-! ## The notifiers -/

/-- The notifier of the phase is invoked. -/
def Event.calls (kind : Kind) : Event → Bool
  | .call k _ => k = kind
  | _ => false

/-- No task of the phase is left: every partition task has spawned its last ones, none of them is
in a queue and none is executed. -/
structure Finished (J : Join) (s : State) (kind : Kind) : Prop where
  spawned : ∀ c < J.countCores, ∀ t < J.countCores, ¬ Open s kind c t
  queued : ∀ c t rows, .batch kind rows ∉ s.queues (c, t)
  executed : ∀ c t rows, s.running t ≠ .executing kind c rows

/-- A counter that is decremented was not 0. -/
def CountsDown (s s' : State) : Event → Prop
  | .step _ => True
  | .notification kind _ t =>
      s.pendingLocal kind t ≠ 0 ∧ s'.pendingLocal kind t = s.pendingLocal kind t - 1
  | .decrement kind _ =>
      s.pendingGlobal kind ≠ 0 ∧ s'.pendingGlobal kind = s.pendingGlobal kind - 1
  | .call kind _ => s.pendingGlobal kind ≠ 0 ∧ s'.pendingGlobal kind = s.pendingGlobal kind - 1

section Notifiers

variable {J : Join} {s s' : State} {e : Event} {kind : Kind} {log : List Event}

theorem Barrier.finished_of_zero (h : Barrier J s) (hZero : s.pendingGlobal kind = 0) :
    Finished J s kind := by
  refine ⟨fun c hc t ht hOpen => ?_, fun c t rows hMem => ?_, fun c t rows hRun => ?_⟩
  · exact h.finished hZero hc ht (Or.inl hOpen)
  · obtain ⟨hc, ht⟩ := h.streams.range c t (List.ne_nil_of_mem hMem)
    exact h.finished hZero hc ht (h.streams.batch kind c t rows hMem)
  · obtain ⟨hc, hWaiting⟩ := h.streams.executing kind c t rows hRun
    exact h.finished hZero hc (h.streams.busy t (by rw [hRun]; simp)) hWaiting

theorem Barrier.countsDown (h : Barrier J s) (hStep : Step J s e s') : CountsDown s s' e := by
  cases e with
  | step c => trivial
  | notification kind c t =>
      obtain ⟨hPos, hNew, _⟩ := h.notification hStep
      exact ⟨hPos, hNew⟩
  | decrement kind t =>
      obtain ⟨hPos, hNew, _⟩ := h.counted hStep (Or.inl rfl)
      exact ⟨hPos, hNew⟩
  | call kind t =>
      obtain ⟨hPos, hNew, _⟩ := h.counted hStep (Or.inr rfl)
      exact ⟨hPos, hNew⟩

/-- The step that makes a counter 0 is the one that invokes the notifier. -/
theorem calls_step (kind : Kind) (h : Barrier J s) (hStep : Step J s e s') :
    if e.calls kind then s.pendingGlobal kind ≠ 0 ∧ s'.pendingGlobal kind = 0
    else s'.pendingGlobal kind = 0 ↔ s.pendingGlobal kind = 0 := by
  cases hCalls : e.calls kind with
  | true =>
      cases hStep with
      | callBuild t hCase hZero =>
          obtain rfl : .build = kind := of_decide_eq_true hCalls
          exact ⟨pred32_ne_zero hZero, by simp [State.set, State.moveProbes, State.setGlobal]⟩
      | callProbe t hCase hZero =>
          obtain rfl : .probe = kind := of_decide_eq_true hCalls
          exact ⟨pred32_ne_zero hZero,
            by simp [State.set, State.move, State.spawn, State.setGlobal]⟩
      | _ => exact absurd hCalls (by simp [Event.calls])
  | false =>
      by_cases hDecrement : ∃ t, e = .decrement kind t
      · obtain ⟨t, rfl⟩ := hDecrement
        have hPos := (h.counted hStep (Or.inl rfl)).1
        cases hStep with
        | decrement t kind hCase hne => simp [State.set, State.setGlobal, hne, hPos]
      · have hSame := pendingGlobal_step hStep (fun t hEq => hDecrement ⟨t, hEq⟩) fun t hEq => by
          subst hEq
          simp [Event.calls] at hCalls
        simp [hSame]

/-- A notifier has been invoked once when its counter is 0, and not before. -/
theorem calls_of_run (hRun : Run (Step J) (State.initial J) log s) :
    log.countP (Event.calls kind) = if s.pendingGlobal kind = 0 then 1 else 0 := by
  refine (hRun.log_invariant (P := fun log s => Barrier J s ∧
    log.countP (Event.calls kind) = if s.pendingGlobal kind = 0 then 1 else 0) ?_ ?_).2
  · refine ⟨Barrier.initial J, ?_⟩
    have hPos := J.pos
    rw [if_neg (show (State.initial J).pendingGlobal kind ≠ 0 by simp [State.initial]; omega)]
    rfl
  · intro es e mid fin h hStep
    refine ⟨h.1.step hStep, ?_⟩
    have hCalls := calls_step kind h.1 hStep
    rw [List.countP_append, h.2, List.countP_singleton]
    cases hEvent : e.calls kind with
    | true =>
        rw [hEvent, if_pos rfl] at hCalls
        simp [hCalls]
    | false =>
        rw [hEvent, if_neg (by simp)] at hCalls
        simp [hCalls]

end Notifiers

/-- No channel has a step. -/
def Ended (J : Join) (s : State) : Prop := ∀ s', ¬ Next J s s'

/-- Whatever the order of the steps: no counter is decremented below 0, no notifier is invoked
twice, nothing is left of a phase when its notifier has been invoked, and what the merge task
counts does not change any more.  If there is room for all keys, every run comes to an end, each
notifier has then been invoked, and the merge task has counted every result tuple. -/
theorem phase_barrier_of_run (J : Join) :
    (∀ log s, Run (Step J) (State.initial J) log s →
      (∀ e s', Step J s e s' → CountsDown s s' e) ∧
      (∀ kind, log.countP (Event.calls kind) ≤ 1 ∧
        (log.countP (Event.calls kind) = 1 → Finished J s kind)) ∧
      ∀ c k, s.running c = .merging k →
        Finished J s .probe ∧ s.countOutputTuples = countTuples s k) ∧
    (J.Served → Acc (fun s' s => Next J s s') (State.initial J) ∧
      ∀ log s, Run (Step J) (State.initial J) log s → Ended J s →
        (∀ kind, log.countP (Event.calls kind) = 1) ∧
        s.countOutputTuples = countTuples s J.countCores) := by
  refine ⟨fun log s hRun => ?_, fun hServed => ⟨?_, fun log s hRun hEnd => ?_⟩⟩
  · have hBarrier := Barrier.run hRun
    refine ⟨fun e s' hStep => hBarrier.countsDown hStep, fun kind => ?_, fun c k hCase => ?_⟩
    · rw [calls_of_run hRun]
      refine ⟨by split <;> omega, fun hOne => hBarrier.finished_of_zero ?_⟩
      by_contra hne
      rw [if_neg hne] at hOne
      omega
    · have hPlace := hBarrier.placed.merging c k hCase
      have hZero : s.pendingGlobal .probe = 0 := by
        by_contra hne
        exact absurd ((hBarrier.placed.merge.mpr hne).symm.trans hPlace) (by simp)
      exact ⟨hBarrier.finished_of_zero hZero, ((Merged.run hRun).sum c k hCase).2⟩
  · exact acc_of_small hServed.small (Barrier.initial J)
  · obtain ⟨hZero, hCount⟩ := (Invariant.run hServed.small hRun).completed hServed hEnd
    refine ⟨fun kind => ?_, hCount⟩
    rw [calls_of_run hRun, if_pos (hZero kind)]

/-- Two cores, and keys that go to both of them. -/
def balanced : Join where
  countCores := 2
  left := (List.range 32).map UInt32.ofNat
  right := (List.range 32).map UInt32.ofNat
  batchSize := 4
  stdHash key := key.toNat
  tableBits := 5
  pos := by decide
  fits := by decide
  table := by decide

theorem card_inserted_balanced : ∀ t < 2, (balanced.inserted t).card < 2 ^ 5 := by
  decide +kernel

theorem served_balanced : balanced.Served := by
  refine ⟨balanced.small_of_length fun kind => ?_, by decide,
    fun t ht => Or.inl (card_inserted_balanced t ht), Or.inl (by decide)⟩
  cases kind <;> decide

theorem phase_barrier_of_run_balanced :
    Acc (fun s' s => Next balanced s s') (State.initial balanced) ∧
      ∀ log s, Run (Step balanced) (State.initial balanced) log s → Ended balanced s →
        (∀ kind, log.countP (Event.calls kind) = 1) ∧ s.countOutputTuples = countTuples s 2 :=
  (phase_barrier_of_run balanced).2 served_balanced

/-- Two cores, and 33 keys that go to the first one, whose table has 32 slots. -/
def skewed : Join where
  countCores := 2
  left := (List.range 33).map fun i => UInt32.ofNat (2 * i)
  right := (List.range 32).map UInt32.ofNat
  batchSize := 4
  stdHash key := key.toNat
  tableBits := 5
  pos := by decide
  fits := by decide
  table := by decide

/-- The last of the keys is looking for a slot without end: the build phase is never over. -/
theorem skewed_never_built :
    ¬ ∃ log s, Run (Step skewed) (State.initial skewed) log s ∧
      log.countP (Event.calls .build) = 1 := by
  rintro ⟨log, s, hRun, hOne⟩
  have hSmall : skewed.Small := skewed.small_of_length fun kind => by cases kind <;> decide
  have hZero : s.pendingGlobal .build = 0 := by
    by_contra hne
    rw [calls_of_run hRun, if_neg hne] at hOne
    omega
  have hRoom := (Invariant.run hSmall hRun).room_of_finished hZero (t := 0) (by decide)
  exact absurd hRoom (by decide +kernel)

end MxTasking.HashJoin
