import MxTasking.HashJoin.Completion

/-!
# The size of the hash tables

`Benchmark::start()` makes the table of a channel half as large again as the chunk of a channel,
rounded up to a power of two.  What gets into the table is decided by the keys: all left keys
whose hash names the channel.  Where these are fewer than the slots, a slot stays empty in every
state of every run, and no search in a table is without end; the chunks may be of any size here.
One core is always enough for its own keys, since its table is made for all of them.

Nothing bounds the keys of a channel when there is more than one, and with fewer than 16 left keys
per core the size is computed from 0 keys, which is undefined.

## Main results

* `Routing.run` — a row that is routed to a channel has a key of its table, for that channel.
* `tables_suffice_of_run` — no table is full in any run, and every search in one ends.
-/

namespace MxTasking.HashJoin

open MxTasking.Memory.AlignmentHelper.SizeT (nextPowerOfTwo nextPowerOfTwo_spec)
open MxTasking.Verified
open InlineHashtable (Represents)

/-! ## Rows are routed by their keys -/

/-- The row has a key of the table that goes to channel `t`. -/
def Join.Takes (J : Join) (kind : Kind) (t : Nat) (row : Row) : Prop :=
  row.key ∈ J.keys kind ∧ J.target row.key = t

/-- The rows of a task for channel `t`. -/
def Task.Proper (J : Join) (t : Nat) : Task → Prop
  | .batch kind rows => ∀ row ∈ rows, J.Takes kind t row
  | _ => True

/-- The rows that channel `c` is executing, or has put into its batches. -/
def Running.Proper (J : Join) (c : Nat) : Running → Prop
  | .partitioning kind _ _ tasks => ∀ t, ∀ row ∈ tasks t, J.Takes kind t row
  | .flushing kind _ tasks => ∀ t, ∀ row ∈ tasks t, J.Takes kind t row
  | .notifying kind _ tasks => ∀ t, ∀ row ∈ tasks t, J.Takes kind t row
  | .executing kind _ rows => ∀ row ∈ rows, J.Takes kind c row
  | _ => True

/-- Every row is where its key has to go, and so are the keys of the tables. -/
structure Routing (J : Join) (s : State) : Prop where
  running : ∀ c, (s.running c).Proper J c
  queues : ∀ c t, ∀ task ∈ s.queues (c, t), task.Proper J t
  processed : ∀ kind c t, ∀ row ∈ s.processed kind c t, J.Takes kind t row
  bits : ∀ t, (s.tables t).bits = J.tableBits
  tables : ∀ t, ∃ m, Represents (s.tables t) m ∧ ∀ key, m key ≠ none → key ∈ J.inserted t

namespace Routing

variable {J : Join} {s s' : State} {c t : Nat} {e : Event}

theorem initial (J : Join) : Routing J (State.initial J) := by
  refine ⟨fun c => trivial, fun c t task hTask => ?_, fun kind c t row hRow => ?_, fun t => rfl,
    fun t => ⟨_, Represents.construct _, fun key hKey => absurd rfl hKey⟩⟩
  · unfold State.initial at hTask
    dsimp only at hTask
    split at hTask
    · rw [List.mem_singleton.mp hTask]
      trivial
    · exact absurd hTask List.not_mem_nil
  · exact absurd hRow List.not_mem_nil

theorem set (h : Routing J s) {r : Running} (hr : r.Proper J c) : Routing J (s.set c r) := by
  refine ⟨fun c' => ?_, h.queues, h.processed, h.bits, h.tables⟩
  by_cases hEq : c' = c
  · subst hEq
    simpa [State.set] using hr
  · simpa [State.set, hEq] using h.running c'

theorem spawn (h : Routing J s) {task : Task} (hTask : task.Proper J t) :
    Routing J (s.spawn c t task) := by
  refine ⟨h.running, fun c' t' task' hMem => ?_, h.processed, h.bits, h.tables⟩
  by_cases hEq : (c', t') = (c, t)
  · simp only [State.spawn, hEq, Function.update_self, List.mem_append, List.mem_singleton] at hMem
    obtain ⟨rfl, rfl⟩ := Prod.mk.inj hEq
    rcases hMem with hOld | rfl
    · exact h.queues c' t' task' hOld
    · exact hTask
  · simp only [State.spawn, Function.update_of_ne hEq] at hMem
    exact h.queues c' t' task' hMem

theorem pop (h : Routing J s) {task : Task} {rest : List Task}
    (hQueue : s.queues (c, t) = task :: rest) : Routing J (s.pop c t rest) := by
  refine ⟨h.running, fun c' t' task' hMem => ?_, h.processed, h.bits, h.tables⟩
  by_cases hEq : (c', t') = (c, t)
  · simp only [State.pop, hEq, Function.update_self] at hMem
    obtain ⟨rfl, rfl⟩ := Prod.mk.inj hEq
    exact h.queues c' t' task' (by rw [hQueue]; exact List.mem_cons_of_mem _ hMem)
  · simp only [State.pop, Function.update_of_ne hEq] at hMem
    exact h.queues c' t' task' hMem

/-- What is not about rows and tables does not matter. -/
theorem congr (h : Routing J s) (hRunning : s'.running = s.running)
    (hQueues : s'.queues = s.queues) (hProcessed : s'.processed = s.processed)
    (hTables : s'.tables = s.tables) : Routing J s' :=
  ⟨hRunning ▸ h.running, hQueues ▸ h.queues, hProcessed ▸ h.processed, hTables ▸ h.bits,
    hTables ▸ h.tables⟩

theorem process (h : Routing J s) {kind : Kind} {row : Row} (hRow : J.Takes kind t row) :
    Routing J (s.process kind c t row) := by
  refine ⟨h.running, h.queues, fun kind' c' t' row' hMem => ?_, h.bits, h.tables⟩
  dsimp only [State.process] at hMem
  split at hMem
  · next hSame =>
      obtain ⟨rfl, rfl, rfl⟩ := hSame
      rcases List.mem_append.mp hMem with hOld | hNew
      · exact h.processed kind' c' t' row' hOld
      · rw [List.mem_singleton.mp hNew]
        exact hRow
  · exact h.processed kind' c' t' row' hMem

/-- A left key for the channel gets into its table. -/
theorem insert (h : Routing J s) {row : Row} {table : InlineHashtable}
    (hRow : J.Takes .build t row) (hInsert : (s.tables t).insert row.key row.id = some table) :
    Routing J { s with tables := Function.update s.tables t table } := by
  refine ⟨h.running, h.queues, h.processed, fun t' => ?_, fun t' => ?_⟩
  · by_cases hEq : t' = t
    · subst hEq
      obtain ⟨i, _, rfl⟩ := Option.map_eq_some_iff.mp hInsert
      simpa using h.bits t'
    · simpa [hEq] using h.bits t'
  · by_cases hEq : t' = t
    · subst hEq
      obtain ⟨m, hm, hKeys⟩ := h.tables t'
      simp only [Function.update_self]
      by_cases hMax : row.key = maxKey
      · rw [hMax] at hInsert
        exact ⟨m, hm.insert_maxKey hInsert, hKeys⟩
      · refine ⟨_, hm.insert hInsert hMax, fun key hKey => ?_⟩
        by_cases hSame : key = row.key
        · subst hSame
          exact Join.mem_inserted.mpr ⟨hRow.1, hRow.2, hMax⟩
        · rw [Function.update_of_ne hSame] at hKey
          exact hKeys key hKey
    · simpa [hEq] using h.tables t'

/-- The row read next goes into the batch for its key. -/
theorem takes_emplaceBack {kind : Kind} {i j : Nat} {tasks : Nat → List Row} {key : UInt32}
    (hTasks : ∀ t, ∀ row ∈ tasks t, J.Takes kind t row) (hKey : J.data kind i j = some key) :
    ∀ row ∈ J.emplaceBack kind i c j key tasks, J.Takes kind (J.target key) row := by
  intro row hRow
  rcases List.mem_append.mp hRow with hOld | hNew
  · exact hTasks _ row hOld
  · rw [List.mem_singleton.mp hNew]
    exact ⟨List.mem_of_getElem? hKey, rfl⟩

theorem takes_update {kind : Kind} {tasks : Nat → List Row} {target : Nat} {rows : List Row}
    (hTasks : ∀ t, ∀ row ∈ tasks t, J.Takes kind t row)
    (hRows : ∀ row ∈ rows, J.Takes kind target row) :
    ∀ t, ∀ row ∈ Function.update tasks target rows t, J.Takes kind t row := by
  intro t row hRow
  by_cases hEq : t = target
  · subst hEq
    rw [Function.update_self] at hRow
    exact hRows row hRow
  · rw [Function.update_of_ne hEq] at hRow
    exact hTasks t row hRow

theorem step (h : Routing J s) (hStep : Step J s e s') : Routing J s' := by
  cases hStep with
  | popPartition c t kind i rest hIdle hQueue =>
      have hNext : Routing J ((s.pop c t rest).set t (.partitioning kind i 0 fun _ => [])) :=
        (h.pop hQueue).set fun _ row hRow => absurd hRow List.not_mem_nil
      exact hNext.congr rfl rfl rfl rfl
  | popBatch c t kind rows rest hIdle hQueue =>
      have hTask : Task.Proper J t (.batch kind rows) := h.queues c t _ (by rw [hQueue]; simp)
      exact (h.pop hQueue).set hTask
  | popNotification c t kind rest hIdle hQueue =>
      generalize pred32 (s.pendingLocal kind t) = pending
      have hLocal : Routing J ((s.pop c t rest).setLocal kind t pending) :=
        (h.pop hQueue).congr rfl rfl rfl rfl
      refine hLocal.set ?_
      split <;> trivial
  | popMerge c t rest hIdle hQueue =>
      have hNext : Routing J ((s.pop c t rest).set t (.merging 0)) := (h.pop hQueue).set trivial
      exact hNext.congr rfl rfl rfl rfl
  | row c kind i j tasks key hCase hj hKey hSize =>
      have hTasks := h.running c
      rw [hCase] at hTasks
      exact h.set (takes_update hTasks (takes_emplaceBack hTasks hKey))
  | rowSpawn c kind i j tasks key hCase hj hKey hSize =>
      have hTasks := h.running c
      rw [hCase] at hTasks
      have hTask :
          Task.Proper J (J.target key) (.batch kind (J.emplaceBack kind i c j key tasks)) :=
        takes_emplaceBack hTasks hKey
      refine (h.spawn hTask).set (takes_update hTasks ?_)
      exact fun row hRow => absurd hRow List.not_mem_nil
  | rowsDone c kind i j tasks hCase hj =>
      have hTasks := h.running c
      rw [hCase] at hTasks
      exact h.set hTasks
  | flush c kind k tasks hCase hk =>
      have hTasks := h.running c
      rw [hCase] at hTasks
      have hTask : Task.Proper J k (.batch kind (tasks k)) := hTasks k
      exact (h.spawn hTask).set hTasks
  | notify c kind k tasks hCase =>
      have hTasks := h.running c
      rw [hCase] at hTasks
      have hTask : Task.Proper J k (.notification kind) := trivial
      exact (h.spawn hTask).set hTasks
  | flushed c kind k tasks hCase hk => exact h.set trivial
  | insert t c row rows table hCase hInsert =>
      have hRows := h.running t
      rw [hCase] at hRows
      have hRow := hRows row List.mem_cons_self
      have hDone := (h.process (c := c) hRow).insert hRow hInsert
      exact hDone.set fun row' hRow' => hRows row' (List.mem_cons_of_mem _ hRow')
  | hit t c row rows value r hCase hGet hFound hResult =>
      have hRows := h.running t
      rw [hCase] at hRows
      have hDone : Routing J { (s.process .probe c t row) with
          resultSets := Function.update s.resultSets t r } :=
        (h.process (hRows row List.mem_cons_self)).congr rfl rfl rfl rfl
      exact hDone.set fun row' hRow' => hRows row' (List.mem_cons_of_mem _ hRow')
  | miss t c row rows hCase hGet =>
      have hRows := h.running t
      rw [hCase] at hRows
      have hDone := h.process (c := c) (hRows row List.mem_cons_self)
      exact hDone.set fun row' hRow' => hRows row' (List.mem_cons_of_mem _ hRow')
  | finish t kind c hCase => exact h.set trivial
  | decrement t kind hCase hne =>
      have hGlobal : Routing J (s.setGlobal kind (pred32 (s.pendingGlobal kind))) :=
        h.congr rfl rfl rfl rfl
      exact hGlobal.set trivial
  | callBuild t hCase hZero =>
      have hMoved : Routing J ((s.setGlobal .build 0).moveProbes (.dispatching t)) :=
        h.congr rfl rfl rfl rfl
      exact hMoved.set trivial
  | callProbe t hCase hZero =>
      have hGlobal : Routing J (s.setGlobal .probe 0) := h.congr rfl rfl rfl rfl
      have hSpawned : Routing J ((s.setGlobal .probe 0).spawn t t .merge) := hGlobal.spawn trivial
      have hMoved : Routing J (((s.setGlobal .probe 0).spawn t t .merge).move .merge (.queued t)) :=
        hSpawned.congr rfl rfl rfl rfl
      exact hMoved.set trivial
  | dispatch c k hCase hk =>
      have hSpawned : Routing J (s.spawn c k (.partition .probe k)) := h.spawn trivial
      have hMoved : Routing J ((s.spawn c k (.partition .probe k)).move (.partition .probe k)
          (.queued c)) := hSpawned.congr rfl rfl rfl rfl
      exact hMoved.set trivial
  | dispatched c k hCase hk => exact h.set trivial
  | merge c k hCase hk =>
      have hCounted : Routing J { s with
          countOutputTuples := s.countOutputTuples + (s.resultSets k).items.length } :=
        h.congr rfl rfl rfl rfl
      exact hCounted.set trivial
  | merged c k hCase hk => exact h.set trivial

theorem run {log : List Event} (hRun : Run (Step J) (State.initial J) log s) : Routing J s :=
  hRun.invariant (P := Routing J) (initial J) fun _ _ _ h hStep => h.step hStep

end Routing

/-! ## Room in the tables -/

/-- The left keys that go to channel `t`. -/
def Join.leftKeys (J : Join) (t : Nat) : Finset UInt32 :=
  (J.left.filter fun key => J.target key = t).toFinset

/-- The slots of a table, from the keys per core. -/
def Join.neededSlots (J : Join) : Nat := nextPowerOfTwo (J.perCore .build * 3 / 2)

/-- There are cache lines of left keys for every core, the tables can be made, and each channel gets
fewer left keys than its table has slots, which goes without saying for a single core. -/
structure Join.Roomy (J : Join) : Prop where
  lines : 16 * J.countCores ≤ J.left.length
  made : J.neededSlots < 2 ^ 32
  few : J.countCores = 1 ∨ ∀ t < J.countCores, (J.leftKeys t).card < J.neededSlots

/-- A row of the kind has been routed to channel `t`: it is in a batch that is not spawned, queued,
executed or done. -/
def Routed (s : State) (kind : Kind) (t : Nat) (row : Row) : Prop :=
  (∃ c i j tasks, s.running c = .partitioning kind i j tasks ∧ row ∈ tasks t) ∨
    (∃ c k tasks, (s.running c = .flushing kind k tasks ∨ s.running c = .notifying kind k tasks) ∧
      row ∈ tasks t) ∨
    (∃ c rows, .batch kind rows ∈ s.queues (c, t) ∧ row ∈ rows) ∨
    (∃ c rows, s.running t = .executing kind c rows ∧ row ∈ rows) ∨
    ∃ c, row ∈ s.processed kind c t

/-- In this state every table has a slot, more slots than distinct keys were routed to its
channel, and every search in a table ends. -/
structure Suffices (J : Join) (s : State) : Prop where
  slots : ∀ t < J.countCores, 0 < (s.tables t).slots ∧ (s.tables t).slots = J.neededSlots
  routed : ∀ t < J.countCores, ∀ keys : Finset UInt32,
    (∀ key ∈ keys, ∃ row, Routed s .build t row ∧ row.key = key) → keys.card < (s.tables t).slots
  insert : ∀ t c row rows, s.running t = .executing .build c (row :: rows) →
    ∃ table, (s.tables t).insert row.key row.id = some table
  get : ∀ t c row rows, s.running t = .executing .probe c (row :: rows) →
    ∃ value, (s.tables t).get row.key = some value

section Room

variable {J : Join} {s : State} {t : Nat}

theorem Routing.takes (h : Routing J s) {kind : Kind} {row : Row} (hRow : Routed s kind t row) :
    J.Takes kind t row := by
  rcases hRow with ⟨c, i, j, tasks, hCase, hMem⟩ | ⟨c, k, tasks, hCase | hCase, hMem⟩ |
    ⟨c, rows, hTask, hMem⟩ | ⟨c, rows, hCase, hMem⟩ | ⟨c, hMem⟩
  · have hTasks := h.running c
    rw [hCase] at hTasks
    exact hTasks t row hMem
  · have hTasks := h.running c
    rw [hCase] at hTasks
    exact hTasks t row hMem
  · have hTasks := h.running c
    rw [hCase] at hTasks
    exact hTasks t row hMem
  · exact h.queues c t _ hTask row hMem
  · have hRows := h.running t
    rw [hCase] at hRows
    exact hRows row hMem
  · exact h.processed kind c t row hMem

/-- The table of a single core is made for all keys. -/
theorem Join.length_lt_neededSlots (hOne : J.countCores = 1) (hLines : 16 ≤ J.left.length) :
    J.left.length < J.neededSlots := by
  have hPer : J.perCore .build = J.left.length / 16 * 16 := by
    rw [perCore, tuplesPerCore, hOne, Nat.div_one]
    show J.left.length * 4 / 64 * 16 = J.left.length / 16 * 16
    omega
  rw [neededSlots, hPer]
  by_cases hTwo : J.left.length < 32
  · have hLine : J.left.length / 16 * 16 = 16 := by omega
    rw [hLine, show nextPowerOfTwo (16 * 3 / 2) = 32 by decide]
    exact hTwo
  · obtain ⟨bits, hNext, hLe, -⟩ :=
      nextPowerOfTwo_spec (J.left.length / 16 * 16 * 3 / 2) (by omega)
    omega

theorem Join.Roomy.card_leftKeys (h : J.Roomy) (ht : t < J.countCores) :
    (J.leftKeys t).card < J.neededSlots := by
  rcases h.few with hOne | hFew
  · have hLines := h.lines
    rw [hOne] at hLines
    calc (J.leftKeys t).card ≤ (J.left.filter fun key => J.target key = t).length :=
          List.toFinset_card_le _
      _ ≤ J.left.length := List.length_filter_le _ _
      _ < J.neededSlots := J.length_lt_neededSlots hOne hLines
  · exact hFew t ht

theorem Join.inserted_subset (J : Join) (t : Nat) : J.inserted t ⊆ J.leftKeys t := by
  intro key hKey
  obtain ⟨hLeft, hTarget, _⟩ := Join.mem_inserted.mp hKey
  exact List.mem_toFinset.mpr (List.mem_filter.mpr ⟨hLeft, decide_eq_true hTarget⟩)

theorem Routing.slots_eq (h : Routing J s) (hLines : 16 * J.countCores ≤ J.left.length) :
    (s.tables t).slots = J.neededSlots := by
  have hCores : J.countCores ≤ J.left.length * 4 / 64 := by omega
  have hPos := Nat.div_pos hCores J.pos
  have hPer : tuplesPerCore J.left.length J.countCores ≠ 0 := by
    show J.left.length * 4 / 64 / J.countCores * (64 / 4) ≠ 0
    omega
  rw [InlineHashtable.slots, h.bits t]
  exact J.table hPer

/-- A key is searched for in its table, which has an empty slot. -/
theorem Routing.room (h : Routing J s) (hRoomy : J.Roomy) (ht : t < J.countCores) :
    (J.inserted t).card < (s.tables t).slots := by
  rw [h.slots_eq hRoomy.lines]
  exact Nat.lt_of_le_of_lt (Finset.card_le_card (J.inserted_subset t)) (hRoomy.card_leftKeys ht)

end Room

/-- In every state of every run no table is full, and no search in a table is without end. -/
theorem tables_suffice_of_run {J : Join} (hRoomy : J.Roomy) :
    ∀ log s, Run (Step J) (State.initial J) log s → Suffices J s := by
  intro log s hRun
  have h := Routing.run hRun
  have hBusy : ∀ t, s.running t ≠ .idle → t < J.countCores := (Barrier.run hRun).streams.busy
  refine ⟨fun t _ => ⟨(s.tables t).slots_pos, h.slots_eq hRoomy.lines⟩, fun t ht keys hKeys => ?_,
    fun t c row rows hCase => ?_, fun t c row rows hCase => ?_⟩
  · have hSub : keys ⊆ J.leftKeys t := by
      intro key hKey
      obtain ⟨row, hRow, rfl⟩ := hKeys key hKey
      obtain ⟨hLeft, hTarget⟩ := h.takes hRow
      exact List.mem_toFinset.mpr (List.mem_filter.mpr ⟨hLeft, decide_eq_true hTarget⟩)
    rw [h.slots_eq hRoomy.lines]
    exact Nat.lt_of_le_of_lt (Finset.card_le_card hSub) (hRoomy.card_leftKeys ht)
  · have ht := hBusy t (by rw [hCase]; simp)
    obtain ⟨m, hm, hKeys⟩ := h.tables t
    exact hm.insert_isSome (J.inserted t) hKeys (Or.inl (h.room hRoomy ht)) row.id
  · have ht := hBusy t (by rw [hCase]; simp)
    obtain ⟨m, hm, hKeys⟩ := h.tables t
    exact hm.get_isSome (J.inserted t) hKeys (Or.inl (h.room hRoomy ht))

theorem tables_suffice_of_run_balanced :
    balanced.Roomy ∧
      ∀ log s, Run (Step balanced) (State.initial balanced) log s → Suffices balanced s := by
  have hRoomy : balanced.Roomy :=
    ⟨by decide, by decide +kernel, Or.inr (by decide +kernel)⟩
  exact ⟨hRoomy, tables_suffice_of_run hRoomy⟩

/-- With 33 keys for a table of 32 slots, a run comes to a state where a key is searched for
without end. -/
theorem skewed_insufficient :
    ∃ log s, Run (Step skewed) (State.initial skewed) log s ∧ ¬ Suffices skewed s := by
  have hSmall : skewed.Small := skewed.small_of_length fun kind => by cases kind <;> decide
  obtain ⟨log, s, hRun, hEnd⟩ := Run.exists_end (acc_of_small hSmall (Barrier.initial skewed))
  have h := Invariant.run hSmall hRun
  refine ⟨log, s, hRun, fun hSuffices => ?_⟩
  have hExecutes : ∀ c kind source row rows, s.running c = .executing kind source (row :: rows) →
      ∃ s', Next skewed s s' := by
    intro c kind source row rows hCase
    cases kind with
    | build =>
        obtain ⟨table, hTable⟩ := hSuffices.insert c source row rows hCase
        exact ⟨_, _, .insert c source row rows table hCase hTable⟩
    | probe =>
        obtain ⟨value, hValue⟩ := hSuffices.get c source row rows hCase
        exact h.answered hCase hValue fun _ => by decide
  have hZero := (h.completed_of_executes hExecutes hEnd).1 .build
  exact absurd (h.room_of_finished hZero (t := 0) (by decide)) (by decide +kernel)

end MxTasking.HashJoin
