import MxTasking.HashJoin.Barrier
import MxTasking.Verified.Parts

/-!
# The rows on their way

A row of a chunk is read, put into the batch for its target, spawned with the batch, executed there
and done.  From one source to one target the rows stay in order, so at any time what is done,
what is executed, what is queued, what is not spawned and what is not read, one behind the other,
are the rows of the chunk for that target (`Accounted`).
-/

namespace MxTasking.HashJoin

open MxTasking.Verified

namespace Join

variable (J : Join) {kind : Kind} {i j : Nat}

/-- The rows of chunk `i` from `j` on, as its partition task numbers them. -/
def chunkRows (kind : Kind) (i j : Nat) : List Row :=
  (List.range' j (J.count kind i - j)).filterMap fun j =>
    (J.data kind i j).map fun key => ⟨J.rowId kind i i j, key⟩

/-- Those of them that go to `t`. -/
def routedFrom (kind : Kind) (i j t : Nat) : List Row :=
  (J.chunkRows kind i j).filter fun row => J.target row.key = t

theorem mem_routedFrom {row : Row} {t : Nat} : row ∈ J.routedFrom kind i j t ↔
    row ∈ J.chunkRows kind i j ∧ J.target row.key = t := by
  rw [routedFrom, List.mem_filter, decide_eq_true_eq]

theorem perCore_mul_le (kind : Kind) :
    (J.countCores - 1) * J.perCore kind + J.perCore kind ≤ (J.keys kind).length := by
  have hPos := J.pos
  have hMul : (J.countCores - 1) * J.perCore kind + J.perCore kind =
      J.countCores * J.perCore kind := by
    conv_rhs => rw [← Nat.sub_add_cancel hPos]
    rw [Nat.add_mul, Nat.one_mul]
  rw [hMul, perCore, tuplesPerCore]
  have hCores := Nat.div_mul_le_self ((J.keys kind).length * 4 / 64) J.countCores
  have hLine := Nat.div_mul_le_self ((J.keys kind).length * 4) 64
  rw [Nat.mul_comm J.countCores, Nat.mul_right_comm]
  generalize (J.keys kind).length * 4 / 64 / J.countCores * J.countCores = lines at hCores ⊢
  omega

theorem count_le (kind : Kind) (i : Nat) : J.count kind i ≤ (J.keys kind).length := by
  have hAll := J.perCore_mul_le kind
  unfold count
  split <;> omega

/-- The chunks are inside of the table. -/
theorem index_lt (hi : i < J.countCores) (hj : j < J.count kind i) :
    i * J.perCore kind + j < (J.keys kind).length := by
  have hAll := J.perCore_mul_le kind
  unfold count at hj
  split at hj
  · next hLess =>
      have hMul : (i + 1) * J.perCore kind ≤ (J.countCores - 1) * J.perCore kind :=
        Nat.mul_le_mul_right _ hLess
      rw [Nat.add_mul, Nat.one_mul] at hMul
      omega
  · next hLast =>
      obtain rfl : i = J.countCores - 1 := by omega
      omega

theorem data_isSome (hi : i < J.countCores) (hj : j < J.count kind i) :
    ∃ key, J.data kind i j = some key :=
  ⟨_, List.getElem?_eq_getElem (J.index_lt hi hj)⟩

theorem chunkRows_cons {key : UInt32} (hj : j < J.count kind i)
    (hKey : J.data kind i j = some key) :
    J.chunkRows kind i j = ⟨J.rowId kind i i j, key⟩ :: J.chunkRows kind i (j + 1) := by
  unfold chunkRows
  rw [show J.count kind i - j = J.count kind i - (j + 1) + 1 by omega, List.range'_succ,
    List.filterMap_cons, hKey]
  rfl

theorem chunkRows_nil (hj : ¬ j < J.count kind i) : J.chunkRows kind i j = [] := by
  unfold chunkRows
  rw [show J.count kind i - j = 0 by omega]
  rfl

theorem key_of_mem_chunkRows {row : Row} (h : row ∈ J.chunkRows kind i j) :
    row.key ∈ J.keys kind := by
  obtain ⟨j', _, hRow⟩ := List.mem_filterMap.mp h
  obtain ⟨key, hKey, rfl⟩ := Option.map_eq_some_iff.mp hRow
  exact List.mem_of_getElem? hKey

/-- The chunks are the table. -/
theorem flatMap_count (kind : Kind) :
    (List.range J.countCores).flatMap (fun i => List.range' (i * J.perCore kind) (J.count kind i)) =
      List.range (J.keys kind).length := by
  have hAll := J.perCore_mul_le kind
  have hChunks := flatMap_chunks (p := J.perCore kind) (m := J.countCores - 1)
    (n := (J.keys kind).length) (by omega) (J.count kind) (fun i hi => if_pos hi)
    (if_neg (lt_irrefl _))
  rwa [Nat.sub_add_cancel J.pos] at hChunks

/-- Every key of a table is in a chunk. -/
theorem exists_mem_chunkRows (kind : Kind) {key : UInt32} (h : key ∈ J.keys kind) :
    ∃ i < J.countCores, ∃ row ∈ J.chunkRows kind i 0, row.key = key := by
  obtain ⟨p, hp, rfl⟩ := List.mem_iff_getElem.mp h
  have hMem : p ∈ List.range (J.keys kind).length := List.mem_range.mpr hp
  rw [← J.flatMap_count kind, List.mem_flatMap] at hMem
  obtain ⟨i, hi, hMem⟩ := hMem
  obtain ⟨j, hj, rfl⟩ := List.mem_range'.mp hMem
  refine ⟨i, List.mem_range.mp hi, ⟨J.rowId kind i i j, _⟩, ?_, rfl⟩
  refine List.mem_filterMap.mpr ⟨j, by simpa using hj, ?_⟩
  rw [data, Option.map_eq_some_iff]
  exact ⟨_, List.getElem?_eq_getElem (by simpa using hp), by simp⟩

end Join

/-! ## Accounting -/

/-- The rows in a task. -/
def Task.rows (kind : Kind) : Task → List Row
  | .batch k rows => if k = kind then rows else []
  | _ => []

/-- The rows from `c` that are being executed. -/
def Running.batchRows (kind : Kind) (c : Nat) : Running → List Row
  | .executing k source rows => if k = kind ∧ source = c then rows else []
  | _ => []

/-- The rows of chunk `c` for `t` that its partition task has not spawned. -/
def Running.unsent (J : Join) (kind : Kind) (c t : Nat) : Running → List Row
  | .partitioning k _ j tasks => if k = kind then tasks t ++ J.routedFrom kind c j t else []
  | .flushing k m tasks => if k = kind ∧ m ≤ t then tasks t else []
  | .notifying k m tasks => if k = kind ∧ m < t then tasks t else []
  | _ => []

/-- The rows of chunk `c` for `t` that are not spawned. -/
def unsent (J : Join) (s : State) (kind : Kind) (c t : Nat) : List Row :=
  if s.place (.partition kind c) = .started then (s.running c).unsent J kind c t
  else J.routedFrom kind c 0 t

/-- The rows from `c` to `t` that are under way. -/
def underWay (s : State) (kind : Kind) (c t : Nat) : List Row :=
  (s.running t).batchRows kind c ++ (s.queues (c, t)).flatMap (Task.rows kind)

/-- The rows from `c` to `t`, those done first. -/
def rowsOf (J : Join) (s : State) (kind : Kind) (c t : Nat) : List Row :=
  s.processed kind c t ++ (underWay s kind c t ++ unsent J s kind c t)

section RowsOf

variable {J : Join} {s s' : State} {kind : Kind} {c t c₀ t₀ : Nat} {r : Running} {x : Task}
  {rest : List Task}

theorem rowsOf_congr (hQueues : s'.queues = s.queues) (hRunning : s'.running = s.running)
    (hPlace : ∀ kind c, s'.place (.partition kind c) = .started ↔
      s.place (.partition kind c) = .started) (hProcessed : s'.processed = s.processed) :
    rowsOf J s' kind c t = rowsOf J s kind c t := by
  simp only [rowsOf, underWay, unsent, hQueues, hRunning, hPlace, hProcessed]

/-- A channel goes on without touching a row. -/
theorem rowsOf_set (hBatch : ∀ kind c, r.batchRows kind c = (s.running c₀).batchRows kind c)
    (hUnsent : ∀ kind t, t < J.countCores →
      r.unsent J kind c₀ t = (s.running c₀).unsent J kind c₀ t) (ht : t < J.countCores) :
    rowsOf J (s.set c₀ r) kind c t = rowsOf J s kind c t := by
  have hUnder : underWay (s.set c₀ r) kind c t = underWay s kind c t := by
    by_cases hEq : t = c₀
    · subst hEq
      simp [underWay, State.set, hBatch]
    · simp [underWay, State.set, hEq]
  have hRest : unsent J (s.set c₀ r) kind c t = unsent J s kind c t := by
    by_cases hEq : c = c₀
    · subst hEq
      simp [unsent, State.set, hUnsent kind t ht]
    · simp [unsent, State.set, hEq]
  rw [rowsOf, rowsOf, hUnder, hRest]
  rfl

theorem rowsOf_pop (hQueue : s.queues (c₀, t₀) = x :: rest) (hx : ∀ kind, x.rows kind = []) :
    rowsOf J (s.pop c₀ t₀ rest) kind c t = rowsOf J s kind c t := by
  have hUnder : underWay (s.pop c₀ t₀ rest) kind c t = underWay s kind c t := by
    by_cases hEq : (c, t) = (c₀, t₀)
    · simp [underWay, State.pop, hEq, hQueue, hx]
    · simp [underWay, State.pop, hEq]
  rw [rowsOf, rowsOf, hUnder]
  rfl

theorem rowsOf_spawn (hx : ∀ kind, x.rows kind = []) :
    rowsOf J (s.spawn c₀ t₀ x) kind c t = rowsOf J s kind c t := by
  have hUnder : underWay (s.spawn c₀ t₀ x) kind c t = underWay s kind c t := by
    by_cases hEq : (c, t) = (c₀, t₀)
    · simp [underWay, State.spawn, hEq, hx]
    · simp [underWay, State.spawn, hEq]
  rw [rowsOf, rowsOf, hUnder]
  rfl

/-- A batch is taken from its queue. -/
theorem rowsOf_popBatch {kind₀ : Kind} {rows : List Row} (hIdle : s.running t₀ = .idle)
    (hQueue : s.queues (c₀, t₀) = .batch kind₀ rows :: rest) :
    rowsOf J ((s.pop c₀ t₀ rest).set t₀ (.executing kind₀ c₀ rows)) kind c t =
      rowsOf J s kind c t := by
  have hUnder : underWay ((s.pop c₀ t₀ rest).set t₀ (.executing kind₀ c₀ rows)) kind c t =
      underWay s kind c t := by
    by_cases ht : t = t₀
    · subst ht
      by_cases hc : c = c₀
      · subst hc
        simp [underWay, State.set, State.pop, hIdle, hQueue, Running.batchRows, Task.rows]
      · simp [underWay, State.set, State.pop, hIdle, hc, Ne.symm hc, Running.batchRows]
    · simp [underWay, State.set, State.pop, ht]
  have hRest : unsent J ((s.pop c₀ t₀ rest).set t₀ (.executing kind₀ c₀ rows)) kind c t =
      unsent J s kind c t := by
    by_cases hEq : c = t₀
    · subst hEq
      simp [unsent, State.set, State.pop, hIdle, Running.unsent]
    · simp [unsent, State.set, State.pop, hEq]
  rw [rowsOf, rowsOf, hUnder, hRest]
  rfl

/-- A batch is spawned. -/
theorem rowsOf_send {kind₀ : Kind} {rows : List Row}
    (hPlace : s.place (.partition kind₀ c₀) = .started)
    (hBatch : ∀ kind c, (s.running c₀).batchRows kind c = [])
    (hBatch' : ∀ kind c, r.batchRows kind c = [])
    (hSent : (s.running c₀).unsent J kind₀ c₀ t₀ = rows ++ r.unsent J kind₀ c₀ t₀)
    (hOther : ∀ kind t, (kind, t) ≠ (kind₀, t₀) →
      (s.running c₀).unsent J kind c₀ t = r.unsent J kind c₀ t) :
    rowsOf J ((s.spawn c₀ t₀ (.batch kind₀ rows)).set c₀ r) kind c t = rowsOf J s kind c t := by
  have hRunning : (((s.spawn c₀ t₀ (.batch kind₀ rows)).set c₀ r).running t).batchRows kind c =
      (s.running t).batchRows kind c := by
    by_cases ht : t = c₀
    · subst ht
      simp [State.set, hBatch, hBatch']
    · simp [State.set, State.spawn, ht]
  by_cases hc : c = c₀
  · subst hc
    by_cases hEq : (kind, t) = (kind₀, t₀)
    · obtain ⟨rfl, rfl⟩ := Prod.mk.inj hEq
      rw [rowsOf, rowsOf, underWay, underWay, hRunning]
      simp [unsent, State.set, State.spawn, hPlace, hSent, Task.rows]
    · rw [rowsOf, rowsOf, underWay, underWay, hRunning]
      by_cases ht : t = t₀
      · have hKind : kind₀ ≠ kind := by
          rintro rfl
          exact hEq (by rw [ht])
        subst ht
        simp [unsent, State.set, State.spawn, Task.rows, hKind, hOther kind t hEq]
      · simp [unsent, State.set, State.spawn, ht, hOther kind t hEq]
  · have hPair : (c, t) ≠ (c₀, t₀) := fun hEq => hc (Prod.mk.inj hEq).1
    rw [rowsOf, rowsOf, underWay, underWay, hRunning]
    simp [unsent, State.set, State.spawn, hc, hPair]

/-- A partition task is started. -/
theorem rowsOf_start {kind₀ : Kind} (hPlace : s.place (.partition kind₀ c₀) ≠ .started)
    (hIdle : s.running c₀ = .idle) :
    rowsOf J ((s.set c₀ (.partitioning kind₀ c₀ 0 fun _ => [])).move (.partition kind₀ c₀) .started)
      kind c t = rowsOf J s kind c t := by
  have hUnder : underWay ((s.set c₀ (.partitioning kind₀ c₀ 0 fun _ => [])).move
      (.partition kind₀ c₀) .started) kind c t = underWay s kind c t := by
    by_cases hEq : t = c₀
    · subst hEq
      simp [underWay, State.set, State.move, hIdle, Running.batchRows]
    · simp [underWay, State.set, State.move, hEq]
  have hRest : unsent J ((s.set c₀ (.partitioning kind₀ c₀ 0 fun _ => [])).move
      (.partition kind₀ c₀) .started) kind c t = unsent J s kind c t := by
    by_cases hEq : c = c₀
    · subst hEq
      by_cases hKind : kind = kind₀
      · subst hKind
        simp [unsent, State.set, State.move, hPlace, Running.unsent]
      · simp [unsent, State.set, State.move, hKind, Ne.symm hKind, hIdle, Running.unsent]
    · simp [unsent, State.set, State.move, hEq]
  rw [rowsOf, rowsOf, hUnder, hRest]
  rfl

/-- A row is done. -/
theorem rowsOf_process {kind₀ : Kind} {row : Row} {rows : List Row}
    (hCase : s.running t₀ = .executing kind₀ c₀ (row :: rows)) :
    rowsOf J ((s.process kind₀ c₀ t₀ row).set t₀ (.executing kind₀ c₀ rows)) kind c t =
      rowsOf J s kind c t := by
  have hRest : unsent J ((s.process kind₀ c₀ t₀ row).set t₀ (.executing kind₀ c₀ rows)) kind c t =
      unsent J s kind c t := by
    by_cases hEq : c = t₀
    · subst hEq
      simp [unsent, State.set, State.process, hCase, Running.unsent]
    · simp [unsent, State.set, State.process, hEq]
  rw [rowsOf, rowsOf, hRest]
  by_cases ht : t = t₀
  · subst ht
    by_cases hEq : kind = kind₀ ∧ c = c₀
    · obtain ⟨rfl, rfl⟩ := hEq
      simp [underWay, State.set, State.process, hCase, Running.batchRows]
    · have hEq' : ¬ (kind₀ = kind ∧ c₀ = c) := fun h => hEq ⟨h.1.symm, h.2.symm⟩
      simp [underWay, State.set, State.process, hCase, Running.batchRows, hEq, hEq']
  · simp [underWay, State.set, State.process, ht]

end RowsOf

/-- Every row is where it should be. -/
def Accounted (J : Join) (s : State) : Prop :=
  ∀ kind c t, c < J.countCores → t < J.countCores →
    rowsOf J s kind c t = J.routedFrom kind c 0 t

/-- The loop over the rows of a chunk, with its 32-bit index, gets to the end. -/
def Join.Small (J : Join) : Prop := ∀ kind i, i < J.countCores → J.count kind i < 2 ^ 32

theorem Join.small_of_length (J : Join) (h : ∀ kind, (J.keys kind).length < 2 ^ 32) : J.Small :=
  fun kind i _ => lt_of_le_of_lt (J.count_le kind i) (h kind)

theorem Join.routedFrom_cons (J : Join) {kind : Kind} {i j t : Nat} {key : UInt32}
    (hj : j < J.count kind i) (hKey : J.data kind i j = some key) :
    J.routedFrom kind i j t =
      (if J.target key = t then [⟨J.rowId kind i i j, key⟩] else []) ++
        J.routedFrom kind i (j + 1) t := by
  rw [routedFrom, J.chunkRows_cons hj hKey, List.filter_cons, routedFrom]
  by_cases hEq : J.target key = t <;> simp [hEq]

namespace Accounted

variable {J : Join} {s s' : State} {e : Event}

theorem initial (J : Join) : Accounted J (State.initial J) := by
  intro kind c t hc ht
  have hPlace : (State.initial J).place (.partition kind c) ≠ .started := by
    cases kind <;> simp only [State.initial] <;> grind
  have hUnder : underWay (State.initial J) kind c t = [] := by
    simp only [underWay, State.initial]
    split <;> simp [Running.batchRows, Task.rows]
  rw [rowsOf, hUnder, unsent, if_neg hPlace]
  rfl

/-- One step. -/
theorem step (hSmall : J.Small) (hBarrier : Barrier J s) (h : Accounted J s)
    (hStep : Step J s e s') : Accounted J s' := by
  have hPlaced := hBarrier.placed
  intro kind c t hc ht
  rw [← h kind c t hc ht]
  -- the next index, without the wrap of 32 bits
  have hNext : ∀ {c kind j tasks}, s.running c = .partitioning kind c j tasks →
      j < J.count kind c → (j + 1) % 2 ^ 32 = j + 1 := by
    intro c kind j tasks hCase hj
    have hCount := hSmall kind c (hBarrier.streams.busy c (by rw [hCase]; simp))
    exact Nat.mod_eq_of_lt (by omega)
  cases hStep with
  | popPartition c₀ t₀ kind₀ i rest hIdle hQueue =>
      have hMem : .partition kind₀ i ∈ s.queues (c₀, t₀) := by rw [hQueue]; simp
      obtain ⟨hPlace, hHome⟩ := hPlaced.queued.place_of_mem (x := .partition kind₀ i) trivial hMem
      obtain rfl : t₀ = i := hHome
      have hNot : (s.pop c₀ t₀ rest).place (.partition kind₀ t₀) ≠ .started := by
        rw [show (s.pop c₀ t₀ rest).place = s.place from rfl, hPlace]
        simp
      exact (rowsOf_start hNot hIdle).trans (rowsOf_pop hQueue fun _ => rfl)
  | popBatch c₀ t₀ kind₀ rows rest hIdle hQueue => exact rowsOf_popBatch hIdle hQueue
  | popNotification c₀ t₀ kind₀ rest hIdle hQueue =>
      have hSet : rowsOf J ((s.pop c₀ t₀ rest).set t₀
          (if pred32 (s.pendingLocal kind₀ t₀) = 0 then .notified kind₀ else .idle)) kind c t =
          rowsOf J (s.pop c₀ t₀ rest) kind c t :=
        rowsOf_set (by split <;> simp [Running.batchRows, State.pop, hIdle])
          (by split <;> simp [Running.unsent, State.pop, hIdle]) ht
      exact Eq.trans (rowsOf_congr rfl rfl (fun _ _ => Iff.rfl) rfl)
        (hSet.trans (rowsOf_pop hQueue fun _ => rfl))
  | popMerge c₀ t₀ rest hIdle hQueue =>
      have hSet : rowsOf J ((s.pop c₀ t₀ rest).set t₀ (.merging 0)) kind c t =
          rowsOf J (s.pop c₀ t₀ rest) kind c t :=
        rowsOf_set (by simp [Running.batchRows, State.pop, hIdle])
          (by simp [Running.unsent, State.pop, hIdle]) ht
      exact Eq.trans (rowsOf_congr rfl rfl (by simp [State.move]) rfl)
        (hSet.trans (rowsOf_pop hQueue fun _ => rfl))
  | row c₀ kind₀ i j tasks key hCase hj hKey _ =>
      obtain rfl := hPlaced.index _ _ _ _ _ hCase
      refine rowsOf_set (by simp [Running.batchRows, hCase]) (fun kind' t' _ => ?_) ht
      rw [hCase, hNext hCase hj]
      by_cases hKind : kind₀ = kind'
      · subst hKind
        by_cases hEq : t' = J.target key
        · subst hEq
          simp [Running.unsent, J.routedFrom_cons hj hKey, Join.emplaceBack]
        · simp [Running.unsent, J.routedFrom_cons hj hKey, hEq, Ne.symm hEq]
      · simp [Running.unsent, hKind]
  | rowSpawn c₀ kind₀ i j tasks key hCase hj hKey _ =>
      obtain rfl := hPlaced.index _ _ _ _ _ hCase
      refine rowsOf_send (hPlaced.started _ _ (by rw [hCase]; rfl))
        (by simp [Running.batchRows, hCase]) (by simp [Running.batchRows]) ?_ ?_
      · rw [hCase, hNext hCase hj]
        simp [Running.unsent, J.routedFrom_cons hj hKey, Join.emplaceBack]
      · intro kind' t' hne
        rw [hCase, hNext hCase hj]
        by_cases hKind : kind₀ = kind'
        · subst hKind
          have hEq : t' ≠ J.target key := by
            rintro rfl
            exact hne rfl
          simp [Running.unsent, J.routedFrom_cons hj hKey, hEq, Ne.symm hEq]
        · simp [Running.unsent, hKind]
  | rowsDone c₀ kind₀ i j tasks hCase hj =>
      obtain rfl := hPlaced.index _ _ _ _ _ hCase
      refine rowsOf_set (by simp [Running.batchRows, hCase]) (fun kind' t' _ => ?_) ht
      by_cases hKind : kind₀ = kind'
      · subst hKind
        simp [Running.unsent, hCase, Join.routedFrom, J.chunkRows_nil hj]
      · simp [Running.unsent, hCase, hKind]
  | flush c₀ kind₀ k tasks hCase hk =>
      refine rowsOf_send (hPlaced.started _ _ (by rw [hCase]; rfl))
        (by simp [Running.batchRows, hCase]) (by simp [Running.batchRows]) ?_ ?_
      · simp [Running.unsent, hCase]
      · intro kind' t' hne
        by_cases hKind : kind₀ = kind'
        · subst hKind
          have hLess : k ≤ t' ↔ k < t' := by
            have hEq : t' ≠ k := by
              rintro rfl
              exact hne rfl
            omega
          simp [Running.unsent, hCase, hLess]
        · simp [Running.unsent, hCase, hKind]
  | notify c₀ kind₀ k tasks hCase =>
      exact (rowsOf_set (by simp [Running.batchRows, State.spawn, hCase])
        (by simp only [Running.unsent, State.spawn, hCase, Nat.succ_le_iff, implies_true]) ht).trans
        (rowsOf_spawn fun _ => rfl)
  | flushed c₀ kind₀ k tasks hCase hk =>
      refine rowsOf_set (by simp [Running.batchRows, hCase]) (fun kind' t' ht' => ?_) ht
      have hNot : ¬ (kind₀ = kind' ∧ k ≤ t') := by omega
      simp [Running.unsent, hCase, hNot]
  | insert t₀ c₀ row rows table hCase _ => exact rowsOf_process hCase
  | hit t₀ c₀ row rows value r hCase _ _ _ => exact rowsOf_process hCase
  | miss t₀ c₀ row rows hCase _ => exact rowsOf_process hCase
  | finish t₀ kind₀ c₀ hCase =>
      exact rowsOf_set (by simp [Running.batchRows, hCase]) (by simp [Running.unsent, hCase]) ht
  | decrement t₀ kind₀ hCase _ =>
      exact rowsOf_set (s := s) (by simp [Running.batchRows, hCase])
        (by simp [Running.unsent, hCase]) ht
  | callBuild t₀ hCase hZero =>
      have hSet : rowsOf J (s.set t₀ (.dispatching 0)) kind c t = rowsOf J s kind c t :=
        rowsOf_set (by simp [Running.batchRows, hCase]) (by simp [Running.unsent, hCase]) ht
      exact Eq.trans (rowsOf_congr (s := s.set t₀ (.dispatching 0)) rfl rfl
        (hPlaced.started_moveProbes (pred32_ne_zero hZero)) rfl) hSet
  | callProbe t₀ hCase hZero =>
      have hSet : rowsOf J ((s.spawn t₀ t₀ .merge).set t₀ .idle) kind c t =
          rowsOf J (s.spawn t₀ t₀ .merge) kind c t :=
        rowsOf_set (by simp [Running.batchRows, State.spawn, hCase])
          (by simp [Running.unsent, State.spawn, hCase]) ht
      exact Eq.trans (rowsOf_congr rfl rfl (by simp [State.move, State.set, State.spawn,
        State.setGlobal]) rfl) (hSet.trans (rowsOf_spawn fun _ => rfl))
  | dispatch c₀ k hCase hk =>
      have hSet : rowsOf J ((s.spawn c₀ k (.partition .probe k)).set c₀ (.dispatching (k + 1)))
          kind c t = rowsOf J (s.spawn c₀ k (.partition .probe k)) kind c t :=
        rowsOf_set (by simp [Running.batchRows, State.spawn, hCase])
          (by simp [Running.unsent, State.spawn, hCase]) ht
      refine Eq.trans (rowsOf_congr (s := (s.spawn c₀ k (.partition .probe k)).set c₀
        (.dispatching (k + 1))) rfl rfl (hPlaced.started_dispatch hCase) rfl) ?_
      exact hSet.trans (rowsOf_spawn fun _ => rfl)
  | dispatched c₀ k hCase hk =>
      exact rowsOf_set (by simp [Running.batchRows, hCase]) (by simp [Running.unsent, hCase]) ht
  | merge c₀ k hCase _ =>
      exact rowsOf_set (s := s) (by simp [Running.batchRows, hCase])
        (by simp [Running.unsent, hCase]) ht
  | merged c₀ k hCase _ =>
      exact rowsOf_set (by simp [Running.batchRows, hCase]) (by simp [Running.unsent, hCase]) ht

variable {kind : Kind} {c t : Nat} {row : Row} {rows : List Row}

theorem mem_routed (h : Accounted J s) (hc : c < J.countCores) (ht : t < J.countCores)
    (hMem : row ∈ rowsOf J s kind c t) : row ∈ J.routedFrom kind c 0 t :=
  h kind c t hc ht ▸ hMem

/-- A row that is executed is one of the source, for this target. -/
theorem executing (h : Accounted J s) (hBarrier : Barrier J s)
    (hCase : s.running t = .executing kind c (row :: rows)) : row ∈ J.routedFrom kind c 0 t := by
  have ht : t < J.countCores := hBarrier.streams.busy t (by rw [hCase]; simp)
  have hc : c < J.countCores := (hBarrier.streams.executing kind c t _ hCase).1
  exact h.mem_routed hc ht (by simp [rowsOf, underWay, hCase, Running.batchRows])

/-- A row that is done is one of the source, for this target. -/
theorem processed (h : Accounted J s) (hc : c < J.countCores) (ht : t < J.countCores)
    (hMem : row ∈ s.processed kind c t) : row ∈ J.routedFrom kind c 0 t :=
  h.mem_routed hc ht (List.mem_append_left _ hMem)

/-- At the end of a phase all rows are done. -/
theorem finished (h : Accounted J s) (hBarrier : Barrier J s) (hZero : s.pendingGlobal kind = 0)
    (hc : c < J.countCores) (ht : t < J.countCores) :
    s.processed kind c t = J.routedFrom kind c 0 t := by
  have hWaiting : ¬ Waiting s kind c t := hBarrier.finished hZero hc ht
  have hStarted : s.place (.partition kind c) = .started := by
    by_contra hNot
    exact hWaiting (Or.inl (Or.inl hNot))
  have hUnder : underWay s kind c t = [] := by
    rw [underWay, List.append_eq_nil_iff, List.flatMap_eq_nil_iff]
    refine ⟨?_, fun x hx => ?_⟩
    · cases hCase : s.running t with
      | executing k source rows =>
          refine if_neg ?_
          rintro ⟨rfl, rfl⟩
          exact hWaiting (hBarrier.streams.executing _ _ _ _ hCase).2
      | _ => rfl
    · cases x with
      | batch k rows =>
          refine if_neg ?_
          rintro rfl
          exact hWaiting (hBarrier.streams.batch _ _ _ _ hx)
      | _ => rfl
  have hOpens : ∀ t' < J.countCores, ¬ (s.running c).Opens kind t' := fun t' ht' hOpens =>
    hBarrier.finished hZero hc ht' (Or.inl (Or.inr hOpens))
  have hRest : unsent J s kind c t = [] := by
    rw [unsent, if_pos hStarted]
    cases hCase : s.running c with
    | partitioning k i j tasks => exact if_neg fun hEq => hOpens t ht (by rw [hCase]; exact hEq)
    | flushing k m tasks => exact if_neg fun hEq => hOpens t ht (by rw [hCase]; exact hEq)
    | notifying k m tasks =>
        exact if_neg fun hEq => hOpens t ht (by rw [hCase]; exact ⟨hEq.1, hEq.2.le⟩)
    | _ => rfl
  have hAll := h kind c t hc ht
  rw [rowsOf, hUnder, hRest] at hAll
  simpa using hAll

end Accounted

end MxTasking.HashJoin
