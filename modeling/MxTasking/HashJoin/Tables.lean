import MxTasking.HashJoin.Rows

/-!
# The hash tables and the result sets

The table of a channel is the map of the build rows that are done there, and its result set has the
answers to the probe rows that are done there.  That goes together because no build
row is left when the first probe row is read.
-/

namespace MxTasking.HashJoin

open MxTasking.Verified
open InlineHashtable (Represents)

/-- The keys that get into the table of channel `t`. -/
def Join.inserted (J : Join) (t : Nat) : Finset UInt32 :=
  (J.left.filter fun key => J.target key = t ∧ key ≠ maxKey).toFinset

theorem Join.mem_inserted {J : Join} {t : Nat} {key : UInt32} :
    key ∈ J.inserted t ↔ key ∈ J.left ∧ J.target key = t ∧ key ≠ maxKey := by
  rw [inserted, List.mem_toFinset, List.mem_filter, decide_eq_true_eq]

/-- What `ProbeTask::execute` adds to the result set for a row. -/
def answer (s : State) (t : Nat) (row : Row) : Option (Nat × Nat) :=
  match (s.tables t).get row.key with
  | some value => if value ≠ maxValue then some (row.id, value) else none
  | none => none

/-- The table of `t` is the map of the rows done. -/
structure Built (J : Join) (s : State) (t : Nat) (m : UInt32 → Option Nat) : Prop where
  represents : Represents (s.tables t) m
  sound : ∀ key id, m key = some id → ∃ c < J.countCores, ⟨id, key⟩ ∈ s.processed .build c t
  complete : ∀ c row, row ∈ s.processed .build c t → row.key ≠ maxKey → m row.key ≠ none

/-- The tables and the result sets are what the rows done make of them. -/
structure Data (J : Join) (s : State) : Prop where
  bits : ∀ t, (s.tables t).bits = J.tableBits
  tables : ∀ t, ∃ m, Built J s t m
  results : ∀ t, ((s.resultSets t).items : Multiset (Nat × Nat)) =
    ∑ c ∈ Finset.range J.countCores, ((s.processed .probe c t).filterMap (answer s t) : Multiset _)
  room : ∀ t, J.perCore .probe ≠ 0 →
    (s.resultSets t).capacity ≠ 0 ∧ (s.resultSets t).items.length ≤ (s.resultSets t).capacity

/-- Nothing of a chunk is done before its partition task is started. -/
theorem Accounted.untouched {J : Join} {s : State} {kind : Kind} {c t : Nat} (h : Accounted J s)
    (hc : c < J.countCores) (ht : t < J.countCores)
    (hNot : s.place (.partition kind c) ≠ .started) : s.processed kind c t = [] := by
  have hAll := congrArg List.length (h kind c t hc ht)
  rw [rowsOf, unsent, if_neg hNot] at hAll
  simp only [List.length_append] at hAll
  exact List.eq_nil_of_length_eq_zero (by omega)

theorem ResultSet.emplaceBack_eq {r r' : ResultSet} {item : Nat × Nat}
    (h : r.emplaceBack item = some r') :
    r'.items = r.items ++ [item] ∧ r'.items.length ≤ r'.capacity ∧
      (r.capacity ≠ 0 → r'.capacity ≠ 0) := by
  unfold emplaceBack at h
  have hPos : r.capacity ≠ 0 →
      (if r.items.length ≥ r.capacity then r.capacity * 2 else r.capacity) ≠ 0 := by
    intro hne
    split <;> omega
  generalize (if r.items.length ≥ r.capacity then r.capacity * 2 else r.capacity) = capacity
    at h hPos
  by_cases hLess : r.items.length < capacity
  · obtain rfl := Option.some.inj ((if_pos hLess).symm.trans h)
    exact ⟨rfl, by simpa [Nat.succ_le_iff] using hLess, hPos⟩
  · exact absurd ((if_neg hLess).symm.trans h) (by simp)

/-- A vector that is not of size 0 has room, or makes it. -/
theorem ResultSet.emplaceBack_isSome {r : ResultSet} (hPos : r.capacity ≠ 0)
    (hLe : r.items.length ≤ r.capacity) (item : Nat × Nat) :
    ∃ r', r.emplaceBack item = some r' := by
  simp only [emplaceBack]
  rw [if_pos (by split <;> omega)]
  exact ⟨_, rfl⟩

theorem State.mem_process {s : State} {kind : Kind} {c t c' : Nat} {row row' : Row} :
    row' ∈ (s.process kind c t row).processed kind c' t ↔
      row' ∈ s.processed kind c' t ∨ (c' = c ∧ row' = row) := by
  by_cases hEq : c' = c <;> simp [process, hEq]

namespace Built

variable {J : Join} {s s' : State} {t : Nat} {m : UInt32 → Option Nat}

theorem congr (h : Built J s t m) (hTables : s'.tables t = s.tables t)
    (hProcessed : ∀ c, s'.processed .build c t = s.processed .build c t) : Built J s' t m := by
  refine ⟨by rw [hTables]; exact h.represents, ?_, ?_⟩
  · intro key id hKey
    obtain ⟨c, hc, hMem⟩ := h.sound key id hKey
    exact ⟨c, hc, by rw [hProcessed c]; exact hMem⟩
  · intro c row hMem
    rw [hProcessed c] at hMem
    exact h.complete c row hMem

/-- A row is inserted. -/
theorem insert (h : Built J s t m) {c : Nat} {row : Row} {table : InlineHashtable}
    (hc : c < J.countCores) (hInsert : (s.tables t).insert row.key row.id = some table) :
    ∃ m', Built J { (s.process .build c t row) with
      tables := Function.update s.tables t table } t m' := by
  by_cases hMax : row.key = maxKey
  · refine ⟨m, ?_, fun key id hKey => ?_, fun c' row' hMem hne => ?_⟩
    · rw [hMax] at hInsert
      simpa using h.represents.insert_maxKey hInsert
    · obtain ⟨c', hc', hMem⟩ := h.sound key id hKey
      exact ⟨c', hc', State.mem_process.mpr (Or.inl hMem)⟩
    · rcases State.mem_process.mp hMem with hOld | ⟨_, rfl⟩
      · exact h.complete c' row' hOld hne
      · exact absurd hMax hne
  · refine ⟨Function.update m row.key (some row.id), ?_, fun key id hKey => ?_,
      fun c' row' hMem hne => ?_⟩
    · simpa using h.represents.insert hInsert hMax
    · rcases update_cases hKey with ⟨rfl, hId⟩ | ⟨_, hOld⟩
      · obtain rfl := Option.some.inj hId
        exact ⟨c, hc, State.mem_process.mpr (Or.inr ⟨rfl, rfl⟩)⟩
      · obtain ⟨c', hc', hMem⟩ := h.sound key id hOld
        exact ⟨c', hc', State.mem_process.mpr (Or.inl hMem)⟩
    · by_cases hKey : row'.key = row.key
      · simp [hKey]
      · rw [Function.update_of_ne hKey]
        rcases State.mem_process.mp hMem with hOld | ⟨_, rfl⟩
        · exact h.complete c' row' hOld hne
        · exact absurd rfl hKey

/-- The keys of the table are left keys for it. -/
theorem mem_inserted (h : Built J s t m) (hAccounted : Accounted J s) (ht : t < J.countCores)
    {key : UInt32} (hKey : m key ≠ none) : key ∈ J.inserted t := by
  obtain ⟨id, hId⟩ := Option.ne_none_iff_exists'.mp hKey
  obtain ⟨c, hc, hMem⟩ := h.sound key id hId
  obtain ⟨hChunk, hTarget⟩ := J.mem_routedFrom.mp (hAccounted.processed hc ht hMem)
  have hMax : key ≠ maxKey := by
    rintro rfl
    exact hKey h.represents.max
  exact Join.mem_inserted.mpr ⟨J.key_of_mem_chunkRows hChunk, hTarget, hMax⟩

end Built

namespace Data

variable {J : Join} {s s' : State} {e : Event}

theorem initial (J : Join) : Data J (State.initial J) := by
  refine ⟨fun t => rfl, fun t => ⟨fun _ => none, Represents.construct _, ?_, ?_⟩, fun t => ?_,
    fun t hPos => ⟨hPos, Nat.zero_le _⟩⟩
  · intro key id h
    exact absurd h (by simp)
  · intro c row h
    exact absurd h List.not_mem_nil
  · exact (Finset.sum_eq_zero fun c _ => rfl).symm

theorem congr (h : Data J s) (hTables : s'.tables = s.tables)
    (hResults : s'.resultSets = s.resultSets) (hProcessed : s'.processed = s.processed) :
    Data J s' := by
  have hAnswer : answer s' = answer s := by
    funext t row
    rw [answer, answer, hTables]
  refine ⟨by rw [hTables]; exact h.bits, fun t => ?_, ?_, by rw [hResults]; exact h.room⟩
  · obtain ⟨m, hm⟩ := h.tables t
    exact ⟨m, hm.congr (by rw [hTables]) fun c => by rw [hProcessed]⟩
  · rw [hResults, hProcessed, hAnswer]
    exact h.results

/-- Probe rows are read when no build row is left. -/
theorem no_probe (hBarrier : Barrier J s) (hAccounted : Accounted J s) {c t : Nat}
    {rows : List Row} (hCase : s.running t = .executing .build c rows) {c' t' : Nat}
    (hc' : c' < J.countCores) (ht' : t' < J.countCores) : s.processed .probe c' t' = [] := by
  have ht : t < J.countCores := hBarrier.streams.busy t (by rw [hCase]; simp)
  obtain ⟨hc, hWaiting⟩ := hBarrier.streams.executing .build c t rows hCase
  have hGlobal : s.pendingGlobal .build ≠ 0 := fun hZero => hBarrier.finished hZero hc ht hWaiting
  have hPlace := (hBarrier.placed.probe c').mpr hGlobal
  exact hAccounted.untouched hc' ht' (by rw [hPlace]; simp)

/-- A build row is done. -/
theorem insert (h : Data J s) (hBarrier : Barrier J s) (hAccounted : Accounted J s) {c t : Nat}
    {row : Row} {rows : List Row} {table : InlineHashtable}
    (hCase : s.running t = .executing .build c (row :: rows))
    (hInsert : (s.tables t).insert row.key row.id = some table) :
    Data J { (s.process .build c t row) with tables := Function.update s.tables t table } := by
  have ht : t < J.countCores := hBarrier.streams.busy t (by rw [hCase]; simp)
  have hc : c < J.countCores := (hBarrier.streams.executing .build c t _ hCase).1
  refine ⟨fun t' => ?_, fun t' => ?_, fun t' => ?_, h.room⟩
  · by_cases hEq : t' = t
    · subst hEq
      obtain ⟨i, _, rfl⟩ := Option.map_eq_some_iff.mp hInsert
      simpa using h.bits t'
    · simpa [hEq] using h.bits t'
  · obtain ⟨m, hm⟩ := h.tables t'
    by_cases hEq : t' = t
    · subst hEq
      exact hm.insert hc hInsert
    · exact ⟨m, hm.congr (by simp [hEq]) fun c' => by simp [State.process, hEq]⟩
  · refine (h.results t').trans (Finset.sum_congr rfl fun c' hc' => ?_)
    by_cases hEq : t' = t
    · subst hEq
      have hNil := no_probe hBarrier hAccounted hCase (Finset.mem_range.mp hc') ht
      simp [State.process, hNil]
    · have hAnswer : answer { (s.process .build c t row) with
          tables := Function.update s.tables t table } t' = answer s t' := by
        funext row'
        simp [answer, hEq]
      rw [hAnswer]
      simp [State.process]

/-- A probe row is done; its answer is in the result set. -/
theorem probe (h : Data J s) (row : Row) {c t : Nat} {r : ResultSet} (hc : c < J.countCores)
    (hItems : (r.items : Multiset (Nat × Nat)) =
      (s.resultSets t).items + ((answer s t row).toList : Multiset (Nat × Nat)))
    (hRoom : J.perCore .probe ≠ 0 → r.capacity ≠ 0 ∧ r.items.length ≤ r.capacity) :
    Data J { (s.process .probe c t row) with
      resultSets := Function.update s.resultSets t r } := by
  refine ⟨h.bits, fun t' => ?_, fun t' => ?_, fun t' hPos => ?_⟩
  · obtain ⟨m, hm⟩ := h.tables t'
    exact ⟨m, hm.congr rfl fun c' => by simp [State.process]⟩
  · have hAnswer : answer { (s.process .probe c t row) with
        resultSets := Function.update s.resultSets t r } = answer s := rfl
    rw [hAnswer]
    by_cases hEq : t' = t
    · subst hEq
      have hSum := sum_change (S := Finset.range J.countCores) (i := c) (a := 0)
        (b := ((answer s t' row).toList : Multiset (Nat × Nat)))
        (f := fun c' => ((s.processed .probe c' t').filterMap (answer s t') : Multiset _))
        (g := fun c' => (((s.process .probe c t' row).processed .probe c' t').filterMap
          (answer s t') : Multiset _)) (Finset.mem_range.mpr hc) ?_ ?_
      · rw [add_zero] at hSum
        simp only [Function.update_self, hItems, h.results t']
        exact hSum.symm
      · cases hAns : answer s t' row with
        | none => simp [State.process, hAns]
        | some pair =>
            simp only [State.process, and_self, if_true, List.filterMap_append, add_zero,
              ← Multiset.coe_add]
            simp [hAns]
      · intro c' _ hne
        simp [State.process, hne]
    · simpa [State.process, hEq] using h.results t'
  · by_cases hEq : t' = t
    · subst hEq
      simpa using hRoom hPos
    · simpa [hEq] using h.room t' hPos

/-- One step. -/
theorem step (h : Data J s) (hBarrier : Barrier J s) (hAccounted : Accounted J s)
    (hStep : Step J s e s') : Data J s' := by
  cases hStep with
  | insert t c row rows table hCase hInsert =>
      exact (h.insert hBarrier hAccounted hCase hInsert).congr rfl rfl rfl
  | hit t c row rows value r hCase hGet hValue hBack =>
      have hc : c < J.countCores := (hBarrier.streams.executing .probe c t _ hCase).1
      have hAnswer : answer s t row = some (row.id, value) := by
        simp [answer, hGet, hValue]
      obtain ⟨hItems, hLength, hPos⟩ := ResultSet.emplaceBack_eq hBack
      refine (h.probe row (t := t) (r := r) hc ?_ fun hPer => ?_).congr rfl rfl rfl
      · rw [hItems, hAnswer, ← Multiset.coe_add]
        rfl
      · exact ⟨hPos (h.room t hPer).1, hLength⟩
  | miss t c row rows hCase hGet =>
      have hc : c < J.countCores := (hBarrier.streams.executing .probe c t _ hCase).1
      have hAnswer : answer s t row = none := by
        simp [answer, hGet]
      refine (h.probe row (t := t) (r := s.resultSets t) hc ?_ (h.room t)).congr rfl ?_ rfl
      · rw [hAnswer]
        exact (add_zero _).symm
      · exact (Function.update_eq_self ..).symm
  | _ => exact h.congr rfl rfl rfl

end Data

end MxTasking.HashJoin
