import MxTasking.HashJoin.Completion

/-!
# The hash join emits the join

When a run has ended, every row of both tables has been executed on the channel of its key, and the
result sets are the answers to the right rows.  With the row ids being the positions, the
answers are the join.  They are the positions unless the last chunk is larger than the
others: the offset of a chunk is then taken with the wrong size.

## Main results

* `Join.flatMap_chunkRows` — the chunks have every row once, with its position.
* `Invariant.answer_eq` — what a probe row finds at the end.
* `join_of_run` — the result sets are the join.
-/

namespace MxTasking.HashJoin

open MxTasking.Verified
open InlineHashtable (Represents)

namespace Join

variable (J : Join) {kind : Kind} {i j : Nat}

/-- The rows of a table, with their positions. -/
def rows (kind : Kind) : List Row := (J.keys kind).mapIdx Row.mk

/-- The join: the positions of equal keys. -/
def joined : Finset (Nat × Nat) :=
  (Finset.range J.right.length ×ˢ Finset.range J.left.length).filter fun p =>
    J.right[p.1]? = J.left[p.2]?

/-- The chunks are all of the same size, or there is only one. -/
def Even : Prop := J.countCores = 1 ∨ ∀ kind, 16 * J.countCores ∣ (J.keys kind).length

theorem mul_count (hEven : J.Even) (hi : i < J.countCores) :
    i * J.count kind i = i * J.perCore kind := by
  rcases hEven with hOne | hDvd
  · obtain rfl : i = 0 := by omega
    rw [Nat.zero_mul, Nat.zero_mul]
  · unfold count
    split
    · rfl
    · next hLast =>
        obtain ⟨q, hq⟩ := hDvd kind
        rw [Nat.mul_assoc] at hq
        have hPos := J.pos
        have hLines : (J.keys kind).length * 4 / 64 = J.countCores * q := by omega
        have hPer : J.perCore kind = 16 * q := by
          rw [perCore, tuplesPerCore, hLines, Nat.mul_div_cancel_left _ hPos]
          omega
        have hAll : (J.keys kind).length =
            (J.countCores - 1) * J.perCore kind + J.perCore kind := by
          rw [hq, hPer, ← Nat.succ_mul, Nat.succ_eq_add_one, Nat.sub_add_cancel hPos,
            Nat.mul_left_comm]
        rw [hAll, Nat.add_sub_cancel_left]

/-- The row ids are the positions. -/
theorem rowId_eq (hEven : J.Even) (hSmall : J.Small) (hi : i < J.countCores)
    (hj : j < J.count kind i) : J.rowId kind i i j = i * J.perCore kind + j := by
  have hFits := J.fits
  have hCount := hSmall kind i hi
  have hMul : i * J.count kind i ≤ 2 ^ 16 * 2 ^ 32 :=
    Nat.mul_le_mul (by omega) hCount.le
  rw [rowId, Nat.mod_eq_of_lt (by omega), Nat.mod_eq_of_lt (by omega), J.mul_count hEven hi]

/-- The chunks have every row once, with its position. -/
theorem flatMap_chunkRows (hEven : J.Even) (hSmall : J.Small) (kind : Kind) :
    (List.range J.countCores).flatMap (fun i => J.chunkRows kind i 0) = J.rows kind := by
  have hChunk : ∀ i ∈ List.range J.countCores, J.chunkRows kind i 0 =
      (List.range' (i * J.perCore kind) (J.count kind i)).filterMap fun p =>
        (J.keys kind)[p]?.map (Row.mk p) := by
    intro i hi
    have hMap : List.range' (i * J.perCore kind) (J.count kind i) =
        (List.range' 0 (J.count kind i)).map (i * J.perCore kind + ·) := by
      rw [List.map_add_range', Nat.add_zero]
    rw [hMap, List.filterMap_map, chunkRows, Nat.sub_zero]
    refine List.filterMap_congr fun j hj => ?_
    have hj' : j < J.count kind i := by simpa using hj
    rw [Function.comp_apply, J.rowId_eq hEven hSmall (List.mem_range.mp hi) hj', data]
  rw [List.flatMap_congr hChunk, ← List.filterMap_flatMap, J.flatMap_count kind,
    filterMap_range_getElem?, rows]

theorem mem_rows {row : Row} : row ∈ J.rows kind ↔ (J.keys kind)[row.id]? = some row.key := by
  rw [rows, List.mem_mapIdx, List.getElem?_eq_some_iff]
  constructor
  · rintro ⟨i, hi, rfl⟩
    exact ⟨hi, rfl⟩
  · rintro ⟨hi, hKey⟩
    exact ⟨row.id, hi, by rw [hKey]⟩

theorem nodup_rows (kind : Kind) : (J.rows kind).Nodup := by
  rw [rows, ← filterMap_range_getElem?]
  refine List.nodup_range.filterMap fun i i' row hRow hRow' => ?_
  obtain ⟨_, _, rfl⟩ := Option.map_eq_some_iff.mp hRow
  obtain ⟨_, _, hEq⟩ := Option.map_eq_some_iff.mp hRow'
  exact (congrArg Row.id hEq).symm

/-- What a right row has in the join. -/
def found (row : Row) : Option (Nat × Nat) :=
  if row.key ∈ J.left then some (row.id, J.left.idxOf row.key) else none

theorem found_eq_some (hNodup : J.left.Nodup) {row : Row} {p : Nat × Nat} :
    J.found row = some p ↔ row.id = p.1 ∧ J.left[p.2]? = some row.key := by
  unfold found
  constructor
  · intro h
    split at h
    · next hIn =>
        obtain rfl := Option.some.inj h
        exact ⟨rfl, List.getElem?_eq_some_iff.mpr ⟨List.idxOf_lt_length_of_mem hIn, by simp⟩⟩
    · exact absurd h (by simp)
  · rintro ⟨hId, hKey⟩
    obtain ⟨hp, hGet⟩ := List.getElem?_eq_some_iff.mp hKey
    rw [if_pos (hGet ▸ List.getElem_mem hp), hId, ← hGet, hNodup.idxOf_getElem]

/-- The answers to the right rows are the join. -/
theorem filterMap_found (hNodup : J.left.Nodup) :
    ((J.rows .probe).filterMap J.found : Multiset (Nat × Nat)) = J.joined.val := by
  refine (Multiset.Nodup.ext ?_ J.joined.nodup).mpr fun p => ?_
  · refine Multiset.coe_nodup.mpr ((J.nodup_rows .probe).filterMap ?_)
    intro row row' p hp hp'
    obtain ⟨hId, hKey⟩ := (J.found_eq_some hNodup).mp hp
    obtain ⟨hId', hKey'⟩ := (J.found_eq_some hNodup).mp hp'
    cases row
    cases row'
    simp_all
  · rw [Multiset.mem_coe, List.mem_filterMap, Finset.mem_val, joined, Finset.mem_filter,
      Finset.mem_product, Finset.mem_range, Finset.mem_range]
    constructor
    · rintro ⟨row, hRow, hFound⟩
      obtain ⟨hId, hKey⟩ := (J.found_eq_some hNodup).mp hFound
      have hRight := J.mem_rows.mp hRow
      rw [hId] at hRight
      exact ⟨⟨(List.getElem?_eq_some_iff.mp hRight).1, (List.getElem?_eq_some_iff.mp hKey).1⟩,
        hRight.trans hKey.symm⟩
    · rintro ⟨⟨hr, hl⟩, hEq⟩
      have hRight : J.right[p.1]? = some (J.right.get ⟨p.1, hr⟩) := List.getElem?_eq_getElem hr
      exact ⟨⟨p.1, _⟩, J.mem_rows.mpr hRight, (J.found_eq_some hNodup).mpr
        ⟨rfl, hEq.symm.trans hRight⟩⟩

/-- Keys that are not the largest one are fewer than there are numbers of 32 bits. -/
theorem length_left_lt (hNodup : J.left.Nodup) (hLeft : maxKey ∉ J.left) :
    J.left.length < 2 ^ 32 := by
  have hSub : (J.left.map UInt32.toNat).toFinset ⊆ Finset.range (2 ^ 32 - 1) := by
    intro k hk
    obtain ⟨key, hKey, rfl⟩ := List.mem_map.mp (List.mem_toFinset.mp hk)
    have hne : key.toNat ≠ maxKey.toNat := by
      intro hEq
      exact hLeft (UInt32.toNat_inj.mp hEq ▸ hKey)
    have hMax : maxKey.toNat = 2 ^ 32 - 1 := rfl
    have hLt := key.toNat_lt
    exact Finset.mem_range.mpr (by omega)
  have hCard := Finset.card_le_card hSub
  rw [List.toFinset_card_of_nodup (hNodup.map fun a b => UInt32.toNat_inj.mp), List.length_map,
    Finset.card_range] at hCard
  omega

end Join

/-! ## The result sets -/

namespace Invariant

variable {J : Join} {s : State} {t : Nat}

/-- The rows done are the rows of the table. -/
theorem sum_processed (h : Invariant J s) (hEven : J.Even) (hSmall : J.Small) {kind : Kind}
    (hZero : s.pendingGlobal kind = 0) :
    ∑ c ∈ Finset.range J.countCores, ∑ t ∈ Finset.range J.countCores,
      (s.processed kind c t : Multiset Row) = J.rows kind := by
  have hChunk : ∀ c ∈ Finset.range J.countCores,
      ∑ t ∈ Finset.range J.countCores, (s.processed kind c t : Multiset Row) =
        J.chunkRows kind c 0 := by
    intro c hc
    rw [← sum_routed (fun row => J.target row.key) (J.chunkRows kind c 0)
      fun row _ => J.target_lt row.key]
    refine Finset.sum_congr rfl fun t ht => ?_
    rw [h.accounted.finished h.barrier hZero (Finset.mem_range.mp hc) (Finset.mem_range.mp ht)]
    rfl
  rw [Finset.sum_congr rfl hChunk, sum_coe_flatMap, J.flatMap_chunkRows hEven hSmall]

/-- A row that is done has the key at its position. -/
theorem mem_rows_of_processed (h : Invariant J s) (hEven : J.Even) (hSmall : J.Small) {kind : Kind}
    {c : Nat} {row : Row} (hc : c < J.countCores) (ht : t < J.countCores)
    (hMem : row ∈ s.processed kind c t) : row ∈ J.rows kind := by
  rw [← J.flatMap_chunkRows hEven hSmall, List.mem_flatMap]
  exact ⟨c, List.mem_range.mpr hc, (J.mem_routedFrom.mp (h.accounted.processed hc ht hMem)).1⟩

/-- What a probe row finds at the end. -/
theorem answer_eq (h : Invariant J s) (hServed : J.Served) (hEven : J.Even)
    (hNodup : J.left.Nodup) (hLeft : maxKey ∉ J.left) (hZero : s.pendingGlobal .build = 0)
    (ht : t < J.countCores) {row : Row} (hKey : row.key ∈ J.right)
    (hTarget : J.target row.key = t) (hMax : row.key ≠ maxKey) :
    answer s t row = J.found row := by
  obtain ⟨m, hm⟩ := h.data.tables t
  obtain ⟨value, hValue⟩ := hm.represents.get_isSome (J.inserted t)
    (fun key hKey => hm.mem_inserted h.accounted ht hKey)
    (h.room hServed .probe ht hKey hTarget)
  have hGet := hm.represents.get hValue hMax
  cases hMap : m row.key with
  | none =>
      have hNot : row.key ∉ J.left := by
        intro hIn
        obtain ⟨c, hc, row', hRow', hSame⟩ := J.exists_mem_chunkRows .build hIn
        refine hm.complete c row' ?_ (by rw [hSame]; exact hMax) (by rw [hSame]; exact hMap)
        rw [h.accounted.finished h.barrier hZero hc ht]
        exact J.mem_routedFrom.mpr ⟨hRow', by rw [hSame]; exact hTarget⟩
      obtain rfl : value = maxValue := by rw [hGet, hMap]; rfl
      simp [answer, hValue, Join.found, hNot]
  | some id =>
      obtain ⟨c, hc, hMem⟩ := hm.sound row.key id hMap
      have hRow := J.mem_rows.mp (h.mem_rows_of_processed hEven hServed.small hc ht hMem)
      have hId : id < J.left.length := (List.getElem?_eq_some_iff.mp hRow).1
      have hLength := J.length_left_lt hNodup hLeft
      have hne : id ≠ maxValue := by
        unfold maxValue
        omega
      obtain rfl : value = id := by rw [hGet, hMap]; rfl
      have hFound : J.found row = some (row.id, value) :=
        (J.found_eq_some hNodup).mpr ⟨rfl, hRow⟩
      rw [answer, hValue, hFound]
      exact if_pos hne

/-- The result sets are the join. -/
theorem sum_results (h : Invariant J s) (hServed : J.Served) (hEven : J.Even)
    (hNodup : J.left.Nodup) (hLeft : maxKey ∉ J.left) (hRight : maxKey ∉ J.right)
    (hZero : ∀ kind, s.pendingGlobal kind = 0) :
    ∑ t ∈ Finset.range J.countCores, ((s.resultSets t).items : Multiset (Nat × Nat)) =
      J.joined.val := by
  have hAnswers : ∀ t ∈ Finset.range J.countCores,
      ((s.resultSets t).items : Multiset (Nat × Nat)) =
        ∑ c ∈ Finset.range J.countCores,
          (s.processed .probe c t : Multiset Row).filterMap J.found := by
    intro t ht
    rw [h.data.results t]
    refine Finset.sum_congr rfl fun c hc => ?_
    rw [Multiset.filterMap_coe]
    refine congrArg _ (List.filterMap_congr fun row hRow => ?_)
    obtain ⟨hChunk, hTarget⟩ := J.mem_routedFrom.mp
      (h.accounted.processed (Finset.mem_range.mp hc) (Finset.mem_range.mp ht) hRow)
    have hKey : row.key ∈ J.right := J.key_of_mem_chunkRows hChunk
    have hMax : row.key ≠ maxKey := by
      intro hEq
      exact hRight (hEq ▸ hKey)
    exact h.answer_eq hServed hEven hNodup hLeft (hZero .build) (Finset.mem_range.mp ht) hKey
      hTarget hMax
  calc ∑ t ∈ Finset.range J.countCores, ((s.resultSets t).items : Multiset (Nat × Nat))
      = ∑ t ∈ Finset.range J.countCores, ∑ c ∈ Finset.range J.countCores,
          (s.processed .probe c t : Multiset Row).filterMap J.found :=
        Finset.sum_congr rfl hAnswers
    _ = ∑ c ∈ Finset.range J.countCores, ∑ t ∈ Finset.range J.countCores,
          (s.processed .probe c t : Multiset Row).filterMap J.found := Finset.sum_comm
    _ = (∑ c ∈ Finset.range J.countCores, ∑ t ∈ Finset.range J.countCores,
          (s.processed .probe c t : Multiset Row)).filterMap J.found := by
        rw [← sum_filterMap]
        exact Finset.sum_congr rfl fun c _ => sum_filterMap _ _ _
    _ = ((J.rows .probe).filterMap J.found : Multiset (Nat × Nat)) := by
        rw [h.sum_processed hEven hServed.small (hZero .probe), Multiset.filterMap_coe]
    _ = J.joined.val := J.filterMap_found hNodup

end Invariant

/-- The chunks are even, no chunk has too many right rows and no table too many slots, a full table
is not asked for a key it does not have, and the result sets have memory when something is found. -/
structure Join.Exact (J : Join) : Prop where
  even : J.Even
  small : ∀ i < J.countCores, J.count .probe i < 2 ^ 32
  made : J.tableBits < 32
  full : ∀ t < J.countCores, (J.inserted t).card = 2 ^ J.tableBits →
    ∀ key ∈ J.right, J.target key = t → key ∈ J.left
  results : 16 * J.countCores ≤ J.right.length ∨ ∀ key ∈ J.right, key ∉ J.left

theorem Join.Exact.served {J : Join} (h : J.Exact) (hNodup : J.left.Nodup)
    (hLeft : maxKey ∉ J.left) (hRight : maxKey ∉ J.right)
    (hRoom : ∀ t < J.countCores, (J.inserted t).card ≤ 2 ^ J.tableBits) : J.Served := by
  refine ⟨fun kind i hi => ?_, h.made, fun t ht => ?_, ?_⟩
  · cases kind with
    | build => exact lt_of_le_of_lt (J.count_le .build i) (J.length_left_lt hNodup hLeft)
    | probe => exact h.small i hi
  · refine (lt_or_eq_of_le (hRoom t ht)).imp id fun hFull => ⟨hFull.le, ?_⟩
    intro kind key hKey hTarget
    have hIn : key ∈ J.left := by
      cases kind with
      | build => exact hKey
      | probe => exact h.full t ht hFull key hKey hTarget
    refine Join.mem_inserted.mpr ⟨hIn, hTarget, ?_⟩
    rintro rfl
    exact hLeft hIn
  · refine h.results.imp (fun hLines => ?_) fun hNone key hKey => ⟨hNone key hKey, ?_⟩
    · have hCores : J.countCores ≤ J.right.length * 4 / 64 := by omega
      have hPos := Nat.div_pos hCores J.pos
      show J.right.length * 4 / 64 / J.countCores * (64 / 4) ≠ 0
      omega
    · rintro rfl
      exact hRight hKey

/-- Every run comes to an end.  Then each row of each table has been dispatched by one
partition task, with its position, to the channel of its key, and the result sets
are the join. -/
theorem join_of_run {J : Join} (hNodup : J.left.Nodup) (hLeft : maxKey ∉ J.left)
    (hRight : maxKey ∉ J.right)
    (hRoom : ∀ t < J.countCores, (J.inserted t).card ≤ 2 ^ J.tableBits) (hExact : J.Exact) :
    Acc (fun s' s => Next J s s') (State.initial J) ∧
      ∀ log s, Run (Step J) (State.initial J) log s → Ended J s →
        (∀ kind, ∑ c ∈ Finset.range J.countCores, ∑ t ∈ Finset.range J.countCores,
          (s.processed kind c t : Multiset Row) = J.rows kind) ∧
        (∀ kind, ∀ c < J.countCores, ∀ t < J.countCores, ∀ row ∈ s.processed kind c t,
          J.target row.key = t) ∧
        ∑ t ∈ Finset.range J.countCores, ((s.resultSets t).items : Multiset (Nat × Nat)) =
          J.joined.val := by
  have hServed := hExact.served hNodup hLeft hRight hRoom
  refine ⟨acc_of_small hServed.small (Barrier.initial J), fun log s hRun hEnd => ?_⟩
  have h := Invariant.run hServed.small hRun
  have hZero := (h.completed hServed hEnd).1
  refine ⟨fun kind => h.sum_processed hExact.even hServed.small (hZero kind), ?_,
    h.sum_results hServed hExact.even hNodup hLeft hRight hZero⟩
  intro kind c hc t ht row hRow
  exact (J.mem_routedFrom.mp (h.accounted.processed hc ht hRow)).2

theorem exact_balanced : balanced.Exact := by
  refine ⟨Or.inr fun kind => ?_, fun i hi => served_balanced.small .probe i hi, by decide,
    fun t ht hFull => absurd hFull (card_inserted_balanced t ht).ne, Or.inl (by decide)⟩
  cases kind <;> decide

theorem join_of_run_balanced :
    balanced.Exact ∧ Acc (fun s' s => Next balanced s s') (State.initial balanced) ∧
      ∀ log s, Run (Step balanced) (State.initial balanced) log s → Ended balanced s →
        (∀ kind, ∑ c ∈ Finset.range 2, ∑ t ∈ Finset.range 2,
          (s.processed kind c t : Multiset Row) = balanced.rows kind) ∧
        (∀ kind, ∀ c < 2, ∀ t < 2, ∀ row ∈ s.processed kind c t, balanced.target row.key = t) ∧
        ∑ t ∈ Finset.range 2, ((s.resultSets t).items : Multiset (Nat × Nat)) =
          balanced.joined.val :=
  ⟨exact_balanced, join_of_run (J := balanced) (by decide +kernel) (by decide +kernel)
    (by decide +kernel) (fun t ht => (card_inserted_balanced t ht).le) exact_balanced⟩

/-- Two cores, and a last chunk of 17 keys behind one of 16. -/
def uneven : Join where
  countCores := 2
  left := (List.range 33).map UInt32.ofNat
  right := (List.range 32).map UInt32.ofNat
  batchSize := 4
  stdHash key := key.toNat
  tableBits := 5
  pos := balanced.pos
  fits := balanced.fits
  table := by decide

theorem card_inserted_uneven : ∀ t < 2, (uneven.inserted t).card < 2 ^ 5 := by
  decide +kernel

theorem served_uneven : uneven.Served := by
  refine ⟨uneven.small_of_length fun kind => ?_, by decide,
    fun t ht => Or.inl (card_inserted_uneven t ht),
    Or.inl (by decide)⟩
  cases kind <;> decide

/-- The keys are distinct and there is room for them, but the last one, at position 32, is carried
with a row id that no row has. -/
theorem uneven_wrong_rowId :
    uneven.left.Nodup ∧ maxKey ∉ uneven.left ∧ maxKey ∉ uneven.right ∧
      (∀ t < 2, (uneven.inserted t).card ≤ 2 ^ uneven.tableBits) ∧
      ∃ log s, Run (Step uneven) (State.initial uneven) log s ∧ Ended uneven s ∧
        ⟨33, 32⟩ ∈ s.processed .build 1 0 ∧ uneven.left[32]? = some 32 ∧
        uneven.left[33]? = none := by
  refine ⟨by decide +kernel, by decide +kernel, by decide +kernel,
    fun t ht => (card_inserted_uneven t ht).le, ?_⟩
  obtain ⟨log, s, hRun, hEnd⟩ := Run.exists_end
    (acc_of_small served_uneven.small (Barrier.initial uneven))
  have h := Invariant.run served_uneven.small hRun
  have hZero := (h.completed served_uneven hEnd).1 .build
  refine ⟨log, s, hRun, hEnd, ?_, by decide +kernel, by decide +kernel⟩
  rw [h.accounted.finished h.barrier hZero (by decide) (by decide)]
  decide +kernel

end MxTasking.HashJoin
