import MxTasking.BLinkTree.Linearizability

/-!
# Absent keys and dead slots

`index(key)` returns the number of live slots when every live key is below `key`.
`InsertValueTask` compares the slot only after it has checked the index against
the size; `UpdateTask` and `LookupTask` compare it right away, so they look at a slot
that is not live.  That slot holds what memory held before the node was created, what a split left
behind or, in a full leaf, the first value.

An absent key is left alone exactly when that slot does not hold it by chance.

## Main results

* `absent_key_iff` — when the leaf steps of updates and lookups of an absent key leave the
  node and the task alone.
* `update_matches_dead_slot` — an update of key 0 in an empty tree over zeroed memory.
-/

namespace MxTasking.BLinkTree

open AbstractTree

variable {K V : Type*} [LinearOrder K] [BoundedOrder K]

/-- Every live key is below `k` and the slot behind them reads as `k`. -/
def Node.DeadMatch (L : Layout K V) (n : Node K V) (k : K) : Prop :=
  (∀ i, i < n.size → n.keys i < k) ∧ n.leafKey L n.size = k

omit [BoundedOrder K] in
/-- For an absent key the slot the search ends at holds the key exactly when it is dead
and matches by chance. -/
theorem Node.Holds.leafKey_index_iff {L : Layout K V} {n : Node K V} {f : K → Option V}
    {k : K} (h : n.Holds f) (hSize : n.size ≤ L.maxItems) (hAbsent : f k = none) :
    n.leafKey L (n.index k) = k ↔ n.DeadMatch L k := by
  have hBound := h.index_isLowerBound k
  constructor
  · intro hKey
    have hEnd : n.index k = n.size := by
      by_contra hne
      have hlt : n.index k < n.size := by have := hBound.le; omega
      rw [Node.leafKey_of_lt (by omega)] at hKey
      exact (h.index_hit k).mp ⟨hlt, hKey⟩ hAbsent
    rw [hEnd] at hKey
    exact ⟨fun i hi => hBound.below i (by omega), hKey⟩
  · rintro ⟨hBelow, hKey⟩
    have hEnd : n.index k = n.size := by
      by_contra hne
      have hlt : n.index k < n.size := by have := hBound.le; omega
      exact absurd (hBelow _ hlt) (not_lt.mpr (hBound.above _ (le_refl _) hlt))
    rw [hEnd]
    exact hKey

section Leaf

variable {L : Layout K V} {t : Tree K V} {task : Task K V} {p : Nat} {key : K} (coreId : Nat)

/-- The leaf step of an update leaves the tree alone and reports a missing key exactly when
the slot the search ends at holds another one. -/
theorem updateExecute_missing_iff {value : V} (hle : ¬ (t.nodes p).highKey ≤ key)
    (hInner : ¬ (t.nodes p).isInner = true) (hReads : ¬ task.isReadonly = true)
    (hBody : task.body = .update key value) :
    ((updateExecute L coreId t task key value p).tree = t ∧
      ∃ k, (updateExecute L coreId t task key value p).allCalls = [.missing coreId k]) ↔
        (t.nodes p).leafKey L ((t.nodes p).index key) ≠ key := by
  unfold updateExecute
  rw [if_neg hle, if_neg hInner, if_neg (by simpa using fun _ => hReads)]
  by_cases hSlot : (t.nodes p).leafKey L ((t.nodes p).index key) = key
  · simp [hSlot, Execution.allCalls, TaskResult.makeRemove, hBody, TaskBody.destructor]
  · simp [hSlot, Execution.allCalls, TaskResult.makeRemove, hBody, TaskBody.destructor]

omit [BoundedOrder K] in
/-- The leaf step of a lookup keeps whatever the task has as its value exactly when the slot
the search ends at holds another key. -/
theorem lookupExecute_untouched_iff [Nontrivial V] (this : V → Task K V)
    (hle : ¬ (t.nodes p).highKey ≤ key) (hInner : ¬ (t.nodes p).isInner = true) :
    (∀ found, (lookupExecute L coreId t (this found) key found p).this.body =
      .lookup key found coreId) ↔ (t.nodes p).leafKey L ((t.nodes p).index key) ≠ key := by
  unfold lookupExecute
  simp only [if_neg hle, if_neg hInner]
  by_cases hSlot : (t.nodes p).leafKey L ((t.nodes p).index key) = key
  · obtain ⟨found, hFound⟩ := exists_ne ((t.nodes p).values ((t.nodes p).index key))
    simp only [if_pos hSlot]
    refine iff_of_false (fun hAll => hFound ?_) (fun h => h hSlot)
    simpa using (hAll found).symm
  · simp [hSlot]

end Leaf

/-- The execution of `task` leaves an absent key alone: an update changes nothing and
reports a missing key, a lookup keeps the value it came with, whatever that is. -/
def Task.LeavesAlone [Zero V] (L : Layout K V) (coreId : Nat) (t : Tree K V)
    (task : Task K V) : Prop :=
  (∀ key value, task.body = .update key value → ∀ ex, task.execute L coreId t = some ex →
    ex.tree = t ∧ ∃ k, ex.allCalls = [.missing coreId k]) ∧
  (∀ key value core, task.body = .lookup key value core → ∀ found ex,
    ({ task with body := .lookup key found core } : Task K V).execute L coreId t = some ex →
      ex.this.body = .lookup key found coreId)

section Absent

variable [Zero V] {L : Layout K V} {t : Tree K V} {task : Task K V} {p : Nat} {key : K}
  (coreId : Nat)

theorem Task.leavesAlone_update_iff {value : V} (hBody : task.body = .update key value)
    (hAnn : task.annotatedResource = some p) :
    task.LeavesAlone L coreId t ↔
      (updateExecute L coreId t task key value p).tree = t ∧
        ∃ k, (updateExecute L coreId t task key value p).allCalls = [.missing coreId k] := by
  have hEx : task.execute L coreId t = some (updateExecute L coreId t task key value p) := by
    unfold Task.execute
    rw [hAnn, hBody]
  constructor
  · exact fun h => h.1 key value hBody _ hEx
  · intro h
    refine ⟨fun _ _ _ ex hEx' => ?_, fun _ _ _ hLookup => ?_⟩
    · rw [hEx, Option.some.injEq] at hEx'
      exact hEx' ▸ h
    · rw [hBody] at hLookup
      exact absurd hLookup (by simp)

theorem Task.leavesAlone_lookup_iff {value : V} {core : Nat}
    (hBody : task.body = .lookup key value core) (hAnn : task.annotatedResource = some p) :
    task.LeavesAlone L coreId t ↔
      ∀ found, (lookupExecute L coreId t { task with body := .lookup key found core } key found
        p).this.body = .lookup key found coreId := by
  have hEx : ∀ found, ({ task with body := .lookup key found core } : Task K V).execute L
      coreId t = some (lookupExecute L coreId t { task with body := .lookup key found core }
        key found p) := by
    intro found
    unfold Task.execute
    rw [hAnn]
  constructor
  · exact fun h found => h.2 key value core hBody found _ (hEx found)
  · intro h
    refine ⟨fun _ _ hUpdate => ?_, fun key' _ core' hLookup found ex hEx' => ?_⟩
    · rw [hBody] at hUpdate
      exact absurd hUpdate (by simp)
    · obtain ⟨rfl, _, rfl⟩ : key = key' ∧ _ ∧ core = core' := by simpa [hBody] using hLookup
      rw [hEx found, Option.some.injEq] at hEx'
      exact hEx' ▸ h found

end Absent

/-- Updates and lookups of an absent key.  On its leaf step such a task leaves the
key alone exactly when its leaf has a live key above the key or the first slot that is not live
does not hold it. -/
theorem absent_key_iff [Nontrivial K] [Zero V] [Nontrivial V] (L : Layout K V)
    (memory : Nat → Node K V) (log : List (Event K V)) (s : State K V)
    (hRun : Verified.Run (BoundedStep L) (State.initial memory) log s) (task : Task K V)
    (hMem : task ∈ s.tasks)
    (hOp : (∃ key value, task.leafStep s.tree = some (.update key value)) ∨
      ∃ key, task.leafStep s.tree = some (.lookup key))
    (hAbsent : mapAfter log task.body.key = none) (coreId : Nat) :
    ∃ p, task.annotatedResource = some p ∧
      (task.LeavesAlone L coreId s.tree ↔
        ¬ (s.tree.nodes p).DeadMatch L task.body.key) := by
  obtain ⟨a, hInv, hContains⟩ := Inv.run hRun
  obtain ⟨op, hLeaf, hKind⟩ : ∃ op, task.leafStep s.tree = some op ∧
      ∀ key value, op ≠ .insert key value := by
    rcases hOp with ⟨key, value, hOp⟩ | ⟨key, hOp⟩
    · exact ⟨_, hOp, by simp⟩
    · exact ⟨_, hOp, by simp⟩
  obtain ⟨p, hAnn, hle, hInner, hMode, hMap⟩ := leafStep_inv hLeaf
  obtain ⟨_, _, f, hHolds, hSize, hf⟩ := (hInv.tasks task hMem).leafStep_owner hInv.rep
    hInv.valid hContains hAnn hLeaf
  refine ⟨p, hAnn, ?_⟩
  rw [← hHolds.leafKey_index_iff hSize (hf.trans hAbsent)]
  cases hBody : task.body with
  | insertValue key value =>
      rw [hBody] at hMap
      exact absurd (Option.some.inj hMap).symm (hKind key value)
  | insertSeparator key separator =>
      rw [hBody] at hMap
      exact absurd hMap (by simp [TaskBody.mapOp])
  | lookup key value core =>
      rw [hBody] at hle
      rw [Task.leavesAlone_lookup_iff coreId hBody hAnn]
      exact lookupExecute_untouched_iff coreId _ hle hInner
  | update key value =>
      rw [hBody] at hle hMode
      rw [Task.leavesAlone_update_iff coreId hBody hAnn]
      exact updateExecute_missing_iff coreId hle hInner (fun hReads => hMode ⟨rfl, hReads⟩) hBody

/-- The empty tree over zeroed memory with an update of `k` in flight. -/
def updateInFlight (k : Fin (2 ^ 64)) : State (Fin (2 ^ 64)) (BitVec 64) :=
  ⟨Tree.construct zeroMemory, ⟨.update k 7, some 0, false⟩ ::ₘ 0⟩

theorem run_updateInFlight {k : Fin (2 ^ 64)} (hk : k < ⊤) :
    Verified.Run (BoundedStep Layout.benchmark) (State.initial zeroMemory)
      [.spawn (.update k 7)] (updateInFlight k) :=
  Verified.Run.single (BoundedStep.spawn (State.initial zeroMemory) (.update k 7) trivial hk false)

/-- The first slot holds key 0, so the leaf step of an update of key 5 leaves the tree
alone. -/
theorem absent_key_iff_five :
    (⟨.update 5 7, some 0, false⟩ : Task (Fin (2 ^ 64)) (BitVec 64)).LeavesAlone
      Layout.benchmark 0 (updateInFlight 5).tree := by
  have : Nontrivial (BitVec 64) := ⟨0, 1, by decide⟩
  obtain ⟨p, hAnn, hIff⟩ := absent_key_iff Layout.benchmark zeroMemory _ _
    (run_updateInFlight (k := 5) (by decide)) ⟨.update 5 7, some 0, false⟩
    (Multiset.mem_cons_self _ 0) (Or.inl ⟨5, 7, by decide⟩) (by decide) 0
  obtain rfl : 0 = p := by simpa using hAnn
  exact hIff.mpr (fun hDead => absurd hDead.2 (by decide))

/-- An update of key 0 in the empty tree over zeroed memory matches the dead slot: it
reports an update of a key that is not there. -/
theorem update_matches_dead_slot :
    ¬ ∀ (memory : Nat → Node (Fin (2 ^ 64)) (BitVec 64)) log s,
      Verified.Run (BoundedStep Layout.benchmark) (State.initial memory) log s →
      ∀ task ∈ s.tasks, ∀ key value, task.leafStep s.tree = some (.update key value) →
        mapAfter log key = none → task.LeavesAlone Layout.benchmark 0 s.tree := by
  intro hAll
  have hAlone := hAll zeroMemory _ _ (run_updateInFlight (k := 0) (by decide))
    ⟨.update 0 7, some 0, false⟩ (Multiset.mem_cons_self _ 0) 0 7 (by decide) (by decide)
  rw [Task.leavesAlone_update_iff 0 rfl rfl] at hAlone
  obtain ⟨_, k, hCalls⟩ := hAlone
  have hUpdated : (updateExecute Layout.benchmark 0 (updateInFlight 0).tree
      ⟨.update 0 7, some 0, false⟩ 0 7 0).allCalls = [.updated 0 0 7] := by decide
  rw [hUpdated] at hCalls
  exact absurd hCalls (by simp)

end MxTasking.BLinkTree
