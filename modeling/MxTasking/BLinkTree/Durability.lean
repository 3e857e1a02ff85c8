import MxTasking.BLinkTree.Requests

/-!
# What becomes of the records

Requests are numbered, and the map of the tree is compared with them.  An insert that was reported
has left its key in the tree, and it stays there: nothing removes a record.  What is in the
tree was asked for: a key by an insert, and a value by an insert or an update of its key.

An insert stores its record when it is on its leaf and is reported when the separators of the
splits are in place, so a record can be there before its insert is reported.

## Main results

* `Durable.step` — what a step makes of the records.
* `durable_of_run` — the records in every state of every run.
-/

namespace MxTasking.BLinkTree

open AbstractTree

variable {K V : Type*} [LinearOrder K] [BoundedOrder K]

/-- The map and the requests: the key of an insert is stored or its task has yet to store it, and
every record was asked for. -/
structure Durable (s : TracedState K V) : Prop where
  stored : ∀ (r : Nat) (key : K) (value : V), s.requests[r]? = some (.insertValue key value) →
    (∃ task, (r, task) ∈ s.tasks ∧ task.body = .insertValue key value) ∨ s.map key ≠ none
  inserted : ∀ key, s.map key ≠ none →
    ∃ (r : Nat) (value : V), s.requests[r]? = some (.insertValue key value)
  written : ∀ key value, s.map key = some value →
    ∃ r : Nat, s.requests[r]? = some (.insertValue key value) ∨
      s.requests[r]? = some (.update key value)

section Steps

variable {L : Layout K V} {s s' : TracedState K V} {a : AbstractTree K V} {r coreId : Nat}
  {task : Task K V} {rest : Multiset (Nat × Task K V)} {ex : Execution K V} {key : K} {value : V}

omit [BoundedOrder K] in
/-- A map operation takes no key out of the map. -/
theorem MapOp.apply_ne_none {m : K → Option V} (op : MapOp K V) (h : m key ≠ none) :
    op.apply m key ≠ none := by
  cases op with
  | insert k v =>
      simp only [MapOp.apply]
      split
      · by_cases hEq : key = k
        · rw [hEq, Function.update_self]
          exact Option.some_ne_none v
        · rwa [Function.update_of_ne hEq]
      · exact h
  | lookup k => exact h
  | update k v =>
      simp only [MapOp.apply]
      split
      · exact h
      · by_cases hEq : key = k
        · rw [hEq, Function.update_self]
          exact Option.some_ne_none v
        · rwa [Function.update_of_ne hEq]

omit [BoundedOrder K] in
/-- What is in the map after an operation was there before, or the operation wrote it; an update
writes to a key that is there. -/
theorem MapOp.apply_eq_some {m : K → Option V} {op : MapOp K V} (h : op.apply m key = some value) :
    m key = some value ∨ op = .insert key value ∨ op = .update key value ∧ m key ≠ none := by
  cases op with
  | insert k v =>
      simp only [MapOp.apply] at h
      split at h
      · by_cases hEq : key = k
        · subst hEq
          rw [Function.update_self, Option.some.injEq] at h
          exact Or.inr (Or.inl (by rw [h]))
        · rw [Function.update_of_ne hEq] at h
          exact Or.inl h
      · exact Or.inl h
  | lookup k => exact Or.inl h
  | update k v =>
      simp only [MapOp.apply] at h
      split at h
      · exact Or.inl h
      · rename_i hSome
        by_cases hEq : key = k
        · subst hEq
          rw [Function.update_self, Option.some.injEq] at h
          exact Or.inr (Or.inr ⟨by rw [h], hSome⟩)
        · rw [Function.update_of_ne hEq] at h
          exact Or.inl h

omit [BoundedOrder K] in
/-- The map after an execution has all keys it had. -/
theorem after_map_ne_none (h : s.map key ≠ none) : (s.after r task rest ex).map key ≠ none := by
  show (task.leafStep s.tree).elim s.map (MapOp.apply s.map) key ≠ none
  cases task.leafStep s.tree with
  | none => exact h
  | some op => exact op.apply_ne_none h

/-- A record after an execution was there before, or the request of the task asks for it. -/
theorem TracedInv.after_map_eq_some (h : TracedInv L s a) (hIn : (r, task) ∈ s.tasks)
    (hMap : (s.after r task rest ex).map key = some value) :
    s.map key = some value ∨ s.requests[r]? = some (.insertValue key value) ∨
      s.requests[r]? = some (.update key value) ∧ s.map key ≠ none := by
  have hMap' : (task.leafStep s.tree).elim s.map (MapOp.apply s.map) key = some value := hMap
  obtain ⟨request, hRequest, hServed⟩ := h.served r task hIn
  have hOwn : ∀ op, task.body.mapOp = some op → request = task.body := by
    intro op hOp
    rcases hServed with hEq | ⟨_, _, _, _, _, hBody⟩
    · exact hEq.symm
    · rw [hBody] at hOp
      exact absurd hOp (by simp [TaskBody.mapOp])
  cases hStep : task.leafStep s.tree with
  | none =>
      rw [hStep] at hMap'
      exact Or.inl hMap'
  | some op =>
      obtain ⟨_, _, _, _, _, hOp⟩ := leafStep_inv hStep
      rw [hStep, Option.elim_some] at hMap'
      rw [hRequest, hOwn op hOp]
      rcases MapOp.apply_eq_some hMap' with hOld | rfl | ⟨rfl, hSome⟩
      · exact Or.inl hOld
      · cases hBody : task.body <;> simp_all [TaskBody.mapOp]
      · cases hBody : task.body <;> simp_all [TaskBody.mapOp]

/-- No task works for a request that was reported. -/
theorem TracedInv.not_mem_of_called (h : TracedInv L s a) (hCalls : s.calls r = 1)
    (task : Task K V) : (r, task) ∉ s.tasks := by
  intro hIn
  have hCount : 0 < (s.tasks.map Prod.fst).count r :=
    Multiset.count_pos.mpr (Multiset.mem_map_of_mem Prod.fst hIn)
  have hBalance : (s.tasks.map Prod.fst).count r + s.calls r =
      if r < s.requests.length then 1 else 0 := h.balance r
  split at hBalance <;> omega

theorem Durable.initial (memory : Nat → Node K V) : Durable (TracedState.initial memory) :=
  { stored := fun r key value h => absurd h (by simp [TracedState.initial])
    inserted := fun key h => absurd rfl h
    written := fun key value h => absurd h (by simp [TracedState.initial]) }

omit [LinearOrder K] [BoundedOrder K] in
theorem Durable.spawn (h : Durable s) (request : TaskBody K V) (isReadonly : Bool) :
    Durable ({ s with
      tasks := (s.requests.length, ⟨request, s.tree.root, isReadonly⟩) ::ₘ s.tasks
      requests := s.requests ++ [request] } : TracedState K V) := by
  have hOld : ∀ r request', s.requests[r]? = some request' →
      (s.requests ++ [request])[r]? = some request' := fun r request' hr => by
    rw [List.getElem?_append_left (List.getElem?_eq_some_iff.mp hr).1]
    exact hr
  refine ⟨fun r key value hr => ?_, fun key hKey => ?_, fun key value hValue => ?_⟩
  · by_cases hNew : r < s.requests.length
    · rw [List.getElem?_append_left hNew] at hr
      rcases h.stored r key value hr with ⟨task, hIn, hBody⟩ | hMap
      · exact Or.inl ⟨task, Multiset.mem_cons_of_mem hIn, hBody⟩
      · exact Or.inr hMap
    · obtain rfl : r = s.requests.length := by
        have hLt := (List.getElem?_eq_some_iff.mp hr).1
        rw [List.length_append, List.length_singleton] at hLt
        omega
      rw [List.getElem?_concat_length, Option.some.injEq] at hr
      exact Or.inl ⟨_, Multiset.mem_cons_self _ _, hr⟩
  · obtain ⟨r, value, hr⟩ := h.inserted key hKey
    exact ⟨r, value, hOld r _ hr⟩
  · obtain ⟨r, hr⟩ := h.written key value hValue
    exact ⟨r, hr.imp (hOld r _) (hOld r _)⟩

variable [Zero V]

/-- An insert that has not come to its leaf goes on as it is. -/
theorem insertValue_goes_on (hEx : task.execute L coreId s.tree = some ex)
    (hBody : task.body = .insertValue key value) (hNone : task.leafStep s.tree = none) :
    ∃ next, ex.result.successor = some next ∧ next.body = task.body := by
  obtain ⟨p, hAnn⟩ : ∃ p, task.annotatedResource = some p := by
    cases hAnn : task.annotatedResource with
    | none => simp [Task.execute, hAnn] at hEx
    | some p => exact ⟨p, rfl⟩
  have hKey : task.body.key = key := by rw [hBody]; rfl
  unfold Task.execute at hEx
  rw [hAnn, hBody] at hEx
  simp only [Option.some.injEq] at hEx
  subst hEx
  unfold insertValueExecute
  by_cases hle : (s.tree.nodes p).highKey ≤ key
  · rw [if_pos hle]
    exact ⟨_, rfl, rfl⟩
  by_cases hInner : (s.tree.nodes p).isInner = true
  · rw [if_neg hle, if_pos hInner]
    exact ⟨_, rfl, rfl⟩
  by_cases hReads : task.isReadonly = true
  · rw [if_neg hle, if_neg hInner, if_pos (by simp [Node.isLeaf_of_not_isInner hInner, hReads])]
    exact ⟨_, rfl, rfl⟩
  · rw [leafStep_of_leaf hAnn (by rw [hKey]; exact hle) hInner fun h => hReads h.2, hBody] at hNone
    exact absurd hNone (Option.some_ne_none _)

theorem Durable.execute (h : Durable s) (hInv : TracedInv L s a)
    (hTasks : s.tasks = (r, task) ::ₘ rest) (hEx : task.execute L coreId s.tree = some ex) :
    Durable (s.after r task rest ex) := by
  have hIn : (r, task) ∈ s.tasks := by rw [hTasks]; exact Multiset.mem_cons_self _ _
  refine ⟨fun r' key value hr => ?_, fun key hKey => ?_, fun key value hValue => ?_⟩
  · rcases h.stored r' key value hr with ⟨task', hIn', hBody⟩ | hMap
    swap
    · exact Or.inr (after_map_ne_none hMap)
    rw [hTasks, Multiset.mem_cons] at hIn'
    rcases hIn' with hEq | hOther
    swap
    · exact Or.inl ⟨task', mem_after.mpr (Or.inr hOther), hBody⟩
    obtain ⟨rfl, rfl⟩ := Prod.mk.inj hEq
    -- the task of this insert: it goes on, or it is on its leaf
    cases hStep : task'.leafStep s.tree with
    | none =>
        obtain ⟨next, hNext, hSame⟩ := insertValue_goes_on hEx hBody hStep
        exact Or.inl ⟨next, mem_after.mpr (Or.inl ⟨rfl, hNext⟩), hSame.trans hBody⟩
    | some op =>
        right
        obtain ⟨_, _, _, _, _, hOp⟩ := leafStep_inv hStep
        obtain rfl : MapOp.insert key value = op := by simpa [hBody, TaskBody.mapOp] using hOp
        show (task'.leafStep s.tree).elim s.map (MapOp.apply s.map) key ≠ none
        rw [hStep, Option.elim_some, MapOp.apply]
        split
        · rw [Function.update_self]
          exact Option.some_ne_none value
        · assumption
  · obtain ⟨value, hValue⟩ := Option.ne_none_iff_exists'.mp hKey
    rcases hInv.after_map_eq_some hIn hValue with hOld | hInsert | ⟨_, hOld⟩
    · exact h.inserted key (by rw [hOld]; exact Option.some_ne_none value)
    · exact ⟨r, value, hInsert⟩
    · exact h.inserted key hOld
  · rcases hInv.after_map_eq_some hIn hValue with hOld | hInsert | ⟨hUpdate, _⟩
    · exact h.written key value hOld
    · exact ⟨r, Or.inl hInsert⟩
    · exact ⟨r, Or.inr hUpdate⟩

theorem Durable.step {e : TracedEvent K V} (h : Durable s) (hInv : TracedInv L s a)
    (hStep : TracedStep L s e s') : Durable s' := by
  cases hStep with
  | spawn request isReadonly _ => exact h.spawn request isReadonly
  | execute coreId hTasks hEx => exact h.execute hInv hTasks hEx

theorem Durable.run [Nontrivial K] {memory : Nat → Node K V} {log : List (TracedEvent K V)}
    (hRun : Verified.Run (TracedStep L) (TracedState.initial memory) log s) : Durable s := by
  refine (hRun.invariant (P := fun s => (∃ a, TracedInv L s a) ∧ Durable s) ?_ ?_).2
  · exact ⟨TracedInv.run Verified.Run.nil, Durable.initial memory⟩
  · rintro e mid fin ⟨⟨a, hInv⟩, hDurable⟩ hStep
    exact ⟨hInv.step hStep, hDurable.step hInv hStep⟩

/-- Keys stay. -/
theorem map_ne_none_of_run {log : List (TracedEvent K V)}
    (hRun : Verified.Run (TracedStep L) s log s') (h : s.map key ≠ none) : s'.map key ≠ none := by
  refine hRun.invariant (P := fun s' => s'.map key ≠ none) h ?_
  intro e mid fin hMid hStep
  cases hStep with
  | spawn request isReadonly _ => exact hMid
  | execute coreId hTasks hEx => exact after_map_ne_none hMid

end Steps

section Runs

variable [Nontrivial K] [Zero V] (L : Layout K V) (memory : Nat → Node K V)
  (log : List (TracedEvent K V)) (s : TracedState K V)

theorem stores_of_run {L : Layout K V} {memory : Nat → Node K V} {log : List (TracedEvent K V)}
    {s : TracedState K V} (hRun : Verified.Run (TracedStep L) (TracedState.initial memory) log s)
    (key : K) (value : V) : s.tree.Stores key value ↔ s.map key = some value := by
  obtain ⟨a, h⟩ := TracedInv.run hRun
  have hRep : Rep L s.tree a := h.inv.rep
  rw [hRep.stores_iff h.inv.valid, h.contains key value]

/-- In every state of every run: the key of an insert that was reported is in a leaf, now and in
every later state; and every record in a leaf has a key that an insert asked for and a value that
an insert or an update of this key asked for. -/
theorem durable_of_run
    (hRun : Verified.Run (TracedStep L) (TracedState.initial memory) log s) :
    (∀ (r : Nat) (key : K) (value : V), s.requests[r]? = some (.insertValue key value) →
      s.calls r = 1 → ∀ log' s', Verified.Run (TracedStep L) s log' s' →
        ∃ found, s'.tree.Stores key found) ∧
    ∀ key value, s.tree.Stores key value →
      (∃ (r : Nat) (other : V), s.requests[r]? = some (.insertValue key other)) ∧
      ∃ r : Nat, s.requests[r]? = some (.insertValue key value) ∨
        s.requests[r]? = some (.update key value) := by
  have hDurable := Durable.run hRun
  refine ⟨fun r key value hr hCalls log' s' hRun' => ?_, fun key value hStores => ?_⟩
  · obtain ⟨a, hInv⟩ := TracedInv.run hRun
    have hMap : s.map key ≠ none := by
      rcases hDurable.stored r key value hr with ⟨task, hIn, _⟩ | hMap
      · exact absurd hIn (hInv.not_mem_of_called hCalls task)
      · exact hMap
    obtain ⟨found, hFound⟩ := Option.ne_none_iff_exists'.mp (map_ne_none_of_run hRun' hMap)
    exact ⟨found, (stores_of_run (hRun.append hRun') key found).mpr hFound⟩
  · have hMap := (stores_of_run hRun key value).mp hStores
    exact ⟨hDurable.inserted key (by rw [hMap]; exact Option.some_ne_none value),
      hDurable.written key value hMap⟩

/-- A run that spawns one insert and executes it; the insert is reported. -/
theorem run_one_traced_insert :
    ∃ log s, Verified.Run (TracedStep Layout.benchmark) (TracedState.initial zeroMemory) log s ∧
      log.length = 2 ∧ s.requests = [.insertValue 5 7] ∧ s.calls 0 = 1 := by
  have hSpawn := TracedStep.spawn (L := Layout.benchmark) (s := TracedState.initial zeroMemory)
    (.insertValue 5 7) false trivial
  have hExecute := TracedStep.execute (L := Layout.benchmark)
    (s := { TracedState.initial zeroMemory with
      tasks := (0, ⟨.insertValue 5 7, some 0, false⟩) ::ₘ 0
      requests := [.insertValue 5 7] })
    0 (show _ = (0, ⟨.insertValue 5 7, some 0, false⟩) ::ₘ 0 from rfl) rfl
  exact ⟨_, _, (Verified.Run.single hSpawn).snoc hExecute, rfl, rfl, rfl⟩

/-- The key of one insert is there. -/
theorem durable_of_run_insert :
    ∃ log s, Verified.Run (TracedStep Layout.benchmark) (TracedState.initial zeroMemory) log s ∧
      log.length = 2 ∧ ∃ found, s.tree.Stores 5 found := by
  obtain ⟨log, s, hRun, hLength, hRequests, hCalls⟩ := run_one_traced_insert
  exact ⟨log, s, hRun, hLength, (durable_of_run _ _ _ _ hRun).1 0 5 7
    (by rw [hRequests]; rfl) hCalls _ _ Verified.Run.nil⟩

end Runs

end MxTasking.BLinkTree
