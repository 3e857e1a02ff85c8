import MxTasking.BLinkTree.Requests

/-!
# What the listener is told

Callers count completions; whether a completion also names its request is another matter.
`InsertValueTask` reports its own key and value.  The other three calls do so only when things
go well: an `InsertSeparatorTask` reports its separator key and the value zero, an `UpdateTask`
that finds another key reports that key as missing, and the destructor of a `LookupTask` calls
`found` also when the leaf did not have the key.

## Main results

* `completions_describe` — when every execution that completes a request is answerable
  (`Answerable`), every completion describes its request; an execution that is not
  makes one that does not.
-/

namespace MxTasking.BLinkTree

open AbstractTree

variable {K V : Type*} [LinearOrder K] [BoundedOrder K]

/-- The completion names the request and says what the map had at that moment. -/
def Completion.Describes (c : Completion K V) : TaskBody K V → Prop
  | .insertValue key value => ∃ coreId, c.call = .inserted coreId key value
  | .lookup key _ _ => ∃ coreId,
      c.call = (c.map key).elim (.missing coreId key) (.found coreId key)
  | .update key value => ∃ coreId,
      c.call = if c.map key = none then .missing coreId key else .updated coreId key value
  | .insertSeparator _ _ => False

/-- Every completion describes the request it was made for. -/
def TracedState.AllDescribed (s : TracedState K V) : Prop :=
  ∀ c ∈ s.completions, ∃ request, s.requests[c.request]? = some request ∧ c.Describes request

/-- The node has room for one more separator or is the root: a separator task with this
`key` ends here. -/
def Task.EndsAt (L : Layout K V) (t : Tree K V) (task : Task K V) (key : K) : Prop :=
  ∃ p, task.annotatedResource = some p ∧ ¬ (t.nodes p).highKey ≤ key ∧
    ((t.nodes p).full L = false ∨ (t.nodes p).parent = none)

/-- A lookup and an update take their leaf step on a key that is there; a separator task ends
with the key of its insert, and the value of the insert is zero. -/
def Answerable [Zero V] (L : Layout K V) (s : TracedState K V) : TracedEvent K V → Prop
  | .spawn _ => True
  | .execute request _ task =>
      match task.body with
      | .insertValue _ _ => True
      | .lookup key _ _ => task.leafStep s.tree ≠ none → s.map key ≠ none
      | .update key _ => task.leafStep s.tree ≠ none → s.map key ≠ none
      | .insertSeparator key _ =>
          task.EndsAt L s.tree key → s.requests[request]? = some (.insertValue key 0)

section Step

variable {L : Layout K V} {s s' : TracedState K V} {a : AbstractTree K V}
  {r coreId : Nat} {task : Task K V} {rest : Multiset (Nat × Task K V)} {ex : Execution K V}
  {call : ListenerCall K V} {key : K}

/-- A task in flight with a key below the maximum stands where it should. -/
theorem TracedInv.ok (h : TracedInv L s a) (hIn : (r, task) ∈ s.tasks)
    (hKey : task.body.key < ⊤) :
    TaskOK a task ∧ ∀ q, task.carried = some q → a.Unposted q := by
  have hMem : task ∈ s.forget.tasks := mem_forget.mpr ⟨⟨r, hIn⟩, hKey⟩
  exact ⟨h.inv.tasks task hMem, fun q hq =>
    (h.inv.carried q).mp ((Multiset.mem_filterMap _ _).mpr ⟨task, hMem, hq⟩)⟩

/-- On its leaf step a lookup or an update finds on its leaf what the map has. -/
theorem TracedInv.holds_of_leafStep (h : TracedInv L s a) (hTask : TaskOK a task) {op : MapOp K V}
    (hOp : task.leafStep s.tree = some op) :
    ∃ p f, task.annotatedResource = some p ∧
      ¬ (s.tree.nodes p).highKey ≤ task.body.key ∧ ¬ (s.tree.nodes p).isInner = true ∧
      ¬ (task.body.writes = true ∧ task.isReadonly = true) ∧
      (s.tree.nodes p).Holds f ∧ (s.tree.nodes p).size ≤ L.maxItems ∧
      f task.body.key = s.map task.body.key := by
  obtain ⟨p, hAnn, hle, hInner, hMode, _⟩ := leafStep_inv hOp
  obtain ⟨_, _, f, hHolds, hSize, hf⟩ :=
    hTask.leafStep_owner h.inv.rep h.inv.valid h.contains hAnn hOp
  exact ⟨p, f, hAnn, hle, hInner, hMode, hHolds, hSize, hf⟩

variable [Zero V]

/-- Where a separator task ends. -/
theorem insertSeparatorExecute_ends (coreId : Nat) {t : Tree K V} {separator : Ptr} {p : Nat}
    (hRep : Rep L t a) (hValid : a.Valid) (hTask : TaskOK a task)
    (hBody : task.body = .insertSeparator key separator)
    (hAnn : task.annotatedResource = some p)
    (hUnposted : ∀ q, task.carried = some q → a.Unposted q) :
    (insertSeparatorExecute L coreId t task key separator p).result.successor = none ↔
      task.EndsAt L t key := by
  have hEnds : task.EndsAt L t key ↔ ¬ (t.nodes p).highKey ≤ key ∧
      ((t.nodes p).full L = false ∨ (t.nodes p).parent = none) := by
    simp [Task.EndsAt, hAnn]
  rw [hEnds]
  unfold insertSeparatorExecute
  by_cases hle : (t.nodes p).highKey ≤ key
  · simp [hle, TaskResult.makeSucceed]
  obtain ⟨_, q, _, rfl, _⟩ := hTask.separator key separator hBody
  have hFits := hTask.fits hRep hBody hAnn hle
  have hNode := hRep.nodes p hFits.lt
  have hPos : 0 < (a.nodes p).level := by have := hFits.level_eq; omega
  simp only [hle, not_false_eq_true, true_and]
  by_cases hFull : (t.nodes p).full L = false
  · simp [hFull, TaskResult.makeRemove]
  have hNotPosted := (hUnposted q (by simp [Task.carried, hBody])).2.2
  obtain ⟨t', m, hRet, _, _, _, hRep'⟩ := hRep.splitInner hValid hFits hNotPosted
    ((hNode.full_inner hPos).2 (by simpa using hFull))
  -- the split leaves the parent of the node as it is
  have hParent : (t'.nodes p).parent = (t.nodes p).parent := by
    rw [(hRep'.nodes p (Nat.lt_succ_of_lt hFits.lt)).parent, split_parent_self,
      attach_parent_of_ne (Ne.symm hFits.ne), hNode.parent]
  rw [if_neg hFull, hRet]
  simp only [hParent]
  cases hCase : (t.nodes p).parent with
  | none => simp [TaskResult.makeRemove]
  | some parent => simp [TaskResult.makeSucceed, hFull]

/-- A task that makes its last call has a key below the maximum. -/
theorem key_lt_of_ends (hEx : task.execute L coreId s.tree = some ex)
    (hSucc : ex.result.successor = none) : task.body.key < ⊤ := by
  by_contra hNot
  obtain ⟨_, _, rfl⟩ := execute_top hEx (not_lt_top_iff.mp hNot)
  exact absurd hSucc (by simp [TaskResult.makeSucceed])

/-- The execution on the annotated node. -/
theorem execute_eq {t : Tree K V} {p : Nat} (hEx : task.execute L coreId t = some ex)
    (hAnn : task.annotatedResource = some p) :
    ex = match task.body with
      | .insertValue key value => insertValueExecute L coreId t task key value p
      | .insertSeparator key separator =>
          insertSeparatorExecute L coreId t task key separator p
      | .lookup key value _ => lookupExecute L coreId t task key value p
      | .update key value => updateExecute L coreId t task key value p := by
  unfold Task.execute at hEx
  rw [hAnn] at hEx
  exact (Option.some.inj hEx).symm

/-- The last call of a lookup. -/
theorem TracedInv.describes_lookup {value : V} {core : Nat} (h : TracedInv L s a)
    (hTask : TaskOK a task) (hBody : task.body = .lookup key value core)
    (hEx : task.execute L coreId s.tree = some ex) (hCalls : ex.allCalls = [call])
    (hReports : task.body.Reports coreId call)
    (hLeafStep : task.leafStep s.tree = task.body.mapOp) :
    Completion.Describes ⟨r, call, s.map⟩ (.lookup key value core) ↔ s.map key ≠ none := by
  rw [hBody] at hReports hLeafStep
  obtain ⟨found, rfl⟩ := hReports
  unfold Completion.Describes
  cases hMap : s.map key with
  | none => simp [hMap]
  | some v =>
      obtain ⟨p, f, hAnn, hle, hInner, _, hHolds, hSize, hf⟩ := h.holds_of_leafStep hTask hLeafStep
      rw [show task.body.key = key by rw [hBody]; rfl] at hle hf
      have hEq := execute_eq hEx hAnn
      simp only [hBody] at hEq
      have hFound : (lookupExecute L coreId s.tree task key value p).allCalls =
          [.found coreId key v] :=
        lookupExecute_calls coreId hle hInner hHolds hSize (hf.trans hMap)
      rw [← hEq, hCalls] at hFound
      simp only [hMap, Option.elim_some, ne_eq, reduceCtorEq, not_false_eq_true, iff_true]
      exact ⟨coreId, by simpa using hFound⟩

/-- The last call of an update. -/
theorem TracedInv.describes_update {value : V} (h : TracedInv L s a) (hTask : TaskOK a task)
    (hBody : task.body = .update key value)
    (hEx : task.execute L coreId s.tree = some ex) (hCalls : ex.allCalls = [call])
    (hReports : task.body.Reports coreId call)
    (hLeafStep : task.leafStep s.tree = task.body.mapOp) :
    Completion.Describes ⟨r, call, s.map⟩ (.update key value) ↔ s.map key ≠ none := by
  rw [hBody] at hReports hLeafStep
  unfold Completion.Describes
  by_cases hMap : s.map key = none
  · -- neither `updated` nor `missing` with another key says that this one is missing
    simp only [hMap, if_true, ne_eq, not_true_eq_false, iff_false, not_exists]
    intro core hCall
    rcases hReports with rfl | ⟨other, hne, rfl⟩
    · exact absurd hCall (by simp)
    · simp only [ListenerCall.missing.injEq] at hCall
      exact hne hCall.2
  · obtain ⟨p, f, hAnn, hle, hInner, hMode, hHolds, hSize, hf⟩ :=
      h.holds_of_leafStep hTask hLeafStep
    rw [show task.body.key = key by rw [hBody]; rfl] at hle hf
    rw [hBody] at hMode
    have hEq := execute_eq hEx hAnn
    simp only [hBody] at hEq
    have hUpdated := updateExecute_calls coreId hle hInner (fun hReads => hMode ⟨rfl, hReads⟩)
      hBody hHolds hSize (by rw [hf]; exact hMap)
    rw [← hEq, hCalls] at hUpdated
    simp only [hMap, if_false, ne_eq, not_false_eq_true, iff_true]
    exact ⟨coreId, by simpa using hUpdated⟩

/-- The last call of a task describes the request exactly when the execution is answerable. -/
theorem TracedInv.describes_iff (h : TracedInv L s a) (hTasks : s.tasks = (r, task) ::ₘ rest)
    (hEx : task.execute L coreId s.tree = some ex) (hCalls : ex.allCalls = [call])
    (hReports : task.body.Reports coreId call) (hSucc : ex.result.successor = none)
    (hLeafStep : task.leafStep s.tree = task.body.mapOp) {request : TaskBody K V}
    (hRequest : s.requests[r]? = some request) :
    Completion.Describes ⟨r, call, s.map⟩ request ↔ Answerable L s (.execute r coreId task) := by
  have hIn : (r, task) ∈ s.tasks := by rw [hTasks]; exact Multiset.mem_cons_self _ _
  obtain ⟨hTask, hUnposted⟩ := h.ok hIn (key_lt_of_ends hEx hSucc)
  obtain ⟨request', hRequest', hServed⟩ := h.served r task hIn
  obtain rfl : request = request' := by simpa [hRequest] using hRequest'
  have hIsRequest := h.requests request (List.mem_of_getElem? hRequest)
  cases hBody : task.body with
  | insertValue key value =>
      rw [hBody] at hServed hReports
      obtain rfl : .insertValue key value = request := by
        rcases hServed with hEq | ⟨_, _, _, _, _, hEq⟩
        · exact hEq
        · exact absurd hEq (by simp)
      have hAns : Answerable L s (.execute r coreId task) := by simp only [Answerable, hBody]
      exact iff_of_true ⟨coreId, hReports⟩ hAns
  | insertSeparator key separator =>
      obtain ⟨p, hAnn, _⟩ := hTask.annotated
      have hEq := execute_eq hEx hAnn
      simp only [hBody] at hEq
      rw [hEq] at hSucc
      have hEnds : task.EndsAt L s.tree key :=
        (insertSeparatorExecute_ends coreId h.inv.rep h.inv.valid hTask hBody hAnn
          hUnposted).mp hSucc
      rw [hBody] at hServed hReports
      obtain ⟨k, v, rfl⟩ : ∃ k v, request = .insertValue k v := by
        rcases hServed with rfl | ⟨k, v, _, _, rfl, _⟩
        · exact absurd hIsRequest (by simp [TaskBody.IsRequest])
        · exact ⟨k, v, rfl⟩
      obtain rfl : call = .inserted coreId key 0 := hReports
      simp only [Answerable, hBody, hEnds, hRequest, Option.some.injEq, TaskBody.insertValue.injEq,
        true_imp_iff, Completion.Describes]
      constructor
      · rintro ⟨core, hCall⟩
        simp only [ListenerCall.inserted.injEq] at hCall
        exact ⟨hCall.2.1.symm, hCall.2.2.symm⟩
      · rintro ⟨rfl, rfl⟩
        exact ⟨coreId, rfl⟩
  | lookup key value core =>
      have hSome : task.leafStep s.tree ≠ none := by simp [hLeafStep, hBody, TaskBody.mapOp]
      obtain rfl : .lookup key value core = request := by
        rcases hServed with hEq | ⟨_, _, _, _, _, hEq⟩
        · exact hBody.symm.trans hEq
        · exact absurd (hBody.symm.trans hEq) (by simp)
      simp only [h.describes_lookup hTask hBody hEx hCalls hReports hLeafStep, Answerable, hBody]
      exact ⟨fun hMap _ => hMap, fun hAns => hAns hSome⟩
  | update key value =>
      have hSome : task.leafStep s.tree ≠ none := by simp [hLeafStep, hBody, TaskBody.mapOp]
      obtain rfl : .update key value = request := by
        rcases hServed with hEq | ⟨_, _, _, _, _, hEq⟩
        · exact hBody.symm.trans hEq
        · exact absurd (hBody.symm.trans hEq) (by simp)
      simp only [h.describes_update hTask hBody hEx hCalls hReports hLeafStep, Answerable, hBody]
      exact ⟨fun hMap _ => hMap, fun hAns => hAns hSome⟩

/-- An execution that hands the request on is answerable. -/
theorem TracedInv.answerable_of_successor (h : TracedInv L s a)
    (hTasks : s.tasks = (r, task) ::ₘ rest) (hEx : task.execute L coreId s.tree = some ex)
    {next : Task K V} (hSucc : ex.result.successor = some next)
    (hLeafStep : task.body.Inserts ∨ task.leafStep s.tree = none) :
    Answerable L s (.execute r coreId task) := by
  cases hBody : task.body with
  | insertValue key value => simp only [Answerable, hBody]
  | insertSeparator key separator =>
      simp only [Answerable, hBody]
      intro hEnds
      have hIn : (r, task) ∈ s.tasks := by rw [hTasks]; exact Multiset.mem_cons_self _ _
      obtain ⟨hTask, hUnposted⟩ :=
        h.ok hIn (h.separators_lt r task hIn (by rw [hBody]; exact not_false))
      obtain ⟨p, hAnn, _⟩ := hTask.annotated
      have hEq := execute_eq hEx hAnn
      simp only [hBody] at hEq
      rw [hEq] at hSucc
      have hNone := (insertSeparatorExecute_ends coreId h.inv.rep h.inv.valid hTask hBody hAnn
        hUnposted).mpr hEnds
      exact absurd (hSucc.symm.trans hNone) (by simp)
  | lookup key value core =>
      simp only [Answerable, hBody]
      rw [hBody] at hLeafStep
      exact fun hSome => absurd (hLeafStep.resolve_left not_false) hSome
  | update key value =>
      simp only [Answerable, hBody]
      rw [hBody] at hLeafStep
      exact fun hSome => absurd (hLeafStep.resolve_left not_false) hSome

/-- An execution adds no completion and is answerable, or it adds one, which describes the
request exactly when the execution is answerable. -/
theorem TracedInv.completions_after (h : TracedInv L s a) (hTasks : s.tasks = (r, task) ::ₘ rest)
    (hEx : task.execute L coreId s.tree = some ex) :
    ((s.after r task rest ex).completions = s.completions ∧
      Answerable L s (.execute r coreId task)) ∨
    ∃ call request, (s.after r task rest ex).completions = s.completions ++ [⟨r, call, s.map⟩] ∧
      s.requests[r]? = some request ∧
      (Completion.Describes ⟨r, call, s.map⟩ request ↔
        Answerable L s (.execute r coreId task)) := by
  have hIn : (r, task) ∈ s.tasks := by rw [hTasks]; exact Multiset.mem_cons_self _ _
  cases execute_shape hEx with
  | moves next _ hCalls hLeafStep hSucc _ =>
      exact Or.inl ⟨by simp [TracedState.after, hCalls],
        h.answerable_of_successor hTasks hEx hSucc (Or.inr hLeafStep)⟩
  | ends call hCalls hReports hSucc hLeafStep _ =>
      obtain ⟨request, hRequest, _⟩ := h.served r task hIn
      exact Or.inr ⟨call, request, by simp [TracedState.after, hCalls], hRequest,
        h.describes_iff hTasks hEx hCalls hReports hSucc hLeafStep hRequest⟩
  | climbs next _ _ _ hCalls hInserts hSucc =>
      exact Or.inl ⟨by simp [TracedState.after, hCalls],
        h.answerable_of_successor hTasks hEx hSucc (Or.inl hInserts)⟩

/-- An answerable step adds only completions that describe their request. -/
theorem TracedInv.allDescribed_step {e : TracedEvent K V} (h : TracedInv L s a)
    (hAll : s.AllDescribed) (hStep : TracedStep L s e s') (hAns : Answerable L s e) :
    s'.AllDescribed := by
  cases hStep with
  | spawn request isReadonly hRequest =>
      intro c hc
      obtain ⟨x, hx, hDescribes⟩ := hAll c hc
      have hLt := (List.getElem?_eq_some_iff.mp hx).1
      exact ⟨x, by rw [List.getElem?_append_left hLt]; exact hx, hDescribes⟩
  | execute coreId hTasks hEx =>
      rcases h.completions_after hTasks hEx with ⟨hSame, _⟩ | ⟨call, request, hNew, hRequest, hIff⟩
      · intro c hc
        rw [hSame] at hc
        exact hAll c hc
      · intro c hc
        rw [hNew, List.mem_append, List.mem_singleton] at hc
        rcases hc with hOld | rfl
        · exact hAll c hOld
        · exact ⟨request, hRequest, hIff.mpr hAns⟩

/-- A step that is not answerable adds a completion that does not describe its request. -/
theorem TracedInv.not_allDescribed_step {e : TracedEvent K V} (h : TracedInv L s a)
    (hStep : TracedStep L s e s') (hNot : ¬ Answerable L s e) : ¬ s'.AllDescribed := by
  cases hStep with
  | spawn request isReadonly hRequest => exact absurd trivial hNot
  | @execute coreId r task rest ex hTasks hEx =>
      rcases h.completions_after hTasks hEx with ⟨_, hAns⟩ | ⟨call, request, hNew, hRequest, hIff⟩
      · exact absurd hAns hNot
      · intro hAll
        obtain ⟨x, hx, hDescribes⟩ := hAll ⟨r, call, s.map⟩ (by rw [hNew]; simp)
        obtain rfl : request = x := by
          have hx' : s.requests[r]? = some x := hx
          simpa [hRequest] using hx'
        exact hNot (hIff.mp hDescribes)

end Step

section Runs

variable [Nontrivial K] [Zero V] (L : Layout K V) (memory : Nat → Node K V)

/-- In every run whose executions are answerable every completion describes its request, and
after any run an execution that is not answerable makes a completion that does not. -/
theorem completions_describe :
    (∀ log s, Verified.Run (Verified.Guarded (TracedStep L) (Answerable L))
      (TracedState.initial memory) log s → s.AllDescribed) ∧
    ∀ log s e s', Verified.Run (TracedStep L) (TracedState.initial memory) log s →
      TracedStep L s e s' → ¬ Answerable L s e → ¬ s'.AllDescribed := by
  refine ⟨fun log s hRun => ?_, fun log s e s' hRun hStep hNot => ?_⟩
  · have hInit : (TracedState.initial memory : TracedState K V).AllDescribed :=
      fun c hc => absurd hc (by simp [TracedState.initial])
    have hNil : Verified.Run (TracedStep L) (TracedState.initial memory) [] _ := Verified.Run.nil
    obtain ⟨a₀, h₀⟩ := TracedInv.run hNil
    refine (hRun.invariant (P := fun s => s.AllDescribed ∧ ∃ a, TracedInv L s a)
      ⟨hInit, a₀, h₀⟩ ?_).1
    rintro e mid fin ⟨hAll, a, h⟩ ⟨hAns, hStep⟩
    exact ⟨h.allDescribed_step hAll hStep hAns, h.step hStep⟩
  · obtain ⟨a, h⟩ := TracedInv.run hRun
    exact h.not_allDescribed_step hStep hNot

/-- The completion of an insert that splits nothing describes it. -/
theorem completions_describe_insert :
    ∃ log s, Verified.Run (Verified.Guarded (TracedStep Layout.benchmark)
        (Answerable Layout.benchmark)) (TracedState.initial zeroMemory) log s ∧
      s.completions.length = 1 ∧ s.AllDescribed := by
  have hSpawn := TracedStep.spawn (L := Layout.benchmark) (s := TracedState.initial zeroMemory)
    (.insertValue 5 7) false trivial
  have hExecute := TracedStep.execute (L := Layout.benchmark)
    (s := { TracedState.initial zeroMemory with
      tasks := (0, ⟨.insertValue 5 7, some 0, false⟩) ::ₘ 0
      requests := [.insertValue 5 7] })
    0 (show _ = (0, ⟨.insertValue 5 7, some 0, false⟩) ::ₘ 0 from rfl) rfl
  have hRun : Verified.Run (Verified.Guarded (TracedStep Layout.benchmark)
      (Answerable Layout.benchmark)) _ _ _ :=
    (Verified.Run.single ⟨by trivial, hSpawn⟩).snoc ⟨by trivial, hExecute⟩
  exact ⟨_, _, hRun, rfl, (completions_describe _ _).1 _ _ hRun⟩

/-- A lookup in a fresh tree is reported as found. -/
theorem lookup_absent_found :
    ∃ log s, Verified.Run (TracedStep Layout.benchmark) (TracedState.initial zeroMemory) log s ∧
      s.requests = [.lookup 5 0 0] ∧ ¬ s.AllDescribed := by
  have hSpawn := TracedStep.spawn (L := Layout.benchmark) (s := TracedState.initial zeroMemory)
    (.lookup 5 0 0) true trivial
  have hExecute := TracedStep.execute (L := Layout.benchmark)
    (s := { TracedState.initial zeroMemory with
      tasks := (0, ⟨.lookup 5 0 0, some 0, true⟩) ::ₘ 0
      requests := [.lookup 5 0 0] })
    0 (show _ = (0, ⟨.lookup 5 0 0, some 0, true⟩) ::ₘ 0 from rfl) rfl
  refine ⟨_, _, (Verified.Run.single hSpawn).snoc hExecute, rfl, fun hAll => ?_⟩
  obtain ⟨request, hRequest, hDescribes⟩ := hAll ⟨0, .found 0 5 0, fun _ => none⟩ (List.Mem.head [])
  obtain rfl : .lookup 5 0 0 = request := Option.some.inj hRequest
  obtain ⟨_, hCall⟩ := hDescribes
  exact absurd hCall (by simp)

end Runs

end MxTasking.BLinkTree
