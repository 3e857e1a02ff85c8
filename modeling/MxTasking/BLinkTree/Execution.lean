import MxTasking.BLinkTree.Invariant

/-!
# One execution of each task

For each of the four tasks: what its `execute()` does to the abstract tree, to the
task and to the contents (`Outcome`).  The first branches are the same for all of
them, following the right link and descending to a child; they are treated once.

## Main results

* `insertValueExecute_outcome`, `insertSeparatorExecute_outcome`,
  `lookupExecute_outcome`, `updateExecute_outcome`.
* `Inv.step` — every step of the system keeps the invariant and moves the contents
  as the leaf step says.
-/

namespace MxTasking.BLinkTree

open AbstractTree

variable {K V : Type*} [LinearOrder K]

/-! ## Which execution is the leaf step -/

section LeafStep

variable {t : Tree K V} {task : Task K V} {p : Nat}

theorem leafStep_of_right (hAnn : task.annotatedResource = some p)
    (hle : (t.nodes p).highKey ≤ task.body.key) : task.leafStep t = none := by
  simp [Task.leafStep, hAnn, hle]

theorem leafStep_of_inner (hAnn : task.annotatedResource = some p)
    (hInner : (t.nodes p).isInner = true) : task.leafStep t = none := by
  simp [Task.leafStep, hAnn, hInner]

theorem leafStep_of_reader (hAnn : task.annotatedResource = some p)
    (hWrites : task.body.writes = true) (hReads : task.isReadonly = true) :
    task.leafStep t = none := by
  simp [Task.leafStep, hAnn, hWrites, hReads]

theorem leafStep_of_leaf (hAnn : task.annotatedResource = some p)
    (hle : ¬ (t.nodes p).highKey ≤ task.body.key) (hInner : ¬ (t.nodes p).isInner = true)
    (hMode : ¬ (task.body.writes = true ∧ task.isReadonly = true)) :
    task.leafStep t = task.body.mapOp := by
  unfold Task.leafStep
  rw [hAnn]
  exact if_neg (by rintro (h | h | h); exacts [hle h, hInner h, hMode h])

end LeafStep

variable [BoundedOrder K]

/-- What one execution of `task` does: from `a` to `a'`, with the leaf step `op`. -/
structure Outcome (L : Layout K V) (a a' : AbstractTree K V) (task : Task K V)
    (op : Option (MapOp K V)) (ex : Execution K V) : Prop where
  rep : Rep L ex.tree a'
  advance : ∃ done fresh, Advance a a' done fresh ∧
    ((done = task.carried ∧ ex.result.successor.bind Task.carried = fresh) ∨
      (done = none ∧ fresh = none ∧ ex.result.successor.bind Task.carried = task.carried))
  ok : ∀ task', ex.result.successor = some task' → TaskOK a' task'
  contains : ∀ f, a.Contains f → a'.Contains (op.elim f (MapOp.apply f))

section Common

variable {L : Layout K V} {t : Tree K V} {a : AbstractTree K V} {task task' : Task K V}
  {p : Nat} {key : K}

/-! ## Moving on -/

theorem TaskOK.setReadonly (h : TaskOK a task) (isReadonly : Bool) :
    TaskOK a (task.setReadonly isReadonly) :=
  ⟨h.key_lt, h.annotated, h.separator⟩

/-- Following the right link from a node whose high key is not above the key. -/
theorem TaskOK.annotate_right (h : TaskOK a task) (hRep : Rep L t a) (hValid : a.Valid)
    (hAnn : task.annotatedResource = some p) (hle : (t.nodes p).highKey ≤ task.body.key) :
    TaskOK a (task.annotate (t.nodes p).rightSibling) := by
  obtain ⟨p', hAnn', hp, _⟩ := h.annotated
  obtain rfl : p = p' := by simpa [hAnn] using hAnn'
  rw [(hRep.nodes p hp).highKey] at hle
  obtain ⟨r, hRight, hr, hLevel, hLow⟩ := hValid.right_of_high_le hp hle h.key_lt
  rw [(hRep.nodes p hp).rightSibling, hRight]
  refine ⟨h.key_lt, ⟨r, rfl, hr, by rw [hLow]; exact hle⟩, ?_⟩
  intro key sep hBody
  obtain ⟨p'', q, hAnn'', hSep, hq, hqLevel, hqLow⟩ := h.separator key sep hBody
  obtain rfl : p = p'' := by simpa [hAnn] using hAnn''
  exact ⟨r, q, rfl, hSep, hq, by rw [hLevel]; exact hqLevel, hqLow⟩

/-- The child of an inner node for a key is a node one level below that does not start right
of the key. -/
theorem Rep.child_spec (hRep : Rep L t a) (hValid : a.Valid) (hp : p < a.count)
    (hLow : (a.nodes p).low ≤ key) (hInner : (t.nodes p).isInner = true) :
    ∃ c, (t.nodes p).child key = some c ∧ c < a.count ∧
      (a.nodes c).level + 1 = (a.nodes p).level ∧ (a.nodes c).low ≤ key := by
  have hNode := hRep.nodes p hp
  obtain ⟨hRoutes, _⟩ := hNode.routes (hNode.isInner_iff.mp hInner)
  obtain ⟨b, hb, hChild, _⟩ := hRoutes.child_spec hLow
  obtain ⟨c, hc, hEq⟩ : ∃ c, (a.nodes p).child b = some c ∧
      some c = (t.nodes p).child key := by
    simpa [separatorsOf] using hChild
  obtain ⟨hcLt, hLevel, hcLow, _⟩ := hValid.child_some p hp b c hc
  exact ⟨c, hEq.symm, hcLt, hLevel, by rw [hcLow]; exact hb⟩

/-- Descending from an inner node. -/
theorem TaskOK.annotate_child (h : TaskOK a task) (hRep : Rep L t a) (hValid : a.Valid)
    (hAnn : task.annotatedResource = some p) (hRequest : task.body.IsRequest)
    (hInner : (t.nodes p).isInner = true) :
    TaskOK a (task.annotate ((t.nodes p).child task.body.key)) := by
  obtain ⟨p', hAnn', hp, hLow⟩ := h.annotated
  obtain rfl : p = p' := by simpa [hAnn] using hAnn'
  obtain ⟨c, hChild, hc, _, hcLow⟩ := hRep.child_spec hValid hp hLow hInner
  refine ⟨h.key_lt, ⟨c, hChild, hc, hcLow⟩, ?_⟩
  intro key sep hBody
  rw [show task.body = .insertSeparator key sep from hBody] at hRequest
  exact absurd hRequest (by simp [TaskBody.IsRequest])

/-- A step that only moves the task. -/
theorem Outcome.move (task : Task K V) (hRep : Rep L t a) (hValid : a.Valid)
    (hRoot : a.RootOnly) (hOk : TaskOK a task') (hCarried : task'.carried = task.carried)
    (this : Task K V) :
    Outcome L a a task none ⟨t, this, .makeSucceed task', []⟩ :=
  { rep := hRep
    advance := ⟨none, none, Advance.refl hValid hRoot, Or.inr ⟨rfl, rfl, hCarried⟩⟩
    ok := fun x hx => by
      obtain rfl : task' = x := by simpa [TaskResult.makeSucceed] using hx
      exact hOk
    contains := fun _ hf => hf }

/-- A leaf step that ends the task and changes neither the tree nor the map. -/
theorem Outcome.finish (hRep : Rep L t a) (hValid : a.Valid) (hRoot : a.RootOnly)
    (hCarried : task.carried = none) {op : MapOp K V}
    (hOp : ∀ f, a.Contains f → op.apply f = f) (this : Task K V)
    (calls : List (ListenerCall K V)) :
    Outcome L a a task (some op) ⟨t, this, .makeRemove, calls⟩ :=
  { rep := hRep
    advance := ⟨none, none, Advance.refl hValid hRoot, Or.inl ⟨hCarried.symm, rfl⟩⟩
    ok := fun x hx => absurd hx (by simp [TaskResult.makeRemove])
    contains := fun f hf => by
      rw [Option.elim_some, hOp f hf]
      exact hf }

/-- On its leaf step a task is on the leaf that owns its key. -/
theorem TaskOK.owner (h : TaskOK a task) (hRep : Rep L t a)
    (hAnn : task.annotatedResource = some p)
    (hle : ¬ (t.nodes p).highKey ≤ task.body.key) (hInner : ¬ (t.nodes p).isInner = true) :
    p < a.count ∧ (a.nodes p).level = 0 ∧
      ((a.nodes p).low ≤ task.body.key ∧ task.body.key < (a.nodes p).high) := by
  obtain ⟨p', hAnn', hp, hLow⟩ := h.annotated
  obtain rfl : p = p' := by simpa [hAnn] using hAnn'
  have hNode := hRep.nodes p hp
  rw [hNode.highKey] at hle
  rw [hNode.isInner_iff] at hInner
  exact ⟨hp, by omega, hLow, not_le.mp hle⟩

/-- How a request that writes travels: right while its key lies beyond the node, down through
inner nodes, and once more to the leaf if it came there as a reader.  What is left is the leaf
step. -/
theorem Outcome.of_writer {ex : Execution K V} (hRep : Rep L t a) (hValid : a.Valid)
    (hRoot : a.RootOnly) (hTask : TaskOK a task) (hRequest : task.body.IsRequest)
    (hWrites : task.body.writes = true) (hAnn : task.annotatedResource = some p)
    (hRight : (t.nodes p).highKey ≤ task.body.key →
      ex = ⟨t, task.annotate (t.nodes p).rightSibling,
        .makeSucceed (task.annotate (t.nodes p).rightSibling), []⟩)
    (hDown : ¬ (t.nodes p).highKey ≤ task.body.key → (t.nodes p).isInner = true →
      ∃ isReadonly,
        ex = ⟨t, (task.annotate ((t.nodes p).child task.body.key)).setReadonly isReadonly,
          .makeSucceed
            ((task.annotate ((t.nodes p).child task.body.key)).setReadonly isReadonly), []⟩)
    (hUpgrade : ¬ (t.nodes p).highKey ≤ task.body.key → ¬ (t.nodes p).isInner = true →
      ((t.nodes p).isLeaf && task.isReadonly) = true →
      ex = ⟨t, task.setReadonly false, .makeSucceed (task.setReadonly false), []⟩)
    (hLeafStep : p < a.count → (a.nodes p).level = 0 →
      (a.nodes p).low ≤ task.body.key ∧ task.body.key < (a.nodes p).high →
      ¬ task.isReadonly = true → ∃ a', Outcome L a a' task task.body.mapOp ex) :
    ∃ a', Outcome L a a' task (task.leafStep t) ex := by
  by_cases hle : (t.nodes p).highKey ≤ task.body.key
  · rw [hRight hle, leafStep_of_right hAnn hle]
    exact ⟨a, Outcome.move task hRep hValid hRoot
      (hTask.annotate_right hRep hValid hAnn hle) rfl _⟩
  by_cases hInner : (t.nodes p).isInner = true
  · obtain ⟨isReadonly, hEx⟩ := hDown hle hInner
    rw [hEx, leafStep_of_inner hAnn hInner]
    have hOk := hTask.annotate_child hRep hValid hAnn hRequest hInner
    exact ⟨a, Outcome.move task hRep hValid hRoot (hOk.setReadonly _) rfl _⟩
  obtain ⟨hp, hLeaf, hRange⟩ := hTask.owner hRep hAnn hle hInner
  by_cases hReads : task.isReadonly = true
  · have hIsLeaf := (hRep.nodes p hp).isLeaf_iff.mpr hLeaf
    rw [hUpgrade hle hInner (by rw [hIsLeaf, hReads]; rfl),
      leafStep_of_reader hAnn hWrites hReads]
    exact ⟨a, Outcome.move task hRep hValid hRoot (hTask.setReadonly false) rfl _⟩
  rw [leafStep_of_leaf hAnn hle hInner (fun h => hReads h.2)]
  exact hLeafStep hp hLeaf hRange hReads

end Common

/-! ## Splitting -/

section Split

variable {L : Layout K V} {t' : Tree K V} {a b : AbstractTree K V} {task this successor : Task K V}
  {p parent : Nat} {m : K} {op : Option (MapOp K V)} {calls : List (ListenerCall K V)}

/-- The new sibling of `p` is handed to the parent of `p`. -/
theorem TaskOK.postSibling (hb : b.Valid) (hp : p < b.count)
    (hLow : (b.nodes p).low < m) (hHigh : m < (b.nodes p).high)
    (hParent : (b.nodes p).parent = some parent)
    (hBody : successor.body = .insertSeparator m (some b.count))
    (hAnn : successor.annotatedResource = some parent) : TaskOK (b.split p m) successor := by
  obtain ⟨hParentLt, hParentLevel, hParentLow⟩ := hb.parent_some p hp parent hParent
  have hKey : successor.body.key = m := by rw [hBody]; rfl
  refine ⟨?_, ⟨parent, hAnn, Nat.lt_succ_of_lt hParentLt, ?_⟩, ?_⟩
  · rw [hKey]; exact lt_of_lt_of_le hHigh le_top
  · rw [split_low (Nat.ne_of_lt hParentLt), hKey]
    exact le_of_lt (lt_of_le_of_lt hParentLow hLow)
  · intro key sep hBody'
    obtain ⟨rfl, rfl⟩ : m = key ∧ some b.count = sep := by simpa [hBody] using hBody'
    refine ⟨parent, b.count, hAnn, rfl, Nat.lt_succ_self _, ?_, ?_⟩
    · rw [split_new hp, split_level (Nat.ne_of_lt hParentLt)]
      exact hParentLevel.symm
    · rw [split_new hp]

/-- An execution that ends in a split of a node with a parent. -/
theorem Outcome.post (hAdv : Advance a b task.carried none) (hp : p < b.count)
    (hLow : (b.nodes p).low < m) (hHigh : m < (b.nodes p).high)
    (hChild : 0 < (b.nodes p).level → (b.nodes p).child m ≠ none)
    (hParent : (b.nodes p).parent = some parent) (hRep : Rep L t' (b.split p m))
    (hContains : ∀ f, a.Contains f → b.Contains (op.elim f (MapOp.apply f)))
    (hBody : successor.body = .insertSeparator m (some b.count))
    (hAnn : successor.annotatedResource = some parent) (isRemove : Bool) :
    Outcome L a (b.split p m) task op ⟨t', this, ⟨some successor, isRemove⟩, calls⟩ := by
  have hne : p ≠ b.root := fun hEq => by
    rw [(hAdv.rootOnly p hp).mpr hEq] at hParent
    exact absurd hParent (by simp)
  have hSplit := Advance.split hAdv.valid hAdv.rootOnly hp hne hLow hHigh hChild
  refine
    { rep := hRep
      advance := ⟨_, _, hAdv.trans hSplit, Or.inl ⟨rfl, ?_⟩⟩
      ok := fun x hx => ?_
      contains := fun f hf => (hContains f hf).split hp }
  · simp [Task.carried, hBody]
  · obtain rfl : successor = x := by simpa using hx
    exact TaskOK.postSibling hAdv.valid hp hLow hHigh hParent hBody hAnn

/-- An execution that ends in a split of the root. -/
theorem Outcome.grow (hAdv : Advance a b task.carried none)
    (hLow : (b.nodes b.root).low < m) (hHigh : m < (b.nodes b.root).high)
    (hChild : 0 < (b.nodes b.root).level → (b.nodes b.root).child m ≠ none)
    (hRep : Rep L t' (b.split b.root m))
    (hContains : ∀ f, a.Contains f → b.Contains (op.elim f (MapOp.apply f))) :
    Outcome L a ((b.split b.root m).grow b.count m) task op
      ⟨t'.createNewRoot b.root (some b.count) m, this, .makeRemove, calls⟩ :=
  { rep := hRep.createNewRoot (hAdv.valid.split hAdv.valid.root_lt hLow hHigh hChild)
      (hAdv.valid.rootSplit hAdv.rootOnly hLow)
    advance := ⟨_, _,
      hAdv.trans (Advance.splitGrow hAdv.valid hAdv.rootOnly hLow hHigh hChild),
      Or.inl ⟨rfl, rfl⟩⟩
    ok := fun x hx => absurd hx (by simp [TaskResult.makeRemove])
    contains := fun f hf => ((hContains f hf).split hAdv.valid.root_lt).grow }

end Split

/-! ## The four tasks -/

section Tasks

variable {L : Layout K V} {t : Tree K V} {a : AbstractTree K V} {task : Task K V}
  {p : Nat} {key : K} {value : V} (coreId : Nat)

/-- On the leaf that owns the key an insert stores the record unless the key is there. -/
theorem insertValueExecute_leaf (hRep : Rep L t a) (hValid : a.Valid) (hRoot : a.RootOnly)
    (hNone : task.carried = none) (hp : p < a.count) (hLeaf : (a.nodes p).level = 0)
    (hRange : (a.nodes p).low ≤ key ∧ key < (a.nodes p).high)
    (hReads : ¬ task.isReadonly = true) :
    ∃ a', Outcome L a a' task (some (.insert key value))
      (insertValueExecute L coreId t task key value p) := by
  have hNode := hRep.nodes p hp
  obtain ⟨hHolds, hSize⟩ := hNode.holds hLeaf
  unfold insertValueExecute
  rw [if_neg (by rw [hNode.highKey]; exact not_le.mpr hRange.2),
    if_neg (by rw [hNode.isInner_iff]; omega), if_neg (by simpa using fun _ => hReads)]
  -- is the key already there?
  have hHit : ((t.nodes p).index key < (t.nodes p).size ∧
      (t.nodes p).leafKey L ((t.nodes p).index key) = key) ↔ (a.nodes p).record key ≠ none := by
    rw [← hHolds.index_hit key]
    refine and_congr_right (fun hlt => ?_)
    rw [Node.leafKey_of_lt (by omega)]
  by_cases hPresent : (a.nodes p).record key = none
  swap
  · simp only [if_pos (hHit.mpr hPresent)]
    refine ⟨a, Outcome.finish hRep hValid hRoot hNone (fun f hf => ?_) _ _⟩
    rw [hf.record_eq hValid hp hLeaf hRange] at hPresent
    simp [MapOp.apply, hPresent]
  simp only [if_neg (show ¬ _ from fun h => hHit.mp h hPresent)]
  have hAdv : Advance a (a.put p key value) task.carried none := by
    rw [hNone]; exact Advance.put hValid hRoot hp hLeaf hRange
  have hContains : ∀ f, a.Contains f → (a.put p key value).Contains
      ((some (MapOp.insert key value) : Option (MapOp K V)).elim f (MapOp.apply f)) := by
    intro f hf
    have hPut := hf.put (v := value) hValid hp hLeaf hRange
    rw [hf.record_eq hValid hp hLeaf hRange] at hPresent
    simpa [MapOp.apply, hPresent] using hPut
  by_cases hFull : (t.nodes p).full L = false
  · rw [if_pos hFull]
    exact ⟨a.put p key value,
      { rep := hRep.insertValue hp hLeaf hPresent ((hNode.full_leaf hLeaf).1.mp hFull)
        advance := ⟨_, none, hAdv, Or.inl ⟨rfl, rfl⟩⟩
        ok := fun x hx => absurd hx (by simp [TaskResult.makeRemove])
        contains := hContains }⟩
  rw [if_neg hFull]
  obtain ⟨t', m, hRet, hLow, hHigh, hRep'⟩ := hRep.splitLeaf hValid hp hLeaf hRange
    hPresent ((hNode.full_leaf hLeaf).2 (by simpa using hFull)) value
  have hbLow : ((a.put p key value).nodes p).low < m := by rw [put_low]; exact hLow
  have hbHigh : m < ((a.put p key value).nodes p).high := by rw [put_high]; exact hHigh
  have hbChild : 0 < ((a.put p key value).nodes p).level →
      ((a.put p key value).nodes p).child m ≠ none := by
    intro hPos; rw [put_level] at hPos; omega
  have hParentEq : (t'.nodes p).parent = (a.nodes p).parent := by
    rw [(hRep'.nodes p (Nat.lt_succ_of_lt hp)).parent, split_parent_self, put_parent]
  rw [hRet]
  simp only [hParentEq]
  cases hParent : (a.nodes p).parent with
  | some parent =>
      exact ⟨_, Outcome.post hAdv hp hbLow hbHigh hbChild (by rw [put_parent]; exact hParent)
        hRep' hContains rfl rfl true⟩
  | none =>
      obtain rfl := (hRoot p hp).mp hParent
      exact ⟨_, Outcome.grow (b := a.put a.root key value) hAdv hbLow hbHigh hbChild hRep'
        hContains⟩

theorem insertValueExecute_outcome (hRep : Rep L t a) (hValid : a.Valid)
    (hRoot : a.RootOnly) (hTask : TaskOK a task) (hBody : task.body = .insertValue key value)
    (hAnn : task.annotatedResource = some p) :
    ∃ a', Outcome L a a' task (task.leafStep t)
      (insertValueExecute L coreId t task key value p) := by
  refine Outcome.of_writer hRep hValid hRoot hTask (by rw [hBody]; trivial) (by rw [hBody]; rfl)
    hAnn ?_ ?_ ?_ ?_
  · rw [hBody]
    intro (hle : _ ≤ key)
    simp only [insertValueExecute, if_pos hle]
  · rw [hBody]
    intro (hle : ¬ _ ≤ key) hInner
    simp only [insertValueExecute, if_neg hle, if_pos hInner]
    exact ⟨_, rfl⟩
  · rw [hBody]
    intro (hle : ¬ _ ≤ key) hInner hUpgrade
    simp only [insertValueExecute, if_neg hle, if_neg hInner, if_pos hUpgrade]
  · rw [hBody]
    intro hp hLeaf hRange hReads
    exact insertValueExecute_leaf coreId hRep hValid hRoot (by simp [Task.carried, hBody]) hp hLeaf
      hRange hReads

/-- On its leaf step a lookup changes nothing but the task. -/
theorem lookupExecute_outcome {found : V} {core : Nat} (hRep : Rep L t a) (hValid : a.Valid)
    (hRoot : a.RootOnly) (hTask : TaskOK a task) (hBody : task.body = .lookup key found core)
    (hAnn : task.annotatedResource = some p) :
    Outcome L a a task (task.leafStep t) (lookupExecute L coreId t task key found p) := by
  have hKey : task.body.key = key := by rw [hBody]; rfl
  have hRequest : task.body.IsRequest := by rw [hBody]; trivial
  unfold lookupExecute
  by_cases hle : (t.nodes p).highKey ≤ key
  · simp only [if_pos hle]
    rw [← hKey] at hle
    rw [leafStep_of_right hAnn hle]
    exact Outcome.move task hRep hValid hRoot (hTask.annotate_right hRep hValid hAnn hle) rfl _
  by_cases hInner : (t.nodes p).isInner = true
  · simp only [if_neg hle, if_pos hInner]
    rw [leafStep_of_inner hAnn hInner]
    have hOk := hTask.annotate_child hRep hValid hAnn hRequest hInner
    rw [hKey] at hOk
    exact Outcome.move task hRep hValid hRoot hOk rfl _
  simp only [if_neg hle, if_neg hInner]
  rw [leafStep_of_leaf hAnn (by rwa [hKey]) hInner (by simp [hBody, TaskBody.writes]), hBody]
  exact Outcome.finish hRep hValid hRoot (by simp [Task.carried, hBody]) (fun f _ => rfl) _ _

omit [BoundedOrder K] in
/-- Overwriting a slot that is not live does not change what the leaf holds. -/
theorem Rep.setValue_dead (h : Rep L t a) (hp : p < a.count) (hLeaf : (a.nodes p).level = 0)
    {index : Nat} (hDead : (t.nodes p).size ≤ index) (value : V) :
    Rep L (t.write p ((t.nodes p).setValue index value)) a := by
  refine ⟨h.count, h.root, h.height, fun x hx => ?_⟩
  by_cases hxp : x = p
  · subst hxp
    have hNode := h.nodes x hx
    obtain ⟨hHolds, hSize⟩ := hNode.holds hLeaf
    rw [Tree.write_self]
    refine ⟨hNode.nodeType, hNode.highKey, hNode.rightSibling, hNode.parent,
      fun _ => ⟨hHolds.congr (fun _ _ => rfl) (fun j hj => ?_), hSize⟩,
      fun hPos => absurd hLeaf (Nat.ne_of_gt hPos)⟩
    exact Function.update_of_ne (by omega) _ _
  · rw [Tree.write_of_ne _ _ hxp]
    exact h.nodes x hx

/-- On the leaf that owns the key an update of a key that is there replaces its value;
otherwise the records stay as they are, whatever the dead slots hold. -/
theorem updateExecute_leaf (hRep : Rep L t a) (hValid : a.Valid) (hRoot : a.RootOnly)
    (hNone : task.carried = none) (hp : p < a.count) (hLeaf : (a.nodes p).level = 0)
    (hRange : (a.nodes p).low ≤ key ∧ key < (a.nodes p).high)
    (hReads : ¬ task.isReadonly = true) :
    ∃ a', Outcome L a a' task (some (.update key value))
      (updateExecute L coreId t task key value p) := by
  have hNode := hRep.nodes p hp
  obtain ⟨hHolds, hSize⟩ := hNode.holds hLeaf
  unfold updateExecute
  rw [if_neg (by rw [hNode.highKey]; exact not_le.mpr hRange.2),
    if_neg (by rw [hNode.isInner_iff]; omega), if_neg (by simpa using fun _ => hReads)]
  by_cases hPresent : (a.nodes p).record key = none
  · have hOp : ∀ f, a.Contains f → (MapOp.update key value : MapOp K V).apply f = f := by
      intro f hf
      rw [hf.record_eq hValid hp hLeaf hRange] at hPresent
      simp [MapOp.apply, hPresent]
    by_cases hSlot : (t.nodes p).leafKey L ((t.nodes p).index key) = key
    · -- the slot is dead: a live one would make the key present
      have hDead : (t.nodes p).size ≤ (t.nodes p).index key := by
        by_contra hlt
        rw [Node.leafKey_of_lt (by omega)] at hSlot
        exact (hHolds.index_hit key).mp ⟨by omega, hSlot⟩ hPresent
      simp only [if_pos hSlot]
      exact ⟨a, Outcome.finish (hRep.setValue_dead hp hLeaf hDead value) hValid hRoot hNone hOp
        _ _⟩
    · simp only [if_neg hSlot]
      exact ⟨a, Outcome.finish hRep hValid hRoot hNone hOp _ _⟩
  · obtain ⟨hlt, hSlot⟩ := (hHolds.index_hit key).mpr hPresent
    rw [← Node.leafKey_of_lt (L := L) (by omega)] at hSlot
    simp only [if_pos hSlot]
    refine ⟨a.put p key value, ?_⟩
    exact
      { rep := hRep.setValue hp hLeaf hPresent
        advance := ⟨none, none, Advance.put hValid hRoot hp hLeaf hRange,
          Or.inl ⟨hNone.symm, rfl⟩⟩
        ok := fun x hx => absurd hx (by simp [TaskResult.makeRemove])
        contains := fun f hf => by
          have hPut := hf.put (v := value) hValid hp hLeaf hRange
          rw [hf.record_eq hValid hp hLeaf hRange] at hPresent
          simpa [MapOp.apply, hPresent] using hPut }

theorem updateExecute_outcome (hRep : Rep L t a) (hValid : a.Valid)
    (hRoot : a.RootOnly) (hTask : TaskOK a task) (hBody : task.body = .update key value)
    (hAnn : task.annotatedResource = some p) :
    ∃ a', Outcome L a a' task (task.leafStep t)
      (updateExecute L coreId t task key value p) := by
  refine Outcome.of_writer hRep hValid hRoot hTask (by rw [hBody]; trivial) (by rw [hBody]; rfl)
    hAnn ?_ ?_ ?_ ?_
  · rw [hBody]
    intro (hle : _ ≤ key)
    simp only [updateExecute, if_pos hle]
  · rw [hBody]
    intro (hle : ¬ _ ≤ key) hInner
    simp only [updateExecute, if_neg hle, if_pos hInner]
    exact ⟨_, rfl⟩
  · rw [hBody]
    intro (hle : ¬ _ ≤ key) hInner hUpgrade
    simp only [updateExecute, if_neg hle, if_neg hInner, if_pos hUpgrade]
  · rw [hBody]
    intro hp hLeaf hRange hReads
    exact updateExecute_leaf coreId hRep hValid hRoot (by simp [Task.carried, hBody]) hp hLeaf
      hRange hReads

/-- A separator task is on the inner node its separator belongs to, or left of it. -/
theorem TaskOK.fits {q : Nat} (h : TaskOK a task) (hRep : Rep L t a)
    (hBody : task.body = .insertSeparator key (some q))
    (hAnn : task.annotatedResource = some p) (hle : ¬ (t.nodes p).highKey ≤ key) :
    a.Fits p key q := by
  obtain ⟨p', hAnn', hp, hLow⟩ := h.annotated
  obtain rfl : p = p' := by simpa [hAnn] using hAnn'
  obtain ⟨p'', q', hAnn'', hSep, hq, hLevel, hqLow⟩ := h.separator key _ hBody
  obtain rfl : p = p'' := by simpa [hAnn] using hAnn''
  obtain rfl : q = q' := by simpa using hSep
  rw [(hRep.nodes p hp).highKey] at hle
  rw [hBody] at hLow
  exact ⟨hp, hq, hLevel, hqLow, hLow, not_le.mp hle⟩

theorem insertSeparatorExecute_outcome [Zero V] {separator : Ptr} (hRep : Rep L t a)
    (hValid : a.Valid) (hRoot : a.RootOnly) (hTask : TaskOK a task)
    (hBody : task.body = .insertSeparator key separator)
    (hAnn : task.annotatedResource = some p)
    (hUnposted : ∀ q, task.carried = some q → a.Unposted q) :
    ∃ a', Outcome L a a' task (task.leafStep t)
      (insertSeparatorExecute L coreId t task key separator p) := by
  have hKey : task.body.key = key := by rw [hBody]; rfl
  have hOp : task.leafStep t = none := by
    unfold Task.leafStep
    rw [hAnn, hBody]
    simp [TaskBody.mapOp]
  rw [hOp]
  unfold insertSeparatorExecute
  by_cases hle : (t.nodes p).highKey ≤ key
  · simp only [if_pos hle]
    rw [← hKey] at hle
    exact ⟨a, Outcome.move task hRep hValid hRoot
      (hTask.annotate_right hRep hValid hAnn hle) rfl _⟩
  obtain ⟨_, q, _, rfl, _⟩ := hTask.separator key separator hBody
  have hFits := hTask.fits hRep hBody hAnn hle
  have hCarried : task.carried = some q := by simp [Task.carried, hBody]
  have hq := hUnposted q hCarried
  have hNode := hRep.nodes p hFits.lt
  have hPos : 0 < (a.nodes p).level := by have := hFits.level_eq; omega
  have hAdv : Advance a (a.attach p key q) task.carried none := by
    rw [hCarried]; exact Advance.attach hValid hRoot hFits hq
  simp only [if_neg hle]
  by_cases hFull : (t.nodes p).full L = false
  · rw [if_pos hFull]
    exact ⟨a.attach p key q,
      { rep := hRep.insertSeparator hValid hFits hq.2.2 ((hNode.full_inner hPos).1.mp hFull)
        advance := ⟨_, none, hAdv, Or.inl ⟨rfl, rfl⟩⟩
        ok := fun x hx => absurd hx (by simp [TaskResult.makeRemove])
        contains := fun f hf => hf.attach }⟩
  rw [if_neg hFull]
  obtain ⟨t', m, hRet, hLow, hHigh, hChild, hRep'⟩ := hRep.splitInner hValid hFits hq.2.2
    ((hNode.full_inner hPos).2 (by simpa using hFull))
  have hbLow : ((a.attach p key q).nodes p).low < m := by rw [attach_low]; exact hLow
  have hbHigh : m < ((a.attach p key q).nodes p).high := by rw [attach_high]; exact hHigh
  have hbParent : ((a.attach p key q).nodes p).parent = (a.nodes p).parent :=
    attach_parent_of_ne (Ne.symm hFits.ne)
  have hParentEq : (t'.nodes p).parent = (a.nodes p).parent := by
    rw [(hRep'.nodes p (Nat.lt_succ_of_lt hFits.lt)).parent, split_parent_self, hbParent]
  rw [hRet]
  simp only [hParentEq]
  cases hParent : (a.nodes p).parent with
  | some parent =>
      exact ⟨_, Outcome.post hAdv hFits.lt hbLow hbHigh (fun _ => hChild)
        (hbParent.trans hParent) hRep' (fun f hf => hf.attach) rfl rfl false⟩
  | none =>
      obtain rfl := (hRoot p hFits.lt).mp hParent
      exact ⟨_, Outcome.grow (b := a.attach a.root key q) hAdv hbLow hbHigh (fun _ => hChild)
        hRep' (fun f hf => hf.attach)⟩

/-- The virtual `execute()` of a task in flight. -/
theorem execute_outcome [Zero V] {ex : Execution K V} (hRep : Rep L t a) (hValid : a.Valid)
    (hRoot : a.RootOnly) (hTask : TaskOK a task)
    (hUnposted : ∀ q, task.carried = some q → a.Unposted q)
    (hEx : task.execute L coreId t = some ex) :
    ∃ a', Outcome L a a' task (task.leafStep t) ex := by
  obtain ⟨p, hAnn, _⟩ := hTask.annotated
  unfold Task.execute at hEx
  rw [hAnn] at hEx
  simp only [Option.some.injEq] at hEx
  subst hEx
  cases hBody : task.body with
  | insertValue key value =>
      exact insertValueExecute_outcome coreId hRep hValid hRoot hTask hBody hAnn
  | insertSeparator key separator =>
      exact insertSeparatorExecute_outcome coreId hRep hValid hRoot hTask hBody hAnn hUnposted
  | lookup key value core =>
      exact ⟨a, lookupExecute_outcome coreId hRep hValid hRoot hTask hBody hAnn⟩
  | update key value =>
      exact updateExecute_outcome coreId hRep hValid hRoot hTask hBody hAnn

end Tasks

/-! ## Every step, every run -/

section System

variable [Zero V] {L : Layout K V} {s s' : State K V} {a : AbstractTree K V} {e : Event K V}

/-- One step keeps the invariant and applies the leaf step to the contents. -/
theorem Inv.step (h : Inv L s a) (hStep : BoundedStep L s e s') :
    ∃ a', Inv L s' a' ∧ a.Extends a' ∧
      ∀ f, a.Contains f → a'.Contains (e.mapOp.elim f (MapOp.apply f)) := by
  obtain ⟨hBound, hStep⟩ := hStep
  cases hStep with
  | spawn request isReadonly hRequest =>
      exact ⟨a, h.spawn hRequest hBound isReadonly, Extends.refl a, fun _ hf => hf⟩
  | @execute coreId task rest ex hTasks hEx =>
      have hMem : task ∈ s.tasks := by rw [hTasks]; exact Multiset.mem_cons_self task rest
      have hUnposted : ∀ q, task.carried = some q → a.Unposted q := by
        intro q hq
        rw [← h.carried q, hTasks, carriedSeparators_cons, hq]
        simp
      obtain ⟨a', hOut⟩ := execute_outcome coreId h.rep h.valid h.rootOnly (h.tasks task hMem)
        hUnposted hEx
      obtain ⟨done, fresh, hAdv, hCarry⟩ := hOut.advance
      exact ⟨a', h.advance hTasks hOut.rep hAdv hOut.ok hCarry, hAdv.grows, hOut.contains⟩

/-- Every run keeps the invariant, and the contents are the map of the log. -/
theorem Inv.run [Nontrivial K] {memory : Nat → Node K V} {log : List (Event K V)}
    (hRun : Verified.Run (BoundedStep L) (State.initial memory) log s) :
    ∃ a, Inv L s a ∧ a.Contains (mapAfter log) := by
  refine hRun.log_invariant (P := fun log s => ∃ a, Inv L s a ∧ a.Contains (mapAfter log))
    ?_ ?_
  · refine ⟨_, Inv.initial L memory, fun k v => ?_⟩
    simp [Stores, mapAfter]
  · rintro log e mid fin ⟨a, hInv, hContains⟩ hStep
    obtain ⟨a', hInv', _, hContains'⟩ := hInv.step hStep
    refine ⟨a', hInv', ?_⟩
    rw [mapAfter_snoc]
    exact hContains' _ hContains

end System

end MxTasking.BLinkTree
