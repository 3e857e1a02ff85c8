import MxTasking.BLinkTree.System
import MxTasking.BLinkTree.Refinement
import Mathlib.Data.Multiset.Filter
import Mathlib.Data.Multiset.UnionInter

/-!
# The invariant of the tree with its tasks in flight

A step of the system moves the abstract tree forward (`Advance`): nodes keep their
level and low bound, at most one node that was not posted becomes posted and at most one new node
appears that is not.  The tasks in flight make up for what the tree lacks
(`Inv`): every task is annotated with a node that is not right of its key, and the
nodes that are not posted are the separators the tasks carry, each carried once.

That a task never has to look left is the heart of it: low bounds never change,
so an annotation that was not right of the key when it was made never will be.

## Main results

* `Advance.put`, `Advance.attach`, `Advance.split`, `Advance.splitGrow` and `Advance.trans`.
* `Inv.initial`, `Inv.spawn`, `Inv.advance` — the invariant over one step.
-/

namespace MxTasking.BLinkTree

open AbstractTree

variable {K V : Type*}

/-! ## What tasks carry -/

/-- The separator a task carries. -/
def Task.carried (task : Task K V) : Option Nat :=
  match task.body with
  | .insertSeparator _ separator => separator
  | _ => none

/-- The separators carried by the tasks in flight. -/
def carriedSeparators (tasks : Multiset (Task K V)) : Multiset Nat :=
  tasks.filterMap Task.carried

theorem carriedSeparators_cons (task : Task K V) (rest : Multiset (Task K V)) :
    carriedSeparators (task ::ₘ rest) = ↑task.carried.toList + carriedSeparators rest := by
  unfold carriedSeparators
  cases hCarried : task.carried with
  | none => rw [Multiset.filterMap_cons_none _ _ hCarried]; simp
  | some q => rw [Multiset.filterMap_cons_some _ _ _ hCarried]; simp

theorem carriedSeparators_successor (successor : Option (Task K V))
    (rest : Multiset (Task K V)) :
    carriedSeparators ((successor.toList : Multiset (Task K V)) + rest) =
      ↑(successor.bind Task.carried).toList + carriedSeparators rest := by
  cases successor with
  | none => simp
  | some task => simpa using carriedSeparators_cons task rest

/-! ## Moving the tree forward -/

namespace AbstractTree

theorem Extends.refl (a : AbstractTree K V) : a.Extends a :=
  ⟨le_refl _, fun _ _ => rfl, fun _ _ => rfl⟩

theorem Extends.trans {a b c : AbstractTree K V} (h : a.Extends b) (h' : b.Extends c) :
    a.Extends c := by
  refine ⟨le_trans h.count_le h'.count_le, fun p hp => ?_, fun p hp => ?_⟩
  · rw [h'.level_eq p (lt_of_lt_of_le hp h.count_le), h.level_eq p hp]
  · rw [h'.low_eq p (lt_of_lt_of_le hp h.count_le), h.low_eq p hp]

variable [LinearOrder K] [BoundedOrder K]

/-- A node besides the root that is nobody's child. -/
def Unposted (a : AbstractTree K V) (q : Nat) : Prop :=
  q < a.count ∧ q ≠ a.root ∧ ¬ a.Posted q

/-- From `a` to `a'`, `done` has been posted and `fresh` is new and not posted. -/
structure Advance (a a' : AbstractTree K V) (done fresh : Option Nat) : Prop where
  valid : a'.Valid
  rootOnly : a'.RootOnly
  grows : a.Extends a'
  unposted : ∀ q, a'.Unposted q ↔ fresh = some q ∨ (a.Unposted q ∧ done ≠ some q)
  fresh_le : ∀ q, fresh = some q → a.count ≤ q

/-- The records of the leaves are the map `m`. -/
def Contains (a : AbstractTree K V) (m : K → Option V) : Prop :=
  ∀ k v, a.Stores k v ↔ m k = some v

/-- A child is a node of the tree. -/
theorem Valid.lt_of_posted {a : AbstractTree K V} {q : Nat} (h : a.Valid)
    (hPosted : a.Posted q) : q < a.count := by
  obtain ⟨p, hp, b, hChild⟩ := hPosted
  exact (h.child_some p hp b q hChild).1

section Advance

variable {a b c : AbstractTree K V} {p q : Nat} {k m : K} {v : V} {done fresh : Option Nat}

theorem Advance.refl (h : a.Valid) (hRoot : a.RootOnly) : Advance a a none none :=
  { valid := h
    rootOnly := hRoot
    grows := Extends.refl a
    unposted := fun q => by simp
    fresh_le := fun q hq => absurd hq (by simp) }

/-- A step that only posts, followed by one that only creates. -/
theorem Advance.trans (h : Advance a b done none) (h' : Advance b c none fresh) :
    Advance a c done fresh :=
  { valid := h'.valid
    rootOnly := h'.rootOnly
    grows := h.grows.trans h'.grows
    unposted := fun q => by rw [h'.unposted, h.unposted]; simp
    fresh_le := fun q hq => le_trans h.grows.count_le (h'.fresh_le q hq) }

theorem Advance.put (h : a.Valid) (hRoot : a.RootOnly) (hp : p < a.count)
    (hLeaf : (a.nodes p).level = 0) (hk : (a.nodes p).low ≤ k ∧ k < (a.nodes p).high) :
    Advance a (a.put p k v) none none :=
  { valid := h.put hp hLeaf hk
    rootOnly := put_rootOnly hRoot
    grows := put_extends a p k v
    unposted := fun q => by simp [Unposted, put_posted]
    fresh_le := fun q hq => absurd hq (by simp) }

theorem Advance.attach (h : a.Valid) (hRoot : a.RootOnly) (hFits : a.Fits p k q)
    (hq : a.Unposted q) : Advance a (a.attach p k q) (some q) none :=
  { valid := h.attach hFits hq.2.2
    rootOnly := attach_rootOnly hRoot hFits.ne hq.2.1
    grows := attach_extends a p k q
    unposted := fun x => by
      simp only [Unposted, attach_count, attach_root, attach_posted h hFits hq.2.2,
        reduceCtorEq, false_or, not_or, ne_eq, Option.some.injEq]
      tauto
    fresh_le := fun x hx => absurd hx (by simp) }

/-- Splitting a node that has a parent. -/
theorem Advance.split (h : a.Valid) (hRoot : a.RootOnly) (hp : p < a.count)
    (hne : p ≠ a.root) (hLow : (a.nodes p).low < m) (hHigh : m < (a.nodes p).high)
    (hChild : 0 < (a.nodes p).level → (a.nodes p).child m ≠ none) :
    Advance a (a.split p m) none (some a.count) :=
  { valid := h.split hp hLow hHigh hChild
    rootOnly := split_rootOnly h hRoot hp hne
    grows := split_extends a p m
    unposted := fun q => by
      simp only [Unposted, split_count, split_root, split_posted hp, Option.some.injEq, ne_eq,
        reduceCtorEq, not_false_eq_true, and_true]
      constructor
      · rintro ⟨hq, hqr, hPosted⟩
        rcases Nat.lt_or_eq_of_le (Nat.le_of_lt_succ hq) with hlt | hEq
        · exact Or.inr ⟨hlt, hqr, hPosted⟩
        · exact Or.inl hEq.symm
      · rintro (rfl | ⟨hq, hqr, hPosted⟩)
        · exact ⟨Nat.lt_succ_self _, Nat.ne_of_gt h.root_lt,
            fun hPosted => absurd (h.lt_of_posted hPosted) (Nat.lt_irrefl _)⟩
        · exact ⟨Nat.lt_succ_of_lt hq, hqr, hPosted⟩
    fresh_le := fun q hq => by rw [Option.some.injEq] at hq; exact le_of_eq hq }

/-- After a split of the root, the root and its sibling are the nodes without a parent. -/
theorem Valid.rootSplit (h : a.Valid) (hRoot : a.RootOnly)
    (hLow : (a.nodes a.root).low < m) : (a.split a.root m).RootSplit a.count m := by
  have hNew := split_new h.root_lt m
  have hRootNe : a.root ≠ a.count := Nat.ne_of_lt h.root_lt
  refine
    { lt := Nat.lt_succ_self _
      level_eq := by rw [hNew, split_root, split_level hRootNe]
      low_eq := by rw [hNew]
      bot_lt := lt_of_le_of_lt bot_le hLow
      root_low := by rw [split_root, split_low hRootNe]; exact h.root_low hRoot
      parent_none := fun x hx => ?_ }
  rw [split_parent_none h h.root_lt hx, split_root]
  have hRootNone := (hRoot a.root h.root_lt).mpr rfl
  split
  · rename_i hEq
    exact ⟨fun _ => Or.inr hEq, fun _ => hRootNone⟩
  · rename_i hne
    rw [hRoot x (by rw [split_count] at hx; omega)]
    exact ⟨Or.inl, fun hOr => hOr.resolve_right hne⟩

/-- Splitting the root and putting a new one over the halves. -/
theorem Advance.splitGrow (h : a.Valid) (hRoot : a.RootOnly)
    (hLow : (a.nodes a.root).low < m) (hHigh : m < (a.nodes a.root).high)
    (hChild : 0 < (a.nodes a.root).level → (a.nodes a.root).child m ≠ none) :
    Advance a ((a.split a.root m).grow a.count m) none none := by
  have hSplit := h.rootSplit hRoot hLow
  have hNotPosted := h.not_posted_root hRoot
  refine
    { valid := (h.split h.root_lt hLow hHigh hChild).grow hSplit
      rootOnly := grow_rootOnly hSplit
      grows := (split_extends a a.root m).trans (grow_extends _ a.count m)
      unposted := fun q => ?_
      fresh_le := fun q hq => absurd hq (by simp) }
  simp only [Unposted, grow_count, grow_root, grow_posted hSplit, split_count, split_root,
    split_posted h.root_lt, reduceCtorEq, false_or, ne_eq, not_false_eq_true, and_true, not_or]
  constructor
  · rintro ⟨hq, hqn, hPosted, hqr, hqc⟩
    exact ⟨by omega, hqr, hPosted⟩
  · rintro ⟨hq, hqr, hPosted⟩
    exact ⟨by omega, by omega, hPosted, hqr, by omega⟩

/-- A leaf that owns a key knows what the map has there. -/
theorem Contains.record_eq {f : K → Option V} (hf : a.Contains f) (h : a.Valid)
    (hp : p < a.count) (hLeaf : (a.nodes p).level = 0)
    (hk : (a.nodes p).low ≤ k ∧ k < (a.nodes p).high) : (a.nodes p).record k = f k := by
  refine Option.ext (fun v => ?_)
  rw [← hf k v]
  constructor
  · exact fun hRec => ⟨p, hp, hRec⟩
  · rintro ⟨x, hx, hRec⟩
    obtain ⟨hLevel, hRange⟩ := h.record_some x hx k v hRec
    rwa [← h.owner_unique hx hp (hLevel.trans hLeaf.symm) hRange hk]

theorem Contains.put {f : K → Option V} (hf : a.Contains f) (h : a.Valid) (hp : p < a.count)
    (hLeaf : (a.nodes p).level = 0) (hk : (a.nodes p).low ≤ k ∧ k < (a.nodes p).high) :
    (a.put p k v).Contains (Function.update f k (some v)) := by
  intro k' v'
  rw [put_stores h hp hLeaf hk]
  by_cases hkk : k' = k
  · subst hkk; simp [eq_comm]
  · simp [hkk, hf k' v']

omit [BoundedOrder K] in
theorem Contains.attach {f : K → Option V} (hf : a.Contains f) :
    (a.attach p k q).Contains f := fun k' v' => by rw [attach_stores]; exact hf k' v'

omit [BoundedOrder K] in
theorem Contains.split {f : K → Option V} (hf : a.Contains f) (hp : p < a.count) :
    (a.split p m).Contains f := fun k' v' => by rw [split_stores hp]; exact hf k' v'

theorem Contains.grow {f : K → Option V} (hf : a.Contains f) :
    (a.grow q m).Contains f := fun k' v' => by rw [grow_stores]; exact hf k' v'

end Advance

end AbstractTree

variable [LinearOrder K] [BoundedOrder K]

/-! ## Tasks in flight -/

/-- A task in flight is annotated with a node that is not right of its key; a
separator task with one on the level above its separator. -/
structure TaskOK (a : AbstractTree K V) (task : Task K V) : Prop where
  key_lt : task.body.key < ⊤
  annotated : ∃ p, task.annotatedResource = some p ∧ p < a.count ∧
    (a.nodes p).low ≤ task.body.key
  separator : ∀ key sep, task.body = .insertSeparator key sep →
    ∃ p q, task.annotatedResource = some p ∧ sep = some q ∧ q < a.count ∧
      (a.nodes q).level + 1 = (a.nodes p).level ∧ (a.nodes q).low = key

/-- The invariant of the system; `a` is the abstract tree in memory. -/
structure Inv (L : Layout K V) (s : State K V) (a : AbstractTree K V) : Prop where
  rep : Rep L s.tree a
  valid : a.Valid
  rootOnly : a.RootOnly
  tasks : ∀ task ∈ s.tasks, TaskOK a task
  nodup : (carriedSeparators s.tasks).Nodup
  carried : ∀ q, q ∈ carriedSeparators s.tasks ↔ a.Unposted q

/-- Nothing a task relies on is lost when the tree grows. -/
theorem TaskOK.mono {a a' : AbstractTree K V} {task : Task K V} (h : TaskOK a task)
    (hExt : a.Extends a') : TaskOK a' task := by
  refine ⟨h.key_lt, ?_, ?_⟩
  · obtain ⟨p, hAnn, hp, hLow⟩ := h.annotated
    exact ⟨p, hAnn, lt_of_lt_of_le hp hExt.count_le, by rw [hExt.low_eq p hp]; exact hLow⟩
  · intro key sep hBody
    obtain ⟨p, q, hAnn, hSep, hq, hLevel, hLow⟩ := h.separator key sep hBody
    obtain ⟨p', hAnn', hp, _⟩ := h.annotated
    obtain rfl : p' = p := by simpa [hAnn] using hAnn'.symm
    refine ⟨p', q, hAnn, hSep, lt_of_lt_of_le hq hExt.count_le, ?_, ?_⟩
    · rw [hExt.level_eq q hq, hExt.level_eq p' hp]; exact hLevel
    · rw [hExt.low_eq q hq]; exact hLow

namespace Inv

variable {L : Layout K V} {s : State K V} {a a' : AbstractTree K V} {task : Task K V}
  {rest : Multiset (Task K V)} {done fresh : Option Nat}

/-- The initial state. -/
theorem initial [Nontrivial K] (L : Layout K V) (memory : Nat → Node K V) :
    Inv L (State.initial memory)
      { count := 1
        root := 0
        nodes := fun _ => ⟨0, ⊥, ⊤, none, none, fun _ => none, fun _ => none⟩ } := by
  refine
    { rep := Rep.construct L memory
      valid := ?_
      rootOnly := ?_
      tasks := fun task hTask => absurd hTask (Multiset.notMem_zero task)
      nodup := Multiset.nodup_zero
      carried := fun q => ⟨fun hq => absurd hq (Multiset.notMem_zero q), ?_⟩ }
  · exact
      { root_lt := Nat.zero_lt_one
        range := fun _ _ => bot_lt_top
        right_none := fun _ _ _ => rfl
        right_some := fun _ _ _ h => absurd h (by simp)
        disjoint := fun p hp q hq _ hne => absurd (show p = q from by simp at hp hq; omega) hne
        bottom := fun l hl => ⟨0, Nat.zero_lt_one, (Nat.le_zero.mp hl).symm, rfl⟩
        level_le := fun _ _ => le_refl _
        child_some := fun _ _ _ _ h => absurd h (by simp)
        child_low := fun _ _ h => absurd h (by simp)
        record_some := fun _ _ _ _ h => absurd h (by simp)
        parent_some := fun _ _ _ h => absurd h (by simp) }
  · exact fun p hp => ⟨fun _ => by simp at hp; exact hp, fun _ => rfl⟩
  · rintro ⟨hq, hqr, _⟩
    simp at hq hqr
    omega

/-- Spawning a request. -/
theorem spawn (h : Inv L s a) {request : TaskBody K V} (hRequest : request.IsRequest)
    (hKey : request.key < ⊤) (isReadonly : Bool) :
    Inv L { s with tasks := ⟨request, s.tree.root, isReadonly⟩ ::ₘ s.tasks } a := by
  have hNone : (⟨request, s.tree.root, isReadonly⟩ : Task K V).carried = none := by
    cases request <;> simp_all [Task.carried, TaskBody.IsRequest]
  have hCarried : carriedSeparators (⟨request, s.tree.root, isReadonly⟩ ::ₘ s.tasks) =
      carriedSeparators s.tasks := by
    rw [carriedSeparators_cons, hNone]; simp
  refine
    { rep := h.rep
      valid := h.valid
      rootOnly := h.rootOnly
      tasks := fun task hTask => ?_
      nodup := by rw [hCarried]; exact h.nodup
      carried := fun q => by rw [hCarried]; exact h.carried q }
  rcases Multiset.mem_cons.mp hTask with rfl | hOld
  · refine ⟨hKey, ⟨a.root, h.rep.root, h.valid.root_lt, ?_⟩, ?_⟩
    · rw [h.valid.root_low h.rootOnly]; exact bot_le
    · rintro key sep rfl
      exact absurd hRequest (by simp [TaskBody.IsRequest])
  · exact h.tasks task hOld

/-- One execution: either the task posts what it carried and its successor carries
the new node, or it moves on with what it carries. -/
theorem advance {t' : Tree K V} {successor : Option (Task K V)} (h : Inv L s a)
    (hTasks : s.tasks = task ::ₘ rest) (hRep : Rep L t' a') (hAdv : Advance a a' done fresh)
    (hOk : ∀ task', successor = some task' → TaskOK a' task')
    (hCarry : (done = task.carried ∧ successor.bind Task.carried = fresh) ∨
      (done = none ∧ fresh = none ∧ successor.bind Task.carried = task.carried)) :
    Inv L { tree := t', tasks := ↑successor.toList + rest } a' := by
  have hNodup := h.nodup
  have hMem := h.carried
  rw [hTasks, carriedSeparators_cons] at hNodup
  simp only [hTasks, carriedSeparators_cons, Multiset.mem_add, Multiset.mem_coe,
    Option.mem_toList] at hMem
  have hRest : (carriedSeparators rest).Nodup := (Multiset.nodup_add.mp hNodup).2.1
  have hDisj := (Multiset.nodup_add.mp hNodup).2.2
  -- a carried separator is one of the old tree, the new node is not
  have hOld : ∀ q, q ∈ carriedSeparators rest → q < a.count := fun q hq =>
    ((hMem q).mp (Or.inr hq)).1
  refine
    { rep := hRep
      valid := hAdv.valid
      rootOnly := hAdv.rootOnly
      tasks := ?_
      nodup := ?_
      carried := ?_ }
  · intro task' hTask'
    rcases Multiset.mem_add.mp hTask' with hSucc | hIn
    · refine hOk task' ?_
      simpa using hSucc
    · exact (h.tasks task' (by rw [hTasks]; exact Multiset.mem_cons_of_mem hIn)).mono hAdv.grows
  · simp only [carriedSeparators_successor]
    rcases hCarry with ⟨_, hSucc⟩ | ⟨_, _, hSucc⟩
    · rw [hSucc]
      cases hFresh : fresh with
      | none => simpa using hRest
      | some q =>
          have hNot : q ∉ carriedSeparators rest := fun hq =>
            absurd (hOld q hq) (Nat.not_lt.mpr (hAdv.fresh_le q hFresh))
          simpa using ⟨hNot, hRest⟩
    · rw [hSucc]; exact hNodup
  · intro q
    simp only [carriedSeparators_successor, Multiset.mem_add, Multiset.mem_coe,
      Option.mem_toList]
    rw [hAdv.unposted, ← hMem]
    rcases hCarry with ⟨rfl, hSucc⟩ | ⟨rfl, rfl, hSucc⟩
    · rw [hSucc]
      constructor
      · rintro (hFresh | hIn)
        · exact Or.inl hFresh
        · refine Or.inr ⟨Or.inr hIn, fun hEq => ?_⟩
          exact Multiset.disjoint_left.mp hDisj (by simpa using hEq) hIn
      · rintro (hFresh | ⟨hEq | hIn, hne⟩)
        · exact Or.inl hFresh
        · exact absurd hEq hne
        · exact Or.inr hIn
    · rw [hSucc]; simp

end Inv

end MxTasking.BLinkTree
