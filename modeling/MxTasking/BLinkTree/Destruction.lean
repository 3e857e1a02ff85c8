import MxTasking.BLinkTree.Requests
import MxTasking.Tasking.Synchronization
import MxTasking.Verified.Traversal

/-!
# Destroying the tree

`~BLinkTree` hands the root to `Builder::destroy`.  What becomes of a node there depends
on its synchronization primitive.  Most nodes are destroyed at once, and their destructor
does the same with every separator; a node that may be read optimistically goes to the garbage
queue, and only `EpochManager::reclaim_all` calls its destructor, which may append further nodes
to the queue that is being drained.  The two ways mix as the primitives of the nodes do.

The destructor reads the node and the allocator must not be given a node twice; both are undefined
for memory that was freed, and so is the result here (`none`).  Recursion and loop have
fuel.  The queue is the list of its elements; that `remove_epoch` is stored in the node is left
out, as `reclaim_all` does not read it.

## Main results

* `destruction_of_run` — every node is destroyed and freed once, and nothing else is.
-/

namespace MxTasking.BLinkTree

open AbstractTree
open MxTasking.Tasking (Primitive)
open MxTasking.Verified.Traversal

/-! ## The program -/

/-- The nodes whose destructor was entered, the nodes whose memory was freed and
`_global_garbage_queue`. -/
structure Reclamation where
  destroyed : List Nat
  freed : List Nat
  garbage : List Nat
  deriving DecidableEq, Repr

/-- `is_optimistic(primitive)`. -/
def isOptimistic (primitive : Primitive) : Bool :=
  primitive = .scheduleWriter ∨ primitive = .olfit

/-- `EpochManager::add_to_garbage_collection`. -/
def Reclamation.addToGarbageCollection (g : Reclamation) (resource : Nat) : Reclamation :=
  { g with garbage := g.garbage ++ [resource] }

/-- `Allocator::free`. -/
def Reclamation.free (g : Reclamation) (pointer : Nat) : Option Reclamation :=
  if pointer ∈ g.freed then none else some { g with freed := g.freed ++ [pointer] }

section Program

variable {K V : Type*} (t : Tree K V) (primitive : Nat → Primitive)

/-- `Node::~Node` and `Node::on_reclaim`; `deleteResource` is what is called for a separator. -/
def destructNode (deleteResource : Ptr → Reclamation → Option Reclamation) (p : Nat)
    (g : Reclamation) : Option Reclamation :=
  if p ∈ g.freed then none
  else
    let node := t.nodes p
    let g := { g with destroyed := g.destroyed ++ [p] }
    if node.isInner then
      (List.range (node.size + 1)).foldlM
        (fun g i =>
          if node.separators i ≠ none then deleteResource (node.separators i) g else some g) g
    else some g

/-- `Builder::destroy`. -/
def destroy : Nat → Ptr → Reclamation → Option Reclamation
  | 0, _, _ => none
  | _ + 1, none, g => some g
  | fuel + 1, some p, g =>
      if isOptimistic (primitive p) then some (g.addToGarbageCollection p)
      else (destructNode t (destroy fuel) p g).bind fun g => g.free p

/-- `EpochManager::reclaim_all`, with the global garbage queue. -/
def reclaimAll : Nat → Reclamation → Option Reclamation
  | 0, _ => none
  | fuel + 1, g =>
      match g.garbage with
      | [] => some g
      | p :: rest =>
          (destructNode t (destroy t primitive fuel) p { g with garbage := rest }).bind fun g =>
            (g.free p).bind (reclaimAll fuel)

/-- `~BLinkTree` and then `reclaim_all`. -/
def destroyTree (fuel : Nat) : Option Reclamation :=
  (destroy t primitive fuel t.root ⟨[], [], []⟩).bind (reclaimAll t primitive fuel)

/-- The separators of a node. -/
def children (p : Nat) : List Nat :=
  if (t.nodes p).isInner then
    (List.range ((t.nodes p).size + 1)).filterMap (t.nodes p).separators
  else []

end Program

/-! ## One node after the other -/

section Spec

variable {K V : Type*} {t : Tree K V} {primitive : Nat → Primitive} {root : Nat}
  {level : Nat → Nat} {g : Reclamation} {stack opened : Multiset Nat} {p : Nat}

/-- `stack` is still to be handed to `destroy` and the destructors of `opened` are running. -/
structure Reclaiming (t : Tree K V) (root : Nat) (g : Reclamation)
    (stack opened : Multiset Nat) : Prop where
  frontier : Frontier (Finset.range t.count) root (children t) ↑g.destroyed (↑g.garbage + stack)
  opened_eq : (g.destroyed : Multiset Nat) = ↑g.freed + opened

/-- What handing `p` to `deleteResource` comes to. -/
def Deletes (t : Tree K V) (root : Nat) (deleteResource : Ptr → Reclamation → Option Reclamation)
    (p : Nat) : Prop :=
  ∀ g stack opened, Reclaiming t root g (p ::ₘ stack) opened →
    ∃ g', deleteResource (some p) g = some g' ∧ Reclaiming t root g' stack opened ∧
      g.destroyed.length ≤ g'.destroyed.length

/-- A loop that skips null pointers is one over the others. -/
theorem foldlM_skip_null (deleteResource : Ptr → Reclamation → Option Reclamation)
    (separators : Nat → Ptr) (l : List Nat) :
    ∀ g, l.foldlM (fun g i =>
        if separators i ≠ none then deleteResource (separators i) g else some g) g =
      (l.filterMap separators).foldlM (fun g q => deleteResource (some q) g) g := by
  induction l with
  | nil => exact fun g => rfl
  | cons i l ih =>
      intro g
      cases hSep : separators i with
      | none => simpa [hSep] using ih g
      | some q =>
          simp only [List.foldlM_cons, hSep, ne_eq, reduceCtorEq, not_false_eq_true, if_true,
            List.filterMap_cons_some hSep]
          exact congrArg _ (funext ih)

theorem destructNode_eq (deleteResource : Ptr → Reclamation → Option Reclamation) (p : Nat)
    (g : Reclamation) (hp : p ∉ g.freed) :
    destructNode t deleteResource p g =
      (children t p).foldlM (fun g q => deleteResource (some q) g)
        { g with destroyed := g.destroyed ++ [p] } := by
  unfold destructNode children
  by_cases hInner : (t.nodes p).isInner = true
  · simp only [if_neg hp, if_pos hInner]
    exact foldlM_skip_null _ _ _ _
  · simp only [if_neg hp, if_neg hInner]
    rfl

/-- Deleting a list of nodes, one after the other. -/
theorem Deletes.foldlM {deleteResource : Ptr → Reclamation → Option Reclamation} :
    ∀ (l : List Nat) (g : Reclamation), (∀ q ∈ l, Deletes t root deleteResource q) →
      Reclaiming t root g (↑l + stack) opened →
      ∃ g', l.foldlM (fun g q => deleteResource (some q) g) g = some g' ∧
        Reclaiming t root g' stack opened ∧ g.destroyed.length ≤ g'.destroyed.length := by
  intro l
  induction l with
  | nil => exact fun g _ hg => ⟨g, rfl, by simpa using hg, le_refl _⟩
  | cons q l ih =>
      intro g hAll hg
      rw [← Multiset.cons_coe, Multiset.cons_add] at hg
      obtain ⟨g₁, hEq₁, hg₁, hLe₁⟩ := hAll q (List.mem_cons_self ..) g _ _ hg
      obtain ⟨g₂, hEq₂, hg₂, hLe₂⟩ := ih g₁ (fun x hx => hAll x (List.mem_cons_of_mem q hx)) hg₁
      exact ⟨g₂, by simp [hEq₁, hEq₂], hg₂, le_trans hLe₁ hLe₂⟩

/-- A node that is still pending has not been freed. -/
theorem Reclaiming.not_mem_freed (h : Reclaiming t root g (p ::ₘ stack) opened)
    (hTree : IsTree (Finset.range t.count) root (children t) level) : p ∉ g.freed := by
  intro hFreed
  have hNodup := h.frontier.nodup hTree
  have hIn : p ∈ (g.destroyed : Multiset Nat) := by
    rw [h.opened_eq]
    exact Multiset.mem_add.mpr (Or.inl hFreed)
  have hDisj := (Multiset.nodup_add.mp hNodup).2.2
  exact Multiset.disjoint_left.mp hDisj hIn
    (Multiset.mem_add.mpr (Or.inr (Multiset.mem_cons_self p stack)))

theorem coe_append_singleton (l : List Nat) (p : Nat) :
    ((l ++ [p] : List Nat) : Multiset Nat) = p ::ₘ ↑l := by
  rw [← Multiset.coe_add, Multiset.add_comm]
  rfl

/-- The destructor of a pending node. -/
theorem destructNode_spec {deleteResource : Ptr → Reclamation → Option Reclamation}
    (hTree : IsTree (Finset.range t.count) root (children t) level)
    (hDeletes : ∀ q ∈ children t p, Deletes t root deleteResource q)
    (h : Reclaiming t root g (p ::ₘ stack) opened) :
    ∃ g', destructNode t deleteResource p g = some g' ∧
      Reclaiming t root g' stack (p ::ₘ opened) ∧ g.destroyed.length < g'.destroyed.length := by
  rw [destructNode_eq _ p g (h.not_mem_freed hTree)]
  have hp : p ∈ Finset.range t.count := h.frontier.found_mem hTree (by simp)
  have hOpen : Reclaiming t root { g with destroyed := g.destroyed ++ [p] }
      (↑(children t p) + stack) (p ::ₘ opened) := by
    refine ⟨?_, ?_⟩
    · have hVisit := (show Frontier _ root (children t) ↑g.destroyed (p ::ₘ (↑g.garbage + stack)) by
        rw [← Multiset.add_cons]; exact h.frontier).visit hp
      rw [coe_append_singleton]
      simpa [add_left_comm] using hVisit
    · rw [coe_append_singleton, h.opened_eq, Multiset.add_cons]
  obtain ⟨g', hEq, hg', hLe⟩ := Deletes.foldlM (children t p) _ hDeletes hOpen
  refine ⟨g', hEq, hg', ?_⟩
  simp only [List.length_append, List.length_singleton] at hLe
  omega

/-- Freeing a node whose destructor has run. -/
theorem Reclaiming.free (h : Reclaiming t root g stack (p ::ₘ opened))
    (hTree : IsTree (Finset.range t.count) root (children t) level) :
    ∃ g', g.free p = some g' ∧ Reclaiming t root g' stack opened ∧
      g'.destroyed = g.destroyed := by
  have hNodup := (Multiset.nodup_add.mp (h.frontier.nodup hTree)).1
  rw [h.opened_eq] at hNodup
  have hNot : p ∉ g.freed := fun hFreed =>
    Multiset.disjoint_left.mp (Multiset.nodup_add.mp hNodup).2.2 hFreed
      (Multiset.mem_cons_self p opened)
  refine ⟨_, if_neg hNot, ⟨h.frontier, ?_⟩, rfl⟩
  rw [h.opened_eq, coe_append_singleton, Multiset.add_cons, Multiset.cons_add]

/-- `destroy` of a pending node: it goes to the queue, or it is destroyed with everything below
that does not go there.  The induction is on the fuel, which the level bounds. -/
theorem destroy_deletes (primitive : Nat → Primitive)
    (hTree : IsTree (Finset.range t.count) root (children t) level) :
    ∀ fuel p, p ∈ Finset.range t.count → level p < fuel →
      Deletes t root (destroy t primitive fuel) p := by
  intro fuel
  induction fuel with
  | zero => intro p _ hLevel; omega
  | succ fuel ih =>
      intro p hp hLevel g stack opened h
      unfold destroy
      by_cases hOptimistic : isOptimistic (primitive p) = true
      · rw [if_pos hOptimistic]
        refine ⟨_, rfl, ⟨?_, h.opened_eq⟩, le_refl _⟩
        have hFrontier := h.frontier
        rw [Multiset.add_cons, ← Multiset.cons_add] at hFrontier
        rw [← coe_append_singleton] at hFrontier
        exact hFrontier
      · rw [if_neg hOptimistic]
        have hDeletes : ∀ q ∈ children t p, Deletes t root (destroy t primitive fuel) q := by
          intro q hq
          obtain ⟨hqMem, hqLevel⟩ := hTree.child_mem p hp q hq
          exact ih q hqMem (by omega)
        obtain ⟨g₁, hEq₁, hg₁, hLt₁⟩ := destructNode_spec hTree hDeletes h
        obtain ⟨g₂, hEq₂, hg₂, hSame⟩ := hg₁.free hTree
        refine ⟨g₂, ?_, hg₂, by rw [hSame]; omega⟩
        rw [hEq₁, Option.bind_some, hEq₂]

/-- Destroyed nodes are different nodes of the tree. -/
theorem Reclaiming.length_le (h : Reclaiming t root g stack opened)
    (hTree : IsTree (Finset.range t.count) root (children t) level) :
    g.destroyed.length ≤ t.count := by
  have hNodup := (Multiset.nodup_add.mp (h.frontier.nodup hTree)).1
  have hSub : (g.destroyed : Multiset Nat) ≤ (Finset.range t.count).val :=
    (Multiset.le_iff_subset hNodup).mpr h.frontier.mem
  simpa using Multiset.card_le_card hSub

/-- The loop of `reclaim_all` empties the queue.  Each round destroys at least the node it has
taken, so the number of nodes bounds the rounds. -/
theorem reclaimAll_spec (primitive : Nat → Primitive)
    (hTree : IsTree (Finset.range t.count) root (children t) level) {top : Nat}
    (hTop : ∀ p ∈ Finset.range t.count, level p < top) :
    ∀ fuel g, Reclaiming t root g 0 0 → t.count - g.destroyed.length + top < fuel →
      ∃ g', reclaimAll t primitive fuel g = some g' ∧ Reclaiming t root g' 0 0 ∧
        g'.garbage = [] := by
  intro fuel
  induction fuel with
  | zero => intro g _ hFuel; omega
  | succ fuel ih =>
      intro g h hFuel
      unfold reclaimAll
      cases hGarbage : g.garbage with
      | nil => exact ⟨g, rfl, h, hGarbage⟩
      | cons p rest =>
          have hPopped : Reclaiming t root { g with garbage := rest } (p ::ₘ 0) 0 := by
            refine ⟨?_, h.opened_eq⟩
            have hFrontier := h.frontier
            rw [hGarbage, Multiset.add_zero, ← Multiset.cons_coe] at hFrontier
            rw [Multiset.add_cons, Multiset.add_zero]
            exact hFrontier
          have hDeletes : ∀ q ∈ children t p, Deletes t root (destroy t primitive fuel) q := by
            intro q hq
            have hp : p ∈ Finset.range t.count := hPopped.frontier.found_mem hTree (by simp)
            have hqMem := (hTree.child_mem p hp q hq).1
            exact destroy_deletes primitive hTree fuel q hqMem (by have := hTop q hqMem; omega)
          obtain ⟨g₁, hEq₁, hg₁, hLt₁⟩ := destructNode_spec hTree hDeletes hPopped
          obtain ⟨g₂, hEq₂, hg₂, hSame⟩ := hg₁.free hTree
          have hBound := hg₂.length_le hTree
          have hMore : g.destroyed.length < g₂.destroyed.length := by rw [hSame]; exact hLt₁
          obtain ⟨g', hEq, hg', hEmpty⟩ := ih g₂ hg₂ (by omega)
          refine ⟨g', ?_, hg', hEmpty⟩
          simp only
          rw [hEq₁, Option.bind_some, hEq₂, Option.bind_some, hEq]

/-- Both ways together. -/
theorem destroyTree_spec (hTree : IsTree (Finset.range t.count) root (children t) level)
    (hRoot : t.root = some root) {top : Nat} (hTop : ∀ p ∈ Finset.range t.count, level p < top)
    (fuel : Nat) (hFuel : t.count + top < fuel) :
    ∃ g, destroyTree t primitive fuel = some g ∧ g.garbage = [] ∧
      g.destroyed.Perm (List.range t.count) ∧ g.freed.Perm (List.range t.count) := by
  have hStart : Reclaiming t root ⟨[], [], []⟩ (root ::ₘ 0) 0 :=
    ⟨by simpa using Frontier.initial, rfl⟩
  obtain ⟨g₁, hEq₁, hg₁, _⟩ := destroy_deletes primitive hTree fuel root
    hTree.root_mem (by have := hTop root hTree.root_mem; omega) _ _ _ hStart
  obtain ⟨g, hEq, hg, hEmpty⟩ := reclaimAll_spec primitive hTree hTop fuel g₁ hg₁
    (by omega)
  have hFrontier := hg.frontier
  rw [hEmpty] at hFrontier
  have hAll : (g.destroyed : Multiset Nat) = (List.range t.count : Multiset Nat) :=
    (show Frontier _ root (children t) ↑g.destroyed 0 from hFrontier).complete hTree
  have hFreed : (g.freed : Multiset Nat) = ↑g.destroyed := by
    rw [hg.opened_eq, Multiset.add_zero]
  refine ⟨g, ?_, hEmpty, Multiset.coe_eq_coe.mp hAll, Multiset.coe_eq_coe.mp (hFreed.trans hAll)⟩
  unfold destroyTree
  rw [hRoot, hEq₁, Option.bind_some, hEq]

end Spec

/-! ## The tree after a run -/

section Runs

variable {K V : Type*} {L : Layout K V} {t : Tree K V}
  {a : AbstractTree K V}

theorem mem_children {p q : Nat} (hp : p < t.count) :
    q ∈ children t p ↔ ∃ i, t.SeparatorAt q p i := by
  unfold children Tree.SeparatorAt
  by_cases hInner : (t.nodes p).isInner = true
  · rw [if_pos hInner]
    simp only [List.mem_filterMap, List.mem_range, Nat.lt_succ_iff, hp, hInner, true_and]
  · simp [hInner]

variable [LinearOrder K] [BoundedOrder K]

/-- The separators make the nodes a tree but for those that are not posted. -/
theorem Rep.isForest (h : Rep L t a) (hValid : a.Valid) (hRootOnly : a.RootOnly) :
    IsForest (Finset.range t.count) a.root (children t) fun p => (a.nodes p).level := by
  have hChild : ∀ {p q i}, p < t.count → t.SeparatorAt q p i →
      q < t.count ∧ (a.nodes q).level + 1 = (a.nodes p).level ∧
        (a.nodes p).child (a.nodes q).low = some q := by
    rintro p q i hp ⟨_, hInner, hi, hSep⟩
    rw [h.count] at hp
    obtain ⟨x, hx, hxLt, hLevel, _, hPost⟩ :=
      h.separator_spec hValid hp ((h.nodes p hp).isInner_iff.mp hInner) hi
    obtain rfl : q = x := by simpa [hSep] using hx
    exact ⟨by rw [h.count]; exact hxLt, hLevel, hPost⟩
  refine
    { root_mem := Finset.mem_range.mpr (by rw [h.count]; exact hValid.root_lt)
      child_mem := fun p hp x hx => ?_
      nodup := fun p hp => ?_
      unique := fun p hp q hq x hx hx' => ?_
      root_free := fun p hp hx => ?_ }
  · obtain ⟨i, hAt⟩ := (mem_children (Finset.mem_range.mp hp)).mp hx
    obtain ⟨hxLt, hLevel, _⟩ := hChild (Finset.mem_range.mp hp) hAt
    exact ⟨Finset.mem_range.mpr hxLt, by omega⟩
  · unfold children
    split
    · rename_i hInner
      rw [List.Nodup, List.pairwise_filterMap]
      refine List.Pairwise.imp_of_mem ?_ List.nodup_range
      rintro i j hi hj hne x hx y hy rfl
      rw [List.mem_range, Nat.lt_succ_iff] at hi hj
      exact hne (h.separatorAt_unique hValid ⟨Finset.mem_range.mp hp, hInner, hi, hx⟩
        ⟨Finset.mem_range.mp hp, hInner, hj, hy⟩).2
    · exact List.nodup_nil
  · obtain ⟨i, hAt⟩ := (mem_children (Finset.mem_range.mp hp)).mp hx
    obtain ⟨j, hAt'⟩ := (mem_children (Finset.mem_range.mp hq)).mp hx'
    exact (h.separatorAt_unique hValid hAt hAt').1
  · obtain ⟨i, hAt⟩ := (mem_children (Finset.mem_range.mp hp)).mp hx
    have hp' : p < a.count := by rw [← h.count]; exact Finset.mem_range.mp hp
    exact hValid.not_posted_root hRootOnly
      ⟨p, hp', _, (hChild (Finset.mem_range.mp hp) hAt).2.2⟩

/-- When every node besides the root is posted, the separators make the nodes a tree. -/
theorem Rep.isTree (h : Rep L t a) (hValid : a.Valid) (hRootOnly : a.RootOnly)
    (hPosted : ∀ q, ¬ a.Unposted q) :
    IsTree (Finset.range t.count) a.root (children t) fun p => (a.nodes p).level := by
  refine (h.isForest hValid hRootOnly).isTree fun x hx hne => ?_
  have hSep : t.IsSeparator x := by
    rw [h.isSeparator_iff hValid]
    by_contra hNot
    refine hPosted x ⟨?_, hne, hNot⟩
    rw [← h.count]
    exact Finset.mem_range.mp hx
  obtain ⟨p, i, hAt⟩ := hSep
  exact ⟨p, Finset.mem_range.mpr hAt.1, (mem_children hAt.1).mpr ⟨i, hAt⟩⟩

/-- After every run that has left no task in flight, whatever primitives the nodes were built
with: destroying the tree and reclaiming all garbage ends, with an empty queue, and every node the
tree has created has been destroyed once and freed once, and nothing else has. -/
theorem destruction_of_run [Nontrivial K] [Zero V] (L : Layout K V) (memory : Nat → Node K V)
    (log : List (Event K V)) (s : State K V) (primitive : Nat → Primitive)
    (hRun : Verified.Run (Step L) (State.initial memory) log s) (hTasks : s.tasks = 0) :
    ∃ bound, ∀ fuel, bound < fuel →
      ∃ g, destroyTree s.tree primitive fuel = some g ∧ g.garbage = [] ∧
        g.destroyed.Perm (List.range s.tree.count) ∧ g.freed.Perm (List.range s.tree.count) := by
  obtain ⟨a, hRep, hValid, hRootOnly, _, hPosted⟩ := Rep.of_run hRun
  have hTree := hRep.isTree hValid hRootOnly (hPosted hTasks)
  refine ⟨s.tree.count + ((a.nodes a.root).level + 1), fun fuel hFuel => ?_⟩
  refine destroyTree_spec hTree hRep.root (fun p hp => ?_) fuel hFuel
  refine Nat.lt_succ_of_le (hValid.level_le p ?_)
  rw [← hRep.count]
  exact Finset.mem_range.mp hp

/-- A tree of three levels with inner nodes and leaves on both paths: the root is deleted at once,
of the two nodes below it one at once and one by way of the queue. -/
theorem destruction_of_run_threeLevels :
    ∃ log s, Verified.Run (Step Layout.smallest) (State.initial zeroMemory) log s ∧
      s.tree.root = some 6 ∧ children s.tree 6 = [2, 5] ∧
      ∃ bound, ∀ fuel, bound < fuel → ∃ g,
        destroyTree s.tree (fun p => if p % 2 = 0 then .exclusiveLatch else .olfit) fuel = some g ∧
          g.garbage = [] ∧ g.destroyed.Perm (List.range 7) ∧ g.freed.Perm (List.range 7) := by
  have hCount : threeLevels.state.tree.count = 7 := by decide
  have hRun := run_threeLevels.of_guarded
  have hDestroyed := destruction_of_run Layout.smallest zeroMemory _ _
    (fun p => if p % 2 = 0 then .exclusiveLatch else .olfit) hRun rfl
  rw [hCount] at hDestroyed
  exact ⟨_, _, hRun, by decide, by decide, hDestroyed⟩

end Runs

end MxTasking.BLinkTree
