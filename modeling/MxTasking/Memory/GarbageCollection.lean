import MxTasking.Util.Queue
import Mathlib.Data.Multiset.Bind
import Mathlib.Algebra.Order.Group.Multiset

/-!
# The garbage of the epoch manager

`add_to_garbage_collection`, `reclaim_epoch_garbage` and `reclaim_all` of `epoch_manager.cpp`, with
the global garbage queue, called one after the other.  Here the links are those of the source: a
pass pops a resource from the queue and either frees it or links it, through the same field, to
the temporary queue of what is deferred, which is spliced back as a range.  `on_reclaim` may add
further resources to the queue that is being drained.

An address may be used again once its resource was freed, so resources and addresses
are told apart.  Whoever reads or writes a resource that is not there, frees one twice
or follows a null pointer has undefined behaviour, and the result here is `none`; what the allocator
leaves in the link of memory it gets back is arbitrary.  The loops have fuel.

## Main results

* `Inv.step` — one call keeps the queue and the account of all resources.
* `garbage_of_run` — no resource is lost or freed twice, what a pass frees and what it keeps,
  and that everything is freed in the end.
-/

namespace MxTasking.Memory.Garbage

open MxTasking.Util
open MxTasking.Verified
open MxTasking.Verified.LinkedList

/-! ## The program -/

/-- Where the resources lie, and what their `on_reclaim` adds to the garbage.  The trees are
finite: `nodes r` is `r` with everything below it. -/
structure Forest (R : Type*) where
  address : R → Nat
  children : R → List R
  nodes : R → List R
  nodes_eq : ∀ r, nodes r = r :: (children r).flatMap nodes

/-- A resource in memory; its link is kept with the others in `State.next`. -/
structure Object (R : Type*) where
  resource : R
  removeEpoch : Nat
  deriving DecidableEq, Repr

/-- The epoch manager, the memory, and logs of the resources that were constructed, added to
the garbage, passed to `on_reclaim` and passed to `free`. -/
structure State (R : Type*) where
  next : Nat → Option Nat
  objects : Nat → Option (Object R)
  queue : MPSCQueue.Members
  globalEpoch : Nat
  constructed : List R
  added : List R
  reclaimed : List R
  freed : List R

variable {R : Type*}

/-- The members after construction; the links are whatever the memory holds. -/
def State.initial (stub : Nat) (memory : Nat → Option Nat) : State R where
  next := Function.update memory stub none
  objects _ := none
  queue := { head := stub, tail := stub }
  globalEpoch := 0
  constructed := []
  added := []
  reclaimed := []
  freed := []

/-- `min_local_epoch()`. -/
def minLocalEpoch (countChannels : Nat) (localEpochs : Nat → Nat) : Nat :=
  (List.range' 1 (countChannels - 1)).foldl
    (fun minEpoch channelId => min minEpoch (localEpochs channelId)) (localEpochs 0)

namespace State

variable (F : Forest R)

/-- The constructor of a resource. -/
def constructOne (s : State R) (r : R) : State R :=
  { s with
    next := Function.update s.next (F.address r) none
    objects := Function.update s.objects (F.address r) (some { resource := r, removeEpoch := 0 })
    constructed := s.constructed ++ [r] }

/-- A resource and everything below it is constructed. -/
def construct (s : State R) (r : R) : State R :=
  (F.nodes r).foldl (constructOne F) s

/-- `add_to_garbage_collection`. -/
def addToGarbageCollection (s : State R) (p : Nat) : Option (State R) :=
  (s.objects p).map fun object =>
    let object := { object with removeEpoch := s.globalEpoch }
    let (next, queue) := s.queue.pushBack s.next p
    { s with
      next := next
      objects := Function.update s.objects p (some object)
      queue := queue
      added := s.added ++ [object.resource] }

/-- `on_reclaim`. -/
def onReclaim (s : State R) (p : Nat) : Option (State R) :=
  (s.objects p).bind fun object =>
    (F.children object.resource).foldlM (fun s c => s.addToGarbageCollection (F.address c))
      { s with reclaimed := s.reclaimed ++ [object.resource] }

/-- `Allocator::free`. -/
def free (leftover : Nat → Option Nat) (s : State R) (p : Nat) : Option (State R) :=
  (s.objects p).map fun object =>
    { s with
      next := Function.update s.next p (leftover p)
      objects := Function.update s.objects p none
      freed := s.freed ++ [object.resource] }

variable (stub : Nat) (leftover : Nat → Option Nat)

/-- The loop of `reclaim_epoch_garbage`. -/
def reclaimLoop (minEpoch : Nat) : Nat → State R → Queue → Option (State R × Queue)
  | 0, _, _ => none
  | fuel + 1, s, deferred =>
      let (next, queue, resource) := s.queue.popFront stub s.next
      let s := { s with next := next, queue := queue }
      match resource with
      | none => some (s, deferred)
      | some p =>
          (s.objects p).bind fun object =>
            if object.removeEpoch < minEpoch then
              (s.onReclaim F p).bind fun s =>
                (s.free leftover p).bind fun s => reclaimLoop minEpoch fuel s deferred
            else
              let (next, deferred) := deferred.pushBack s.next p
              reclaimLoop minEpoch fuel { s with next := next } deferred

/-- What is deferred goes back to the queue. -/
def spliceDeferred (s : State R) (deferred : Queue) : Option (State R) :=
  if deferred.empty = false then
    match deferred.head, deferred.tail with
    | some first, some last =>
        let (next, queue) := s.queue.pushBackRange s.next first last
        some { s with next := next, queue := queue }
    | _, _ => none
  else some s

/-- `reclaim_epoch_garbage()`. -/
def reclaimEpochGarbage (countChannels : Nat) (localEpochs : Nat → Nat) (s : State R)
    (fuel : Nat) : Option (State R) :=
  (reclaimLoop F stub leftover (minLocalEpoch countChannels localEpochs) fuel s {}).bind
    fun (s, deferred) => s.spliceDeferred deferred

/-- `reclaim_all()`. -/
def reclaimAll : State R → Nat → Option (State R)
  | _, 0 => none
  | s, fuel + 1 =>
      let (next, queue, resource) := s.queue.popFront stub s.next
      let s := { s with next := next, queue := queue }
      match resource with
      | none => some s
      | some p =>
          (s.onReclaim F p).bind fun s => (s.free leftover p).bind fun s => reclaimAll s fuel

/-- `r` and what is below it are new, and lie where no other resource does. -/
structure Fresh (s : State R) (r : R) : Prop where
  nodup : (F.nodes r).Nodup
  new : ∀ d ∈ F.nodes r, d ∉ s.constructed
  addresses : ((F.nodes r).map F.address).Nodup
  unused : ∀ d ∈ F.nodes r, F.address d ≠ stub ∧ s.objects (F.address d) = none

/-- The pointer is found in the garbage queue. -/
def Queued (s : State R) (p : Nat) : Prop :=
  p ≠ stub ∧ Reachable s.next s.queue.tail p

end State

/-- With enough fuel the loop ends, and it ends with `result`. -/
def Returns {σ : Type*} (loop : Nat → Option σ) (result : σ) : Prop :=
  ∃ bound, ∀ fuel, bound < fuel → loop fuel = some result

inductive Event (R : Type*) where
  | enterEpoch
  | add (r : R)
  | reclaimEpochGarbage (localEpochs : Nat → Nat)
  | reclaimAll

/-- The calls. -/
inductive Step (F : Forest R) (stub countChannels : Nat) :
    State R → Event R → State R → Prop where
  | enterEpoch {s : State R} : Step F stub countChannels s .enterEpoch
      { s with globalEpoch := (s.globalEpoch + 1) % 2 ^ 32 }
  | add {s s' : State R} {r : R} (hFresh : s.Fresh F stub r)
      (hAdd : (s.construct F r).addToGarbageCollection (F.address r) = some s') :
      Step F stub countChannels s (.add r) s'
  | reclaimEpochGarbage {s s' : State R} {localEpochs : Nat → Nat} {leftover : Nat → Option Nat}
      (hReturns : Returns (s.reclaimEpochGarbage F stub leftover countChannels localEpochs) s') :
      Step F stub countChannels s (.reclaimEpochGarbage localEpochs) s'
  | reclaimAll {s s' : State R} {leftover : Nat → Option Nat}
      (hReturns : Returns (s.reclaimAll F stub leftover) s') :
      Step F stub countChannels s .reclaimAll s'

/-! ## The account of the resources -/

namespace Forest

variable (F : Forest R)

/-- The resources that exist when `added` are in the garbage, `pending` are about to be added and
`on_reclaim` of `opened` is running. -/
def live (added pending opened : Multiset R) : Multiset R :=
  (added + pending).bind (fun r => (F.nodes r : Multiset R)) + opened

variable {F} {added pending opened : Multiset R} {r c d : R}

theorem nodes_coe (r : R) : (F.nodes r : Multiset R) =
    r ::ₘ (F.children r : Multiset R).bind fun c => (F.nodes c : Multiset R) := by
  rw [F.nodes_eq, ← Multiset.cons_coe, Multiset.coe_bind]

theorem self_mem_nodes (r : R) : r ∈ F.nodes r := by
  rw [F.nodes_eq]
  exact List.mem_cons_self ..

theorem live_push : F.live (c ::ₘ added) pending opened = F.live added (c ::ₘ pending) opened := by
  rw [live, live, Multiset.cons_add, Multiset.add_cons]

theorem live_open : F.live added (F.children r) {r} = F.live (r ::ₘ added) 0 0 := by
  simp only [live, add_zero, Multiset.cons_bind, nodes_coe r, Multiset.add_bind]
  rw [Multiset.cons_add, ← Multiset.add_cons, ← Multiset.singleton_add r]
  ac_rfl

theorem live_free : F.live added 0 {r} = r ::ₘ F.live added 0 0 := by
  simp only [live, add_zero]
  rw [add_comm, Multiset.singleton_add]

theorem live_pending : F.live added (c ::ₘ pending) opened =
    (F.nodes c : Multiset R) + F.live added pending opened := by
  rw [live, live, Multiset.add_cons, Multiset.cons_bind, add_assoc]

theorem mem_live_of_added (hr : r ∈ added) : r ∈ F.live added pending opened := by
  refine Multiset.mem_add.mpr (Or.inl (Multiset.mem_bind.mpr ⟨r, ?_, self_mem_nodes r⟩))
  exact Multiset.mem_add.mpr (Or.inl hr)

theorem mem_live_of_opened (hr : r ∈ opened) : r ∈ F.live added pending opened :=
  Multiset.mem_add.mpr (Or.inr hr)

theorem mem_live_of_pending (hr : r ∈ pending) : r ∈ F.live added pending opened := by
  refine Multiset.mem_add.mpr (Or.inl (Multiset.mem_bind.mpr ⟨r, ?_, self_mem_nodes r⟩))
  exact Multiset.mem_add.mpr (Or.inr hr)

/-- What was added exists. -/
theorem added_le_live : added + opened ≤ F.live added pending opened := by
  have hLe : ∀ m : Multiset R, m ≤ m.bind fun r => (F.nodes r : Multiset R) := by
    intro m
    induction m using Multiset.induction with
    | empty => exact le_refl _
    | cons a m ih =>
        rw [Multiset.cons_bind, nodes_coe, ← Multiset.singleton_add, ← Multiset.singleton_add a,
          add_assoc]
        exact add_le_add_right (ih.trans (Multiset.le_add_left _ _)) {a}
  exact add_le_add_left ((Multiset.le_add_right added pending).trans (hLe _)) opened

end Forest

variable {F : Forest R} {stub : Nat} {epoch : R → Nat} {s : State R}
  {added pending opened : Multiset R} {r c : R}

/-- What the logs say about the resources that exist.  `epoch` is the stamp of those in
the garbage and the global epoch for all others. -/
structure Owned (F : Forest R) (stub : Nat) (epoch : R → Nat) (s : State R)
    (added pending opened : Multiset R) : Prop where
  objects : ∀ d ∈ F.live added pending opened, ∃ e, s.objects (F.address d) = some ⟨d, e⟩
  addresses : ((F.live added pending opened).map F.address).Nodup
  ne_stub : ∀ d ∈ F.live added pending opened, F.address d ≠ stub
  stamps : ∀ r ∈ added, s.objects (F.address r) = some ⟨r, epoch r⟩
  young : ∀ d, d ∉ s.added → epoch d = s.globalEpoch
  nodup : s.constructed.Nodup
  constructed_eq : (s.constructed : Multiset R) = s.freed + F.live added pending opened
  added_eq : (s.added : Multiset R) = s.freed + (added + opened)
  reclaimed_eq : (s.reclaimed : Multiset R) = s.freed + opened

/-- What the constructors of `l` do. -/
structure Constructs (F : Forest R) (l : List R) (s s' : State R) : Prop where
  next : ∀ p ∉ l.map F.address, s'.next p = s.next p
  objects : ∀ p ∉ l.map F.address, s'.objects p = s.objects p
  objects_of_mem : ∀ d ∈ l, s'.objects (F.address d) = some ⟨d, 0⟩
  queue : s'.queue = s.queue
  globalEpoch : s'.globalEpoch = s.globalEpoch
  constructed : s'.constructed = s.constructed ++ l
  added : s'.added = s.added
  reclaimed : s'.reclaimed = s.reclaimed
  freed : s'.freed = s.freed

theorem constructs_foldl (l : List R) (hNodup : (l.map F.address).Nodup) :
    ∀ s, Constructs F l s (l.foldl (State.constructOne F) s) := by
  induction l with
  | nil =>
      intro s
      exact ⟨fun _ _ => rfl, fun _ _ => rfl, by simp, rfl, rfl, by simp, rfl, rfl, rfl⟩
  | cons a l ih =>
      intro s
      rw [List.map_cons, List.nodup_cons] at hNodup
      have h := ih hNodup.2 (s.constructOne F a)
      rw [List.foldl_cons]
      refine ⟨fun p hp => ?_, fun p hp => ?_, fun d hd => ?_, h.queue, h.globalEpoch, ?_, h.added,
        h.reclaimed, h.freed⟩
      · rw [List.map_cons, List.mem_cons, not_or] at hp
        exact (h.next p hp.2).trans (Function.update_of_ne hp.1 _ _)
      · rw [List.map_cons, List.mem_cons, not_or] at hp
        exact (h.objects p hp.2).trans (Function.update_of_ne hp.1 _ _)
      · rcases List.mem_cons.mp hd with rfl | hd
        · exact (h.objects _ hNodup.1).trans (Function.update_self ..)
        · exact h.objects_of_mem d hd
      · rw [h.constructed, State.constructOne, List.append_assoc]
        rfl

namespace Owned

theorem initial (memory : Nat → Option Nat) :
    Owned F stub (fun _ => 0) (State.initial stub memory) 0 0 0 := by
  refine ⟨?_, ?_, ?_, ?_, fun _ _ => rfl, List.nodup_nil, rfl, rfl, rfl⟩ <;> simp [Forest.live]

/-- Links and queue do not matter here. -/
theorem setLinks (h : Owned F stub epoch s added pending opened) (next : Nat → Option Nat)
    (queue : MPSCQueue.Members) :
    Owned F stub epoch { s with next := next, queue := queue } added pending opened :=
  ⟨h.objects, h.addresses, h.ne_stub, h.stamps, h.young, h.nodup, h.constructed_eq, h.added_eq,
    h.reclaimed_eq⟩

theorem live_nodup (h : Owned F stub epoch s added pending opened) :
    (F.live added pending opened).Nodup :=
  Multiset.Nodup.of_map F.address h.addresses

theorem address_ne (h : Owned F stub epoch s added pending opened) {d d' : R}
    (hd : d ∈ F.live added pending opened) (hd' : d' ∈ F.live added pending opened)
    (hne : d ≠ d') : F.address d ≠ F.address d' :=
  fun hEq => hne (Multiset.inj_on_of_nodup_map h.addresses d hd d' hd' hEq)

theorem all_nodup (h : Owned F stub epoch s added pending opened) :
    ((s.freed : Multiset R) + F.live added pending opened).Nodup := by
  rw [← h.constructed_eq]
  exact Multiset.coe_nodup.mpr h.nodup

theorem added_nodup (h : Owned F stub epoch s added pending opened) :
    ((s.freed : Multiset R) + (added + opened)).Nodup :=
  Multiset.nodup_of_le (add_le_add_right Forest.added_le_live _) h.all_nodup

/-- What was freed does not exist any more. -/
theorem not_mem_freed (h : Owned F stub epoch s added pending opened) {d : R}
    (hd : d ∈ F.live added pending opened) : d ∉ s.freed := fun hFreed =>
  Multiset.disjoint_left.mp (Multiset.nodup_add.mp h.all_nodup).2.2 hFreed hd

/-- What is about to be added has not been added before. -/
theorem not_mem_added (h : Owned F stub epoch s added (c ::ₘ pending) opened) : c ∉ s.added := by
  intro hIn
  have hc : c ∈ (s.freed : Multiset R) + (added + opened) := by
    rw [← h.added_eq]
    exact hIn
  have hTwice : c ∉ F.live added pending opened := by
    have hNodup := h.live_nodup
    rw [Forest.live_pending] at hNodup
    exact Multiset.disjoint_left.mp (Multiset.nodup_add.mp hNodup).2.2 (Forest.self_mem_nodes c)
  rcases Multiset.mem_add.mp hc with hFreed | hc
  · exact h.not_mem_freed (Forest.mem_live_of_pending (Multiset.mem_cons_self c pending)) hFreed
  · rcases Multiset.mem_add.mp hc with hAdded | hOpened
    · exact hTwice (Forest.mem_live_of_added hAdded)
    · exact hTwice (Forest.mem_live_of_opened hOpened)

/-- The state after `add_to_garbage_collection`. -/
theorem addToGarbageCollection_eq (h : Owned F stub epoch s added (c ::ₘ pending) opened) :
    s.addToGarbageCollection (F.address c) = some
      { s with
        next := (s.queue.pushBack s.next (F.address c)).1
        objects := Function.update s.objects (F.address c) (some ⟨c, epoch c⟩)
        queue := (s.queue.pushBack s.next (F.address c)).2
        added := s.added ++ [c] } := by
  obtain ⟨e, hObject⟩ := h.objects c (Forest.mem_live_of_pending (Multiset.mem_cons_self c pending))
  rw [State.addToGarbageCollection, hObject, h.young c h.not_mem_added]
  rfl

theorem add (h : Owned F stub epoch s added (c ::ₘ pending) opened) {s' : State R}
    (hAdd : s.addToGarbageCollection (F.address c) = some s') :
    Owned F stub epoch s' (c ::ₘ added) pending opened := by
  rw [h.addToGarbageCollection_eq, Option.some.injEq] at hAdd
  subst hAdd
  have hc : c ∈ F.live added (c ::ₘ pending) opened :=
    Forest.mem_live_of_pending (Multiset.mem_cons_self c pending)
  have hOther : ∀ d ∈ F.live added (c ::ₘ pending) opened, d ≠ c →
      Function.update s.objects (F.address c) (some ⟨c, epoch c⟩) (F.address d) =
        s.objects (F.address d) := fun d hd hne =>
    Function.update_of_ne (h.address_ne hd hc hne) _ _
  refine ⟨fun d hd => ?_, ?_, ?_, fun r hr => ?_, fun d hd => ?_, h.nodup, ?_, ?_, h.reclaimed_eq⟩
  · rw [Forest.live_push] at hd
    by_cases hEq : d = c
    · subst hEq
      exact ⟨epoch d, Function.update_self ..⟩
    · obtain ⟨e, hObject⟩ := h.objects d hd
      exact ⟨e, (hOther d hd hEq).trans hObject⟩
  · rw [Forest.live_push]
    exact h.addresses
  · rw [Forest.live_push]
    exact h.ne_stub
  · by_cases hEq : r = c
    · subst hEq
      exact Function.update_self ..
    · have hr : r ∈ added := (Multiset.mem_cons.mp hr).resolve_left hEq
      exact (hOther r (Forest.mem_live_of_added hr) hEq).trans (h.stamps r hr)
  · exact h.young d fun hIn => hd (List.mem_append_left _ hIn)
  · rw [Forest.live_push]
    exact h.constructed_eq
  · rw [← Multiset.coe_add, h.added_eq, Multiset.coe_singleton, Multiset.cons_add,
      ← Multiset.singleton_add]
    ac_rfl

/-- The resources that `on_reclaim` is going to add are not in the garbage any more. -/
theorem opens (h : Owned F stub epoch s (r ::ₘ added) 0 0) :
    Owned F stub epoch { s with reclaimed := s.reclaimed ++ [r] } added (F.children r) {r} := by
  refine ⟨?_, ?_, ?_, fun r' hr' => h.stamps r' (Multiset.mem_cons_of_mem hr'), h.young, h.nodup,
    ?_, ?_, ?_⟩
  · rw [Forest.live_open]
    exact h.objects
  · rw [Forest.live_open]
    exact h.addresses
  · rw [Forest.live_open]
    exact h.ne_stub
  · rw [Forest.live_open]
    exact h.constructed_eq
  · rw [h.added_eq, add_zero, ← Multiset.singleton_add, add_comm {r} added]
  · rw [← Multiset.coe_add, h.reclaimed_eq, add_zero, Multiset.coe_singleton]

/-- The state after `free`. -/
theorem free_eq (h : Owned F stub epoch s added pending {r}) (leftover : Nat → Option Nat) :
    s.free leftover (F.address r) = some
      { s with
        next := Function.update s.next (F.address r) (leftover (F.address r))
        objects := Function.update s.objects (F.address r) none
        freed := s.freed ++ [r] } := by
  obtain ⟨e, hObject⟩ := h.objects r (Forest.mem_live_of_opened (Multiset.mem_singleton_self r))
  rw [State.free, hObject]
  rfl

theorem free (h : Owned F stub epoch s added 0 {r}) {leftover : Nat → Option Nat} {s' : State R}
    (hFree : s.free leftover (F.address r) = some s') : Owned F stub epoch s' added 0 0 := by
  rw [h.free_eq, Option.some.injEq] at hFree
  subst hFree
  have hLive : F.live added 0 {r} = r ::ₘ F.live added 0 0 := Forest.live_free
  have hNodup := h.live_nodup
  rw [hLive, Multiset.nodup_cons] at hNodup
  have hSub : ∀ d ∈ F.live added 0 0, d ∈ F.live added 0 {r} := fun d hd => by
    rw [hLive]
    exact Multiset.mem_cons_of_mem hd
  have hr : r ∈ F.live added 0 {r} := Forest.mem_live_of_opened (Multiset.mem_singleton_self r)
  have hOther : ∀ d ∈ F.live added 0 0,
      Function.update s.objects (F.address r) none (F.address d) = s.objects (F.address d) := by
    intro d hd
    refine Function.update_of_ne (h.address_ne (hSub d hd) hr ?_) _ _
    rintro rfl
    exact hNodup.1 hd
  refine ⟨fun d hd => ?_, ?_, fun d hd => h.ne_stub d (hSub d hd), fun r' hr' => ?_, h.young,
    h.nodup, ?_, ?_, ?_⟩
  · obtain ⟨e, hObject⟩ := h.objects d (hSub d hd)
    exact ⟨e, (hOther d hd).trans hObject⟩
  · have hAddresses := h.addresses
    rw [hLive, Multiset.map_cons] at hAddresses
    exact (Multiset.nodup_cons.mp hAddresses).2
  · exact (hOther r' (Forest.mem_live_of_added hr')).trans (h.stamps r' hr')
  · rw [h.constructed_eq, hLive, ← Multiset.coe_add, Multiset.coe_singleton,
      ← Multiset.singleton_add]
    ac_rfl
  · rw [h.added_eq, ← Multiset.coe_add, Multiset.coe_singleton, add_zero]
    ac_rfl
  · rw [h.reclaimed_eq, ← Multiset.coe_add, Multiset.coe_singleton, add_zero]

/-- A new resource with everything below it. -/
theorem construct (h : Owned F stub epoch s added 0 0) (hFresh : s.Fresh F stub r) :
    Owned F stub epoch (s.construct F r) added {r} 0 := by
  have hMade : Constructs F (F.nodes r) s (s.construct F r) :=
    constructs_foldl (F.nodes r) hFresh.addresses s
  have hLive : F.live added {r} 0 = (F.nodes r : Multiset R) + F.live added 0 0 :=
    Forest.live_pending
  have hOut : ∀ d ∈ F.live added 0 0, F.address d ∉ (F.nodes r).map F.address := by
    intro d hd hIn
    obtain ⟨d', hd', hEq⟩ := List.mem_map.mp hIn
    obtain ⟨e, hObject⟩ := h.objects d hd
    have hNone := (hFresh.unused d' hd').2
    rw [hEq, hObject] at hNone
    exact absurd hNone (by simp)
  refine ⟨fun d hd => ?_, ?_, fun d hd => ?_, fun r' hr' => ?_, fun d hd => ?_, ?_, ?_, ?_, ?_⟩
  · rw [hLive] at hd
    rcases Multiset.mem_add.mp hd with hNew | hOld
    · exact ⟨0, hMade.objects_of_mem d hNew⟩
    · rw [hMade.objects _ (hOut d hOld)]
      exact h.objects d hOld
  · rw [hLive, Multiset.map_add]
    refine Multiset.nodup_add.mpr ⟨?_, h.addresses, Multiset.disjoint_right.mpr fun hp => ?_⟩
    · exact Multiset.coe_nodup.mpr hFresh.addresses
    · obtain ⟨d, hd, rfl⟩ := Multiset.mem_map.mp hp
      exact hOut d hd
  · rw [hLive] at hd
    rcases Multiset.mem_add.mp hd with hNew | hOld
    · exact (hFresh.unused d hNew).1
    · exact h.ne_stub d hOld
  · rw [hMade.objects _ (hOut r' (Forest.mem_live_of_added hr'))]
    exact h.stamps r' hr'
  · rw [hMade.globalEpoch]
    exact h.young d (hMade.added ▸ hd)
  · rw [hMade.constructed]
    refine List.nodup_append'.mpr ⟨h.nodup, hFresh.nodup, fun d hd hNew => hFresh.new d hNew hd⟩
  · rw [hMade.constructed, hMade.freed, hLive, ← Multiset.coe_add, h.constructed_eq]
    ac_rfl
  · rw [hMade.added, hMade.freed]
    exact h.added_eq
  · rw [hMade.reclaimed, hMade.freed]
    exact h.reclaimed_eq

end Owned

/-! ## The queues -/

/-- The garbage is in the queue (`queued`) and in the temporary queue of a pass (`deferred`). -/
structure Inv (F : Forest R) (stub : Nat) (epoch : R → Nat) (s : State R) (temporary : Queue)
    (queued deferred : List R) (pending opened : Multiset R) : Prop where
  owned : Owned F stub epoch s ((queued : Multiset R) + deferred) pending opened
  queue : s.queue.Holds stub s.next (queued.map F.address)
  temporary : temporary.Holds s.next (deferred.map F.address)

/-- What every call leaves as it is, but for what it adds. -/
structure Keeps (s s' : State R) : Prop where
  globalEpoch : s'.globalEpoch = s.globalEpoch
  constructed : s'.constructed = s.constructed
  added : s.added ⊆ s'.added

theorem Keeps.refl (s : State R) : Keeps s s :=
  ⟨rfl, rfl, fun _ h => h⟩

theorem Keeps.trans {s s₁ s₂ : State R} (h : Keeps s s₁) (h' : Keeps s₁ s₂) : Keeps s s₂ :=
  ⟨h'.globalEpoch.trans h.globalEpoch, h'.constructed.trans h.constructed,
    fun _ hr => h'.added (h.added hr)⟩

namespace Owned

/-- An address is in a list only if its resource is. -/
theorem address_not_mem (h : Owned F stub epoch s added pending opened) {d : R} {l : List R}
    (hd : d ∈ F.live added pending opened) (hl : ∀ r ∈ l, r ∈ F.live added pending opened)
    (hNot : d ∉ l) : F.address d ∉ l.map F.address := by
  intro hIn
  obtain ⟨r, hr, hEq⟩ := List.mem_map.mp hIn
  refine h.address_ne (hl r hr) hd ?_ hEq
  rintro rfl
  exact hNot hr

/-- Two lists of what was added have no address in common. -/
theorem disjoint (h : Owned F stub epoch s added pending opened) {l l' : List R}
    (hLe : (l : Multiset R) + l' ≤ added) {p : Nat} (hp : p ∈ l'.map F.address) :
    p ≠ stub ∧ p ∉ l.map F.address := by
  obtain ⟨d, hd, rfl⟩ := List.mem_map.mp hp
  have hLive : ∀ x ∈ (l : Multiset R) + l', x ∈ F.live added pending opened := fun x hx =>
    Forest.mem_live_of_added (Multiset.mem_of_le hLe hx)
  have hNodup := (Multiset.nodup_add.mp (Multiset.nodup_add.mp h.added_nodup).2.1).1
  have hDisjoint := (Multiset.nodup_add.mp (Multiset.nodup_of_le hLe hNodup)).2.2
  have hd' := hLive d (Multiset.mem_add.mpr (Or.inr hd))
  refine ⟨h.ne_stub d hd', h.address_not_mem hd' (fun r hr => ?_) fun hIn => ?_⟩
  · exact hLive r (Multiset.mem_add.mpr (Or.inl hr))
  · exact Multiset.disjoint_left.mp hDisjoint hIn hd

end Owned

theorem coe_snoc_add (l : List R) (r : R) (m : Multiset R) :
    ((l ++ [r] : List R) : Multiset R) + m = r ::ₘ ((l : Multiset R) + m) := by
  rw [← Multiset.coe_add, Multiset.coe_singleton, ← Multiset.singleton_add]
  ac_rfl

namespace Inv

variable {temporary : Queue} {queued deferred : List R}

/-- One call of `add_to_garbage_collection`. -/
theorem add (h : Inv F stub epoch s temporary queued deferred (c ::ₘ pending) opened) :
    ∃ s', s.addToGarbageCollection (F.address c) = some s' ∧
      Inv F stub epoch s' temporary (queued ++ [c]) deferred pending opened ∧
      Keeps s s' ∧ s'.freed = s.freed := by
  have hEq := h.owned.addToGarbageCollection_eq
  have hc : c ∈ F.live (queued + deferred) (c ::ₘ pending) opened :=
    Forest.mem_live_of_pending (Multiset.mem_cons_self c pending)
  have hNew : c ∉ (queued : Multiset R) + deferred := by
    intro hIn
    refine h.owned.not_mem_added ?_
    rw [← Multiset.mem_coe, h.owned.added_eq]
    exact Multiset.mem_add.mpr (Or.inr (Multiset.mem_add.mpr (Or.inl hIn)))
  rw [Multiset.mem_add, not_or] at hNew
  have hQueued : F.address c ∉ queued.map F.address :=
    h.owned.address_not_mem hc (fun r hr => Forest.mem_live_of_added
      (Multiset.mem_add.mpr (Or.inl hr))) hNew.1
  have hDeferred : F.address c ∉ deferred.map F.address :=
    h.owned.address_not_mem hc (fun r hr => Forest.mem_live_of_added
      (Multiset.mem_add.mpr (Or.inr hr))) hNew.2
  refine ⟨_, hEq, ⟨?_, ?_, ?_⟩, ⟨rfl, rfl, fun r hr => List.mem_append_left _ hr⟩, rfl⟩
  · rw [coe_snoc_add]
    exact h.owned.add hEq
  · rw [List.map_append]
    exact h.queue.pushBack hQueued (h.owned.ne_stub c hc)
  · refine h.temporary.congr fun p hp => ?_
    obtain ⟨hStub, hOut⟩ := h.owned.disjoint (le_refl _) hp
    refine h.queue.pushBackRange_next hStub hOut ?_
    rintro rfl
    exact hDeferred hp

/-- The calls made by `on_reclaim`. -/
theorem addAll (l : List R) : ∀ (s : State R) (queued : List R),
    Inv F stub epoch s temporary queued deferred l opened →
    ∃ s', l.foldlM (fun s c => s.addToGarbageCollection (F.address c)) s = some s' ∧
      Inv F stub epoch s' temporary (queued ++ l) deferred 0 opened ∧
      Keeps s s' ∧ s'.freed = s.freed := by
  induction l with
  | nil =>
      intro s queued h
      refine ⟨s, rfl, ?_, Keeps.refl s, rfl⟩
      rw [List.append_nil]
      exact h
  | cons c l ih =>
      intro s queued h
      rw [← Multiset.cons_coe] at h
      obtain ⟨s₁, hEq₁, h₁, hKeeps₁, hFreed₁⟩ := h.add
      obtain ⟨s₂, hEq₂, h₂, hKeeps₂, hFreed₂⟩ := ih s₁ (queued ++ [c]) h₁
      refine ⟨s₂, ?_, ?_, hKeeps₁.trans hKeeps₂, hFreed₂.trans hFreed₁⟩
      · rw [List.foldlM_cons, hEq₁]
        exact hEq₂
      · rw [List.append_assoc] at h₂
        exact h₂

end Inv

/-- A resource has been popped and is in neither queue. -/
structure Popped (F : Forest R) (stub : Nat) (epoch : R → Nat) (s : State R) (temporary : Queue)
    (r : R) (queued deferred : List R) : Prop where
  owned : Owned F stub epoch s (r ::ₘ ((queued : Multiset R) + deferred)) 0 0
  queue : s.queue.Holds stub s.next (queued.map F.address)
  temporary : temporary.Holds s.next (deferred.map F.address)

theorem Inv.popFront {temporary : Queue} {queued deferred : List R}
    (h : Inv F stub epoch s temporary (r :: queued) deferred 0 0) :
    ∃ next queue, s.queue.popFront stub s.next = (next, queue, some (F.address r)) ∧
      Popped F stub epoch { s with next := next, queue := queue } temporary r queued deferred := by
  have hQueue := h.queue
  rw [List.map_cons] at hQueue
  obtain ⟨next, queue, hEq, hHolds, hNext⟩ := hQueue.popFront
  refine ⟨next, queue, hEq, h.owned.setLinks next queue, hHolds, h.temporary.congr fun p hp => ?_⟩
  obtain ⟨hStub, hOut⟩ := h.owned.disjoint (le_refl _) hp
  rw [List.map_cons] at hOut
  exact hNext p hStub hOut

namespace Popped

variable {temporary : Queue} {queued deferred : List R}

theorem object (h : Popped F stub epoch s temporary r queued deferred) :
    s.objects (F.address r) = some ⟨r, epoch r⟩ :=
  h.owned.stamps r (Multiset.mem_cons_self ..)

/-- `on_reclaim` and `free`. -/
theorem reclaim (h : Popped F stub epoch s temporary r queued deferred)
    (leftover : Nat → Option Nat) :
    ∃ s₁ s₂, s.onReclaim F (F.address r) = some s₁ ∧
      s₁.free leftover (F.address r) = some s₂ ∧
      Inv F stub epoch s₂ temporary (queued ++ F.children r) deferred 0 0 ∧
      Keeps s s₂ ∧ s₂.freed = s.freed ++ [r] := by
  have hOpen : Inv F stub epoch { s with reclaimed := s.reclaimed ++ [r] } temporary queued deferred
      (F.children r) {r} := ⟨h.owned.opens, h.queue, h.temporary⟩
  obtain ⟨s₁, hAdds, h₁, hKeeps, hFreed⟩ := Inv.addAll (F.children r) _ queued hOpen
  have hFree := h₁.owned.free_eq leftover
  have hr : r ∈ F.live (↑(queued ++ F.children r) + ↑deferred) 0 {r} :=
    Forest.mem_live_of_opened (Multiset.mem_singleton_self r)
  have hOut : ∀ l : List R, (∀ x ∈ l, x ∈ (↑(queued ++ F.children r) + ↑deferred : Multiset R)) →
      F.address r ∉ l.map F.address := by
    intro l hl
    have hDisjoint := (Multiset.nodup_add.mp (Multiset.nodup_add.mp h₁.owned.added_nodup).2.1).2.2
    refine h₁.owned.address_not_mem hr (fun x hx => ?_) fun hIn => ?_
    · exact Forest.mem_live_of_added (hl x hx)
    · exact Multiset.disjoint_left.mp hDisjoint (hl r hIn) (Multiset.mem_singleton_self r)
  refine ⟨s₁, _, ?_, hFree, ⟨h₁.owned.free hFree, ?_, ?_⟩, ⟨hKeeps.globalEpoch,
    hKeeps.constructed, hKeeps.added⟩, ?_⟩
  · rw [State.onReclaim, h.object]
    exact hAdds
  · refine h₁.queue.congr fun p hp => Function.update_of_ne ?_ _ _
    rintro rfl
    rcases hp with hStub | hp
    · exact h₁.owned.ne_stub r hr hStub
    · exact hOut _ (fun x hx => Multiset.mem_add.mpr (Or.inl hx)) hp
  · refine h₁.temporary.congr fun p hp => Function.update_of_ne ?_ _ _
    rintro rfl
    exact hOut _ (fun x hx => Multiset.mem_add.mpr (Or.inr hx)) hp
  · exact congrArg (· ++ [r]) hFreed

/-- The resource goes to the temporary queue. -/
theorem defer (h : Popped F stub epoch s temporary r queued deferred) :
    Inv F stub epoch { s with next := (temporary.pushBack s.next (F.address r)).1 }
      (temporary.pushBack s.next (F.address r)).2 queued (deferred ++ [r]) 0 0 := by
  have hAdded : (queued : Multiset R) + ↑(deferred ++ [r]) = r ::ₘ (↑queued + ↑deferred) := by
    rw [add_comm, coe_snoc_add, add_comm]
  have hOut : F.address r ∉ deferred.map F.address := by
    have hLe : (deferred : Multiset R) + ([r] : List R) ≤ r ::ₘ (↑queued + ↑deferred) := by
      rw [add_comm, Multiset.coe_singleton, Multiset.singleton_add]
      exact Multiset.cons_le_cons r (Multiset.le_add_left _ _)
    exact (h.owned.disjoint hLe (by simp)).2
  refine ⟨?_, h.queue.congr fun p hp => ?_, ?_⟩
  · rw [hAdded]
    exact h.owned.setLinks _ s.queue
  · have hNot : p ∉ (deferred ++ [r]).map F.address := fun hIn => by
      obtain ⟨hStub, hOut⟩ := h.owned.disjoint (le_of_eq hAdded) hIn
      exact hp.elim hStub hOut
    rw [List.map_append, List.mem_append, not_or] at hNot
    exact h.temporary.pushBack_next hNot.1 (by simpa using hNot.2)
  · rw [List.map_append]
    exact h.temporary.pushBack hOut

end Popped

/-! ## The loops -/

section Loops

variable {temporary : Queue} {queued deferred : List R} {minEpoch : Nat}

/-- A pass that started with `start` has deferred only what is too young, and freed nothing
else but what is old enough. -/
structure Passing (F : Forest R) (stub : Nat) (epoch : R → Nat) (minEpoch : Nat) (start s : State R)
    (temporary : Queue) (queued deferred : List R) : Prop where
  inv : Inv F stub epoch s temporary queued deferred 0 0
  keeps : Keeps start s
  deferred_young : ∀ r ∈ deferred, minEpoch ≤ epoch r
  freed_old : ∀ r ∈ s.freed, r ∈ start.freed ∨ epoch r < minEpoch

/-- The number of resources that the loop may still come across. -/
def Forest.count (F : Forest R) (queued : List R) : Nat :=
  (queued.flatMap F.nodes).length

theorem Forest.count_children_lt (r : R) (queued : List R) :
    F.count (queued ++ F.children r) < F.count (r :: queued) := by
  simp only [Forest.count, List.flatMap_cons, List.flatMap_append, List.length_append]
  rw [F.nodes_eq r, List.length_cons]
  omega

theorem Forest.count_lt (r : R) (queued : List R) : F.count queued < F.count (r :: queued) := by
  refine lt_of_le_of_lt ?_ (Forest.count_children_lt r queued)
  simp only [Forest.count, List.flatMap_append, List.length_append]
  omega

/-- The resource popped next was removed long enough ago. -/
theorem Passing.free {start : State R} (leftover : Nat → Option Nat)
    (h : Passing F stub epoch minEpoch start s temporary (r :: queued) deferred)
    (hOld : epoch r < minEpoch) :
    ∃ s', Passing F stub epoch minEpoch start s' temporary (queued ++ F.children r) deferred ∧
      ∀ fuel, State.reclaimLoop F stub leftover minEpoch (fuel + 1) s temporary =
        State.reclaimLoop F stub leftover minEpoch fuel s' temporary := by
  obtain ⟨next, queue, hPop, hPopped⟩ := h.inv.popFront
  obtain ⟨s₁, s₂, hReclaim, hFree, hInv, hKeeps, hFreed⟩ := hPopped.reclaim leftover
  refine ⟨s₂, ⟨hInv, ?_, h.deferred_young, fun x hx => ?_⟩, fun fuel => ?_⟩
  · exact ⟨hKeeps.globalEpoch.trans h.keeps.globalEpoch,
      hKeeps.constructed.trans h.keeps.constructed, fun x hx => hKeeps.added (h.keeps.added hx)⟩
  · rw [hFreed] at hx
    rcases List.mem_append.mp hx with hx | hx
    · exact h.freed_old x hx
    · rw [List.mem_singleton.mp hx]
      exact Or.inr hOld
  · have hObject : s.objects (F.address r) = some ⟨r, epoch r⟩ := hPopped.object
    simp only [State.reclaimLoop, hPop, hObject, Option.bind_some, if_pos hOld, hReclaim, hFree]

/-- The resource popped next is deferred. -/
theorem Passing.defer {start : State R} (leftover : Nat → Option Nat)
    (h : Passing F stub epoch minEpoch start s temporary (r :: queued) deferred)
    (hYoung : ¬ epoch r < minEpoch) :
    ∃ s' temporary',
      Passing F stub epoch minEpoch start s' temporary' queued (deferred ++ [r]) ∧
      ∀ fuel, State.reclaimLoop F stub leftover minEpoch (fuel + 1) s temporary =
        State.reclaimLoop F stub leftover minEpoch fuel s' temporary' := by
  obtain ⟨next, queue, hPop, hPopped⟩ := h.inv.popFront
  refine ⟨_, _, ⟨hPopped.defer, ?_, fun x hx => ?_, h.freed_old⟩, fun fuel => ?_⟩
  · exact ⟨h.keeps.globalEpoch, h.keeps.constructed, h.keeps.added⟩
  · rcases List.mem_append.mp hx with hx | hx
    · exact h.deferred_young x hx
    · rw [List.mem_singleton.mp hx]
      exact Nat.le_of_not_lt hYoung
  · have hObject : s.objects (F.address r) = some ⟨r, epoch r⟩ := hPopped.object
    simp only [State.reclaimLoop, hPop, hObject, Option.bind_some, if_neg hYoung]

/-- One round of the loop. -/
theorem Passing.round {start : State R} (leftover : Nat → Option Nat)
    (h : Passing F stub epoch minEpoch start s temporary queued deferred) :
    (queued = [] ∧ ∀ fuel, State.reclaimLoop F stub leftover minEpoch (fuel + 1) s temporary =
      some (s, temporary)) ∨
    ∃ s' temporary' queued' deferred',
      Passing F stub epoch minEpoch start s' temporary' queued' deferred' ∧
      F.count queued' < F.count queued ∧
      ∀ fuel, State.reclaimLoop F stub leftover minEpoch (fuel + 1) s temporary =
        State.reclaimLoop F stub leftover minEpoch fuel s' temporary' := by
  cases queued with
  | nil =>
      refine Or.inl ⟨rfl, fun fuel => ?_⟩
      simp only [State.reclaimLoop, h.inv.queue.popFront_nil]
  | cons r queued =>
      right
      by_cases hOld : epoch r < minEpoch
      · obtain ⟨s', h', hEq⟩ := h.free leftover hOld
        exact ⟨s', temporary, _, _, h', Forest.count_children_lt r queued, hEq⟩
      · obtain ⟨s', temporary', h', hEq⟩ := h.defer leftover hOld
        exact ⟨s', temporary', _, _, h', Forest.count_lt r queued, hEq⟩

/-- The loop of a pass comes to an end, and the queue is empty then. -/
theorem Passing.reclaimLoop {start : State R} (leftover : Nat → Option Nat)
    (h : Passing F stub epoch minEpoch start s temporary queued deferred) :
    ∃ s' temporary' deferred',
      Passing F stub epoch minEpoch start s' temporary' [] deferred' ∧
      ∀ fuel, F.count queued < fuel →
        State.reclaimLoop F stub leftover minEpoch fuel s temporary = some (s', temporary') := by
  let P (x : State R × Queue) (n : Nat) : Prop := ∃ queued deferred, F.count queued = n ∧
    Passing F stub epoch minEpoch start x.1 x.2 queued deferred
  let Q (x : State R × Queue) : Prop := ∃ deferred,
    Passing F stub epoch minEpoch start x.1 x.2 [] deferred
  obtain ⟨⟨s', temporary'⟩, ⟨deferred', h'⟩, hLoop⟩ := loop_ends
    (f := fun fuel x => State.reclaimLoop F stub leftover minEpoch fuel x.1 x.2) (P := P) (Q := Q)
    (fun x n ⟨queued, deferred, hn, hx⟩ => by
      rcases hx.round leftover with ⟨rfl, hDone⟩ | ⟨s', temporary', _, _, h', hLess, hEq⟩
      · exact Or.inl ⟨x, ⟨deferred, hx⟩, hDone⟩
      · exact Or.inr ⟨(s', temporary'), _, ⟨_, _, rfl, h'⟩, hn ▸ hLess, hEq⟩)
    (F.count queued) (s, temporary) ⟨queued, deferred, rfl, h⟩
  exact ⟨s', temporary', deferred', h', hLoop⟩

/-- What is deferred goes back, and the temporary queue is gone. -/
theorem Inv.spliceDeferred (h : Inv F stub epoch s temporary [] deferred 0 0) :
    ∃ s', s.spliceDeferred temporary = some s' ∧ Inv F stub epoch s' {} deferred [] 0 0 ∧
      Keeps s s' ∧ s'.freed = s.freed := by
  have hOwned := h.owned
  rw [add_comm] at hOwned
  unfold State.spliceDeferred
  by_cases hEmpty : deferred = []
  · subst hEmpty
    have hTrue : temporary.empty = true := h.temporary.empty_iff.mpr rfl
    refine ⟨s, ?_, ⟨hOwned, h.queue, Queue.Holds.nil _⟩, Keeps.refl s, rfl⟩
    rw [hTrue]
    rfl
  · have hFalse : temporary.empty = false := by
      rw [← Bool.not_eq_true, h.temporary.empty_iff, List.map_eq_nil_iff]
      exact hEmpty
    have hne : deferred.map F.address ≠ [] := by simpa using hEmpty
    have hFirst := List.head?_eq_some_head hne
    have hLast := List.getLast?_eq_some_getLast hne
    have hSame : Function.update s.next ((deferred.map F.address).getLast hne) none = s.next :=
      Function.update_eq_self_iff.mpr (h.temporary.linked.last hLast).symm
    have hStub : stub ∉ deferred.map F.address := fun hIn =>
      (h.owned.disjoint (le_refl _) hIn).1 rfl
    have hHolds := h.queue.pushBackRange (hSame.symm ▸ h.temporary.linked) hFirst hLast
      h.temporary.nodup hStub
    rw [if_pos hFalse, ← h.temporary.head, ← h.temporary.tail, hFirst, hLast]
    exact ⟨_, rfl, ⟨hOwned.setLinks _ _, hHolds, Queue.Holds.nil _⟩, ⟨rfl, rfl, fun _ hr => hr⟩,
      rfl⟩

/-- `reclaim_epoch_garbage` returns. -/
theorem Inv.reclaimEpochGarbage (h : Inv F stub epoch s {} queued [] 0 0)
    (leftover : Nat → Option Nat) (countChannels : Nat) (localEpochs : Nat → Nat) :
    ∃ s' deferred, Returns (s.reclaimEpochGarbage F stub leftover countChannels localEpochs) s' ∧
      Inv F stub epoch s' {} deferred [] 0 0 ∧ Keeps s s' ∧
      (∀ r ∈ deferred, minLocalEpoch countChannels localEpochs ≤ epoch r) ∧
      ∀ r ∈ s'.freed, r ∈ s.freed ∨ epoch r < minLocalEpoch countChannels localEpochs := by
  have hStart : Passing F stub epoch (minLocalEpoch countChannels localEpochs) s s {} queued [] :=
    ⟨h, Keeps.refl s, by simp, fun _ hr => Or.inl hr⟩
  obtain ⟨s₁, temporary, deferred, h₁, hLoop⟩ := hStart.reclaimLoop leftover
  obtain ⟨s₂, hSplice, h₂, hKeeps, hFreed⟩ := h₁.inv.spliceDeferred
  refine ⟨s₂, deferred, ⟨F.count queued, fun fuel hFuel => ?_⟩, h₂, h₁.keeps.trans hKeeps,
    h₁.deferred_young, ?_⟩
  · rw [State.reclaimEpochGarbage, hLoop fuel hFuel]
    exact hSplice
  · rw [hFreed]
    exact h₁.freed_old

/-- One round of `reclaim_all`. -/
theorem Inv.reclaimAll_round (h : Inv F stub epoch s {} queued [] 0 0)
    (leftover : Nat → Option Nat) :
    (queued = [] ∧ ∀ fuel, s.reclaimAll F stub leftover (fuel + 1) = some s) ∨
    ∃ s' queued', Inv F stub epoch s' {} queued' [] 0 0 ∧ Keeps s s' ∧
      F.count queued' < F.count queued ∧
      ∀ fuel, s.reclaimAll F stub leftover (fuel + 1) = s'.reclaimAll F stub leftover fuel := by
  cases queued with
  | nil =>
      refine Or.inl ⟨rfl, fun fuel => ?_⟩
      simp only [State.reclaimAll, h.queue.popFront_nil]
  | cons r queued =>
      obtain ⟨next, queue, hPop, hPopped⟩ := h.popFront
      obtain ⟨s₁, s₂, hReclaim, hFree, hInv, hKeeps, _⟩ := hPopped.reclaim leftover
      refine Or.inr ⟨s₂, _, hInv, ⟨hKeeps.globalEpoch, hKeeps.constructed, hKeeps.added⟩,
        Forest.count_children_lt r queued, fun fuel => ?_⟩
      simp only [State.reclaimAll, hPop, hReclaim, hFree, Option.bind_some]

/-- `reclaim_all` returns, and the queue is empty then. -/
theorem Inv.reclaimAll (h : Inv F stub epoch s {} queued [] 0 0) (leftover : Nat → Option Nat) :
    ∃ s', Returns (s.reclaimAll F stub leftover) s' ∧ Inv F stub epoch s' {} [] [] 0 0 ∧
      Keeps s s' := by
  let P (x : State R) (n : Nat) : Prop := ∃ queued, F.count queued = n ∧
    Inv F stub epoch x {} queued [] 0 0 ∧ Keeps s x
  let Q (x : State R) : Prop := Inv F stub epoch x {} [] [] 0 0 ∧ Keeps s x
  obtain ⟨s', ⟨h', hKeeps⟩, hLoop⟩ := loop_ends
    (f := fun fuel x => State.reclaimAll F stub leftover x fuel) (P := P) (Q := Q)
    (fun x n ⟨queued, hn, hx, hKeeps⟩ => by
      rcases hx.reclaimAll_round leftover with ⟨rfl, hDone⟩ | ⟨s', _, h', hKeeps', hLess, hEq⟩
      · exact Or.inl ⟨x, ⟨hx, hKeeps⟩, hDone⟩
      · exact Or.inr ⟨s', _, ⟨_, rfl, h', hKeeps.trans hKeeps'⟩, hn ▸ hLess, hEq⟩)
    (F.count queued) s ⟨queued, rfl, h, Keeps.refl s⟩
  exact ⟨s', ⟨F.count queued, hLoop⟩, h', hKeeps⟩

end Loops

/-! ## Runs -/

section Runs

variable {s' : State R} {e : Event R} {countChannels : Nat}

theorem Returns.unique {σ : Type*} {loop : Nat → Option σ} {x y : σ} (hx : Returns loop x)
    (hy : Returns loop y) : x = y := by
  obtain ⟨n, hx⟩ := hx
  obtain ⟨m, hy⟩ := hy
  exact Option.some.inj ((hx (n + m + 1) (by omega)).symm.trans (hy (n + m + 1) (by omega)))

/-- Between two calls. -/
def Consistent (F : Forest R) (stub : Nat) (s : State R) : Prop :=
  ∃ epoch queued, Inv F stub epoch s {} queued [] 0 0

theorem Consistent.initial (memory : Nat → Option Nat) :
    Consistent F stub (State.initial stub memory) := by
  refine ⟨fun _ => 0, [], Owned.initial memory, ⟨List.nodup_nil, by simp, [stub], ?_⟩,
    Queue.Holds.nil _⟩
  exact ⟨Or.inl rfl, linked_singleton memory stub, rfl, rfl⟩

/-- The stamps of what is in the garbage do not change with the epoch. -/
theorem Inv.enterEpoch {queued : List R} (h : Inv F stub epoch s {} queued [] 0 0)
    (globalEpoch : Nat) : Consistent F stub { s with globalEpoch := globalEpoch } := by
  classical
  refine ⟨fun d => if d ∈ s.added then epoch d else globalEpoch, queued,
    ⟨h.owned.objects, h.owned.addresses, h.owned.ne_stub, fun r hr => ?_, fun d hd => if_neg hd,
      h.owned.nodup, h.owned.constructed_eq, h.owned.added_eq, h.owned.reclaimed_eq⟩,
    h.queue, h.temporary⟩
  have hAdded : r ∈ s.added := by
    rw [← Multiset.mem_coe, h.owned.added_eq, add_zero]
    exact Multiset.mem_add.mpr (Or.inr hr)
  rw [if_pos hAdded]
  exact h.owned.stamps r hr

/-- A resource is constructed and added. -/
theorem Inv.construct_add {queued : List R} (h : Inv F stub epoch s {} queued [] 0 0)
    (hFresh : s.Fresh F stub r) :
    ∃ s', (s.construct F r).addToGarbageCollection (F.address r) = some s' ∧
      Inv F stub epoch s' {} (queued ++ [r]) [] 0 0 := by
  have hMade : Constructs F (F.nodes r) s (s.construct F r) :=
    constructs_foldl (F.nodes r) hFresh.addresses s
  have hQueue : (s.construct F r).queue.Holds stub (s.construct F r).next
      (queued.map F.address) := by
    rw [hMade.queue]
    refine h.queue.congr fun p hp => hMade.next p fun hIn => ?_
    obtain ⟨d, hd, rfl⟩ := List.mem_map.mp hIn
    obtain ⟨hStub, hNone⟩ := hFresh.unused d hd
    rcases hp with hp | hp
    · exact hStub hp
    · obtain ⟨q, hq, hEq⟩ := List.mem_map.mp hp
      have hObject := h.owned.stamps q (Multiset.mem_add.mpr (Or.inl hq))
      rw [hEq, hNone] at hObject
      exact absurd hObject (by simp)
  have hMadeInv : Inv F stub epoch (s.construct F r) {} queued [] (r ::ₘ 0) 0 :=
    ⟨h.owned.construct hFresh, hQueue, Queue.Holds.nil _⟩
  obtain ⟨s', hAdd, h', _⟩ := hMadeInv.add
  exact ⟨s', hAdd, h'⟩

/-- One call. -/
theorem Inv.step {queued : List R} (h : Inv F stub epoch s {} queued [] 0 0)
    (hStep : Step F stub countChannels s e s') : Consistent F stub s' := by
  cases hStep with
  | enterEpoch => exact h.enterEpoch _
  | add hFresh hAdd =>
      obtain ⟨s₁, hEq, h₁⟩ := h.construct_add hFresh
      obtain rfl : s₁ = s' := Option.some.inj (hEq.symm.trans hAdd)
      exact ⟨epoch, _, h₁⟩
  | @reclaimEpochGarbage _ localEpochs leftover hReturns =>
      obtain ⟨s₁, deferred, hEq, h₁, _⟩ := h.reclaimEpochGarbage leftover countChannels localEpochs
      obtain rfl := hEq.unique hReturns
      exact ⟨epoch, _, h₁⟩
  | @reclaimAll _ leftover hReturns =>
      obtain ⟨s₁, hEq, h₁, _⟩ := h.reclaimAll leftover
      obtain rfl := hEq.unique hReturns
      exact ⟨epoch, _, h₁⟩

theorem Consistent.run {memory : Nat → Option Nat} {es : List (Event R)}
    (hRun : Run (Step F stub countChannels) (State.initial stub memory) es s) :
    Consistent F stub s :=
  hRun.invariant (Consistent.initial memory) fun _ _ _ ⟨_, _, h⟩ hStep => h.step hStep

/-- What a pass with this minimum does with the resources that are queued before it and with those
that are added in it. -/
structure PassOk (F : Forest R) (stub minEpoch : Nat) (s s' : State R) : Prop where
  kept : ∀ p object, s.Queued stub p → s.objects p = some object →
    minEpoch ≤ object.removeEpoch → s'.Queued stub p ∧ s'.objects p = some object
  freed : ∀ p object, s.Queued stub p → s.objects p = some object →
    object.removeEpoch < minEpoch → object.resource ∉ s.freed ∧ object.resource ∈ s'.freed
  kept_new : ∀ r ∈ s'.added, r ∉ s.added → minEpoch ≤ s.globalEpoch →
    s'.Queued stub (F.address r) ∧ s'.objects (F.address r) = some ⟨r, s.globalEpoch⟩
  freed_new : ∀ r ∈ s'.added, r ∉ s.added → s.globalEpoch < minEpoch → r ∈ s'.freed

/-- Everything that was handed over has been freed once. -/
structure Drained (s s' : State R) : Prop where
  added : s'.added.Perm s.constructed
  reclaimed : s'.reclaimed.Perm s.constructed
  freed : s'.freed.Perm s.constructed
  nodup : s.constructed.Nodup
  earlier : s.added ⊆ s'.added

namespace Inv

variable {queued deferred : List R} {p minEpoch : Nat}

theorem queued_iff (h : Inv F stub epoch s {} queued [] 0 0) :
    s.Queued stub p ↔ ∃ r ∈ queued, F.address r = p := by
  rw [State.Queued, ← h.queue.mem_iff, List.mem_map]

theorem object_eq (h : Inv F stub epoch s {} queued [] 0 0) (hr : r ∈ queued) :
    s.objects (F.address r) = some ⟨r, epoch r⟩ :=
  h.owned.stamps r (Multiset.mem_add.mpr (Or.inl hr))

theorem mem_added_iff (h : Inv F stub epoch s {} queued [] 0 0) :
    r ∈ s.added ↔ r ∈ s.freed ∨ r ∈ queued := by
  rw [← Multiset.mem_coe, h.owned.added_eq]
  simp

theorem not_mem_freed (h : Inv F stub epoch s {} queued [] 0 0) (hr : r ∈ queued) :
    r ∉ s.freed :=
  h.owned.not_mem_freed (Forest.mem_live_of_added (Multiset.mem_add.mpr (Or.inl hr)))

/-- A resource found in the queue. -/
theorem exists_of_queued (h : Inv F stub epoch s {} queued [] 0 0) {object : Object R}
    (hp : s.Queued stub p) (hObject : s.objects p = some object) :
    ∃ r ∈ queued, F.address r = p ∧ object = ⟨r, epoch r⟩ := by
  obtain ⟨r, hr, rfl⟩ := h.queued_iff.mp hp
  exact ⟨r, hr, rfl, Option.some.inj (hObject.symm.trans (h.object_eq hr))⟩

theorem passOk (h : Inv F stub epoch s {} queued [] 0 0)
    (h' : Inv F stub epoch s' {} deferred [] 0 0) (hKeeps : Keeps s s')
    (hYoung : ∀ r ∈ deferred, minEpoch ≤ epoch r)
    (hOld : ∀ r ∈ s'.freed, r ∈ s.freed ∨ epoch r < minEpoch) : PassOk F stub minEpoch s s' := by
  have hKept : ∀ r ∈ s'.added, r ∉ s.freed → minEpoch ≤ epoch r →
      s'.Queued stub (F.address r) ∧ s'.objects (F.address r) = some ⟨r, epoch r⟩ := by
    intro r hr hNot hEpoch
    rcases h'.mem_added_iff.mp hr with hFreed | hDeferred
    · exact absurd hEpoch (Nat.not_le.mpr ((hOld r hFreed).resolve_left hNot))
    · exact ⟨h'.queued_iff.mpr ⟨r, hDeferred, rfl⟩, h'.object_eq hDeferred⟩
  have hFreed : ∀ r ∈ s'.added, epoch r < minEpoch → r ∈ s'.freed := by
    intro r hr hEpoch
    rcases h'.mem_added_iff.mp hr with hFreed | hDeferred
    · exact hFreed
    · exact absurd (hYoung r hDeferred) (Nat.not_le.mpr hEpoch)
  refine ⟨fun p object hp hObject hEpoch => ?_, fun p object hp hObject hEpoch => ?_,
    fun r hr hNew hEpoch => ?_, fun r hr hNew hEpoch => ?_⟩
  · obtain ⟨r, hr, rfl, rfl⟩ := h.exists_of_queued hp hObject
    exact hKept r (hKeeps.added (h.mem_added_iff.mpr (Or.inr hr))) (h.not_mem_freed hr) hEpoch
  · obtain ⟨r, hr, rfl, rfl⟩ := h.exists_of_queued hp hObject
    exact ⟨h.not_mem_freed hr, hFreed r (hKeeps.added (h.mem_added_iff.mpr (Or.inr hr))) hEpoch⟩
  · have hStamp : epoch r = s.globalEpoch := h.owned.young r hNew
    rw [← hStamp] at hEpoch ⊢
    exact hKept r hr (fun hIn => hNew (h.mem_added_iff.mpr (Or.inl hIn))) hEpoch
  · rw [← h.owned.young r hNew] at hEpoch
    exact hFreed r hr hEpoch

theorem drained (h' : Inv F stub epoch s' {} [] [] 0 0) (hKeeps : Keeps s s') : Drained s s' := by
  have hFreed : s'.freed.Perm s.constructed := by
    rw [← Multiset.coe_eq_coe, ← hKeeps.constructed, h'.owned.constructed_eq]
    simp [Forest.live]
  refine ⟨?_, ?_, hFreed, ?_, hKeeps.added⟩
  · refine List.Perm.trans ?_ hFreed
    rw [← Multiset.coe_eq_coe, h'.owned.added_eq]
    simp
  · refine List.Perm.trans ?_ hFreed
    rw [← Multiset.coe_eq_coe, h'.owned.reclaimed_eq]
    simp
  · rw [← hKeeps.constructed]
    exact h'.owned.nodup

end Inv

/-- After every sequence of calls: each resource that was added has been passed to `on_reclaim`
and to `free` at most once, and is in the queue if it was not.  A pass returns, whatever the
local epochs are; it leaves the resources in the queue whose remove epoch is not smaller than the
minimum, with that epoch, and frees the others, also among those added meanwhile.
`reclaim_all` returns, and then everything that was ever handed over has been freed exactly once,
with all that was added on the way. -/
theorem garbage_of_run (F : Forest R) (stub countChannels : Nat) (memory : Nat → Option Nat)
    (es : List (Event R)) (s : State R)
    (hRun : Run (Step F stub countChannels) (State.initial stub memory) es s) :
    (s.added.Nodup ∧ s.reclaimed.Nodup ∧ s.freed.Nodup ∧ s.reclaimed ⊆ s.added ∧
      s.freed ⊆ s.added) ∧
    (∀ r ∈ s.added, r ∉ s.freed → s.Queued stub (F.address r) ∧
      ∃ removeEpoch, s.objects (F.address r) = some ⟨r, removeEpoch⟩) ∧
    (∀ r, s.Fresh F stub r →
      ∃ s', (s.construct F r).addToGarbageCollection (F.address r) = some s') ∧
    (∀ localEpochs leftover, ∃ s',
      Returns (s.reclaimEpochGarbage F stub leftover countChannels localEpochs) s' ∧
      PassOk F stub (minLocalEpoch countChannels localEpochs) s s') ∧
    ∀ leftover, ∃ s', Returns (s.reclaimAll F stub leftover) s' ∧ Drained s s' := by
  obtain ⟨epoch, queued, h⟩ := Consistent.run hRun
  have hNodup := h.owned.added_nodup
  rw [← h.owned.added_eq] at hNodup
  have hFreedLe : (s.freed : Multiset R) ≤ s.added := by
    rw [h.owned.added_eq]
    exact Multiset.le_add_right _ _
  have hReclaimed : (s.reclaimed : Multiset R) = s.freed := by
    rw [h.owned.reclaimed_eq, add_zero]
  refine ⟨⟨Multiset.coe_nodup.mp hNodup, ?_, ?_, ?_, ?_⟩, fun r hr hNot => ?_,
    fun r hFresh => ?_, fun localEpochs leftover => ?_, fun leftover => ?_⟩
  · rw [← Multiset.coe_nodup, hReclaimed]
    exact Multiset.nodup_of_le hFreedLe hNodup
  · exact Multiset.coe_nodup.mp (Multiset.nodup_of_le hFreedLe hNodup)
  · intro r hr
    rw [← Multiset.mem_coe, hReclaimed] at hr
    exact Multiset.mem_of_le hFreedLe hr
  · exact fun r hr => Multiset.mem_of_le hFreedLe hr
  · have hQueued := (h.mem_added_iff.mp hr).resolve_left hNot
    exact ⟨h.queued_iff.mpr ⟨r, hQueued, rfl⟩, epoch r, h.object_eq hQueued⟩
  · obtain ⟨s', hAdd, _⟩ := h.construct_add hFresh
    exact ⟨s', hAdd⟩
  · obtain ⟨s', deferred, hReturns, h', hKeeps, hYoung, hOld⟩ :=
      h.reclaimEpochGarbage leftover countChannels localEpochs
    exact ⟨s', hReturns, h.passOk h' hKeeps hYoung hOld⟩
  · obtain ⟨s', hReturns, h', hKeeps⟩ := h.reclaimAll leftover
    exact ⟨s', hReturns, h'.drained hKeeps⟩

/-- A resource at address 1 whose `on_reclaim` adds the one at address 2. -/
def parentAndChild : Forest Bool where
  address r := if r then 1 else 2
  children r := if r then [false] else []
  nodes r := if r then [true, false] else [false]
  nodes_eq r := by cases r <;> rfl

/-- The resource is added; `reclaim_all` frees it and the one it adds. -/
theorem garbage_of_run_parent :
    ∃ es s, Run (Step parentAndChild 0 1) (State.initial 0 fun _ => none) es s ∧
      s.added = [true] ∧ ∃ s', Returns (s.reclaimAll parentAndChild 0 fun _ => none) s' ∧
        s'.freed.Perm [true, false] := by
  have hFresh : (State.initial 0 fun _ => none : State Bool).Fresh parentAndChild 0 true :=
    ⟨by decide, by decide, by decide, by decide⟩
  have hAdd : Step parentAndChild 0 1 _ _ _ := Step.add hFresh rfl
  have hRun := Run.single hAdd
  obtain ⟨s', hReturns, hDrained⟩ :=
    (garbage_of_run parentAndChild 0 1 (fun _ => none) _ _ hRun).2.2.2.2 fun _ => none
  exact ⟨_, _, hRun, rfl, s', hReturns, hDrained.freed⟩

end Runs

end MxTasking.Memory.Garbage
