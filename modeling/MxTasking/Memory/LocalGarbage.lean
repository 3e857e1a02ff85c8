import MxTasking.Memory.GarbageCollection
import Mathlib.Algebra.BigOperators.Group.Finset.Basic
import Mathlib.Data.Fintype.BigOperators

/-!
# Local garbage collection at shutdown

`reclaim_all` of `epoch_manager.cpp` with `config::local_garbage_collection()`: every channel has a
garbage queue of its own, and the queues are drained one after the other, from the first
channel to the last.  `on_reclaim` of a resource adds its children to the queues of their channels,
as the destructor of a tree node does, also to queues that the pass has left already.

There are `n` channels.  The threads have been joined, so the queues are lists; the resources below
a resource are finitely many (`Forest`).

## Main results

* `ascending_pop` — what one pop tells of the resources that will be left.
* `drain_returns`, `reclaimAll_returns` — the loops end.
* `drained_iff` — everything is freed exactly if no child lies on an earlier channel.
-/

namespace MxTasking.Memory.LocalGarbage

open MxTasking.Verified
open MxTasking.Memory.Garbage (Forest Returns)

variable {R : Type*} {n : Nat}

/-! ## The program -/

/-- The local garbage queues, and logs of the resources that were added to the garbage and freed. -/
structure State (R : Type*) (n : Nat) where
  queues : Fin n → List R
  added : List R
  freed : List R

namespace State

/-- The queues before the call. -/
def initial (queues : Fin n → List R) : State R n where
  queues := queues
  added := (List.finRange n).flatMap queues
  freed := []

variable (F : Forest R) (channelId : R → Fin n)

/-- `add_to_garbage_collection(resource, owning_channel_id)`. -/
def addToGarbageCollection (s : State R n) (resource : R) : State R n :=
  { s with
    queues := Function.update s.queues (channelId resource)
      (s.queues (channelId resource) ++ [resource])
    added := s.added ++ [resource] }

/-- `on_reclaim()`. -/
def onReclaim (s : State R n) (resource : R) : State R n :=
  (F.children resource).foldl (addToGarbageCollection channelId) s

/-- A round of the loop, for a resource that has been popped. -/
def reclaim (s : State R n) (channel : Fin n) (resource : R) (rest : List R) : State R n :=
  let s := { s with queues := Function.update s.queues channel rest }
  let s := s.onReclaim F channelId resource
  { s with freed := s.freed ++ [resource] }

/-- The loop over the queue of a channel. -/
def drain (channel : Fin n) : Nat → State R n → Option (State R n)
  | 0, _ => none
  | fuel + 1, s =>
      match s.queues channel with
      | [] => some s
      | resource :: rest => drain channel fuel (s.reclaim F channelId channel resource rest)

/-- `reclaim_all()`. -/
def reclaimAll (s : State R n) (fuel : Nat) : Option (State R n) :=
  (List.finRange n).foldlM (fun s channel => drain F channelId channel fuel s) s

end State

/-! ## What is promised -/

/-- Nothing is left, and what was added before or during the call has been freed, once. -/
structure Drained (F : Forest R) (queues : Fin n → List R) (s : State R n) : Prop where
  empty : ∀ channel, s.queues channel = []
  freed : s.freed.Perm s.added
  once : ((List.finRange n).flatMap fun channel => (queues channel).flatMap F.nodes).Nodup →
    s.freed.Nodup

/-- No child below a resource in the queue of a channel is on an earlier channel than its parent. -/
inductive Ascending (F : Forest R) (channelId : R → Fin n) : Fin n → R → Prop where
  | mk {channel : Fin n} {resource : R}
      (hChannel : ∀ child ∈ F.children resource, channel ≤ channelId child)
      (hBelow : ∀ child ∈ F.children resource, Ascending F channelId (channelId child) child) :
      Ascending F channelId channel resource

/-! ## Adding to the queues -/

section Adding

variable {F : Forest R} {channelId : R → Fin n} {s : State R n}

/-- What all queues together have, counted with `g`. -/
def total (g : List R → Multiset R) (queues : Fin n → List R) : Multiset R :=
  ∑ channel, g (queues channel)

theorem total_update (g : List R → Multiset R) (queues : Fin n → List R) (channel : Fin n)
    (l : List R) :
    total g (Function.update queues channel l) + g (queues channel) = total g queues + g l := by
  have hOther : ∑ x ∈ Finset.univ.erase channel, g (Function.update queues channel l x) =
      ∑ x ∈ Finset.univ.erase channel, g (queues x) := by
    refine Finset.sum_congr rfl fun x hx => ?_
    rw [Function.update_of_ne (Finset.ne_of_mem_erase hx)]
  unfold total
  rw [← Finset.add_sum_erase _ _ (Finset.mem_univ channel),
    ← Finset.add_sum_erase _ (fun x => g (queues x)) (Finset.mem_univ channel), hOther,
    Function.update_self]
  ac_rfl

theorem total_coe (f : List R → List R) (queues : Fin n → List R) :
    total (fun l => ↑(f l)) queues =
      ↑((List.finRange n).flatMap fun channel => f (queues channel)) := by
  rw [← Multiset.coe_bind]
  rfl

theorem total_eq_zero (g : List R → Multiset R) {queues : Fin n → List R}
    (hEmpty : ∀ channel, queues channel = []) (hg : g [] = 0) : total g queues = 0 :=
  Finset.sum_eq_zero fun channel _ => by rw [hEmpty channel, hg]

theorem onReclaim_queues (children : List R) (channel : Fin n) :
    (children.foldl (State.addToGarbageCollection channelId) s).queues channel =
      s.queues channel ++ children.filter (fun child => channelId child = channel) := by
  induction children generalizing s with
  | nil => simp
  | cons child children ih =>
      rw [List.foldl_cons, ih]
      by_cases hEq : channelId child = channel
      · subst hEq
        simp [State.addToGarbageCollection]
      · have hne : channel ≠ channelId child := Ne.symm hEq
        simp [State.addToGarbageCollection, hEq, hne]

theorem onReclaim_added (children : List R) :
    (children.foldl (State.addToGarbageCollection channelId) s).added = s.added ++ children := by
  induction children generalizing s with
  | nil => simp
  | cons child children ih =>
      rw [List.foldl_cons, ih]
      simp [State.addToGarbageCollection]

theorem onReclaim_freed (children : List R) :
    (children.foldl (State.addToGarbageCollection channelId) s).freed = s.freed := by
  induction children generalizing s with
  | nil => rfl
  | cons child children ih =>
      rw [List.foldl_cons, ih]
      rfl

theorem onReclaim_total (g : List R → Multiset R) (hg : ∀ l l', g (l ++ l') = g l + g l')
    (children : List R) :
    total g (children.foldl (State.addToGarbageCollection channelId) s).queues =
      total g s.queues + g children := by
  have hNil : g [] = 0 := by
    have hTwice := hg [] []
    rw [List.append_nil] at hTwice
    exact (left_eq_add.mp hTwice)
  induction children generalizing s with
  | nil => rw [List.foldl_nil, hNil, add_zero]
  | cons child children ih =>
      have hUpdate := total_update g s.queues (channelId child)
        (s.queues (channelId child) ++ [child])
      rw [hg, ← add_assoc, add_right_comm] at hUpdate
      have hAdd : total g (s.addToGarbageCollection channelId child).queues =
          total g s.queues + g [child] := add_right_cancel hUpdate
      rw [List.foldl_cons, ih, hAdd, add_assoc, ← hg]
      rfl

end Adding

/-! ## One resource -/

section Reclaim

variable {F : Forest R} {channelId : R → Fin n} {s : State R n} {channel : Fin n} {resource : R}
  {rest : List R}

theorem reclaim_queues (other : Fin n) :
    (s.reclaim F channelId channel resource rest).queues other =
      Function.update s.queues channel rest other ++
        (F.children resource).filter (fun child => channelId child = other) :=
  onReclaim_queues (F.children resource) other

/-- What a popped resource leaves, counted with `g`. -/
theorem reclaim_total (F : Forest R) (channelId : R → Fin n) (g : List R → Multiset R)
    (hg : ∀ l l', g (l ++ l') = g l + g l') (hQueue : s.queues channel = resource :: rest) :
    total g (s.reclaim F channelId channel resource rest).queues + g [resource] =
      total g s.queues + g (F.children resource) := by
  have hUpdate := total_update g s.queues channel rest
  rw [hQueue, show resource :: rest = [resource] ++ rest from rfl, hg, ← add_assoc] at hUpdate
  have hPop : total g (Function.update s.queues channel rest) + g [resource] = total g s.queues :=
    add_right_cancel hUpdate
  have hReclaim : total g (s.reclaim F channelId channel resource rest).queues =
      total g (Function.update s.queues channel rest) + g (F.children resource) :=
    onReclaim_total g hg (F.children resource)
  rw [hReclaim, add_right_comm, hPop]

/-- The resources in the queues with everything below them. -/
def below (F : Forest R) (l : List R) : Multiset R := ↑(l.flatMap F.nodes)

theorem below_append (F : Forest R) (l l' : List R) :
    below F (l ++ l') = below F l + below F l' := by
  rw [below, List.flatMap_append, ← Multiset.coe_add]
  rfl

/-- What is freed and what is left make up what was there. -/
structure Account (F : Forest R) (queues : Fin n → List R) (s : State R n) : Prop where
  added : (s.added : Multiset R) = s.freed + total (fun l => ↑l) s.queues
  nodes : (s.freed : Multiset R) + total (below F) s.queues = total (below F) queues

theorem Account.initial (F : Forest R) (queues : Fin n → List R) :
    Account F queues (State.initial queues) := by
  refine ⟨?_, zero_add _⟩
  exact ((zero_add _).trans (total_coe (fun l => l) queues)).symm

theorem Account.reclaim {queues : Fin n → List R} (h : Account F queues s)
    (hQueue : s.queues channel = resource :: rest) :
    Account F queues (s.reclaim F channelId channel resource rest) := by
  have hAdded : (s.reclaim F channelId channel resource rest).added =
      s.added ++ F.children resource := onReclaim_added (F.children resource)
  have hFreed : (s.reclaim F channelId channel resource rest).freed = s.freed ++ [resource] := by
    show (State.onReclaim F channelId _ resource).freed ++ [resource] = _
    rw [State.onReclaim, onReclaim_freed]
  have hLists := reclaim_total F channelId (fun l => (↑l : Multiset R))
    (fun l l' => (Multiset.coe_add l l').symm) hQueue
  have hNodes := reclaim_total F channelId (below F) (below_append F) hQueue
  refine ⟨?_, ?_⟩
  · rw [hAdded, hFreed, ← Multiset.coe_add, ← Multiset.coe_add, h.added, add_assoc, ← hLists]
    ac_rfl
  · have hSplit : below F [resource] = {resource} + below F (F.children resource) := by
      rw [below, List.flatMap_singleton, F.nodes_eq]
      rfl
    rw [hSplit, ← add_assoc] at hNodes
    have hRest := add_right_cancel hNodes
    rw [hFreed, ← Multiset.coe_add, ← h.nodes, ← hRest, Multiset.coe_singleton]
    ac_rfl

/-- A popped resource is one fewer. -/
theorem card_reclaim (channelId : R → Fin n) (hQueue : s.queues channel = resource :: rest) :
    (total (below F) (s.reclaim F channelId channel resource rest).queues).card <
      (total (below F) s.queues).card := by
  have hNodes := congrArg Multiset.card
    (reclaim_total F channelId (below F) (below_append F) hQueue)
  have hOne : (below F [resource]).card = (below F (F.children resource)).card + 1 := by
    rw [below, List.flatMap_singleton, F.nodes_eq, Multiset.coe_card, List.length_cons]
    rfl
  rw [Multiset.card_add, Multiset.card_add, hOne] at hNodes
  omega

/-! ## The pass -/

/-- When the pass has come to a channel: nothing is left behind it, and nothing will be. -/
def Complete (F : Forest R) (channelId : R → Fin n) (position : Nat) (s : State R n) : Prop :=
  (∀ other : Fin n, other.val < position → s.queues other = []) ∧
  ∀ other : Fin n, position ≤ other.val → ∀ r ∈ s.queues other, Ascending F channelId other r

theorem update_before {other : Fin n} (hlt : other.val < channel.val) :
    Function.update s.queues channel rest other = s.queues other :=
  Function.update_of_ne (Fin.ne_of_lt hlt) _ _

/-- A resource whose children go to this channel and later ones. -/
theorem Complete.reclaim (h : Complete F channelId channel.val s)
    (hQueue : s.queues channel = resource :: rest) :
    Complete F channelId channel.val (s.reclaim F channelId channel resource rest) := by
  obtain ⟨hEmpty, hAscending⟩ := h
  have hFirst : Ascending F channelId channel resource :=
    hAscending channel (Nat.le_refl _) resource (by rw [hQueue]; exact List.mem_cons_self)
  obtain ⟨hChannel, hBelow⟩ := hFirst
  refine ⟨fun other hlt => ?_, fun other hle r hr => ?_⟩
  · rw [reclaim_queues, update_before hlt, hEmpty other hlt, List.nil_append,
      List.filter_eq_nil_iff]
    intro child hChild hSame
    have hEq : channelId child = other := by simpa using hSame
    exact absurd (hChannel child hChild) (not_le.mpr (hEq ▸ hlt))
  · rw [reclaim_queues] at hr
    rcases List.mem_append.mp hr with hOld | hNew
    · by_cases hEq : other = channel
      · subst hEq
        rw [Function.update_self] at hOld
        exact hAscending other hle r (by rw [hQueue]; exact List.mem_cons_of_mem _ hOld)
      · rw [Function.update_of_ne hEq] at hOld
        exact hAscending other hle r hOld
    · obtain ⟨hChild, hSame⟩ := List.mem_filter.mp hNew
      obtain rfl : channelId r = other := by simpa using hSame
      exact hBelow r hChild

/-- A child on an earlier channel would be left there. -/
theorem Complete.of_reclaim (hQueue : s.queues channel = resource :: rest)
    (h : Complete F channelId channel.val (s.reclaim F channelId channel resource rest)) :
    Complete F channelId channel.val s := by
  obtain ⟨hEmpty, hAscending⟩ := h
  have hChannel : ∀ child ∈ F.children resource, channel ≤ channelId child := by
    intro child hChild
    by_contra hEarlier
    have hLeft := hEmpty (channelId child) (not_le.mp hEarlier)
    rw [reclaim_queues, List.append_eq_nil_iff, List.filter_eq_nil_iff] at hLeft
    exact hLeft.2 child hChild (by simp)
  have hFirst : Ascending F channelId channel resource := by
    refine Ascending.mk hChannel fun child hChild => ?_
    refine hAscending (channelId child) (hChannel child hChild) child ?_
    rw [reclaim_queues]
    exact List.mem_append_right _ (List.mem_filter.mpr ⟨hChild, by simp⟩)
  have hRest {other : Fin n} (hle : channel.val ≤ other.val) {r : R}
      (hr : r ∈ Function.update s.queues channel rest other) : Ascending F channelId other r := by
    refine hAscending other hle r ?_
    rw [reclaim_queues]
    exact List.mem_append_left _ hr
  refine ⟨fun other hlt => ?_, fun other hle r hr => ?_⟩
  · have hLeft := hEmpty other hlt
    rw [reclaim_queues, List.append_eq_nil_iff, update_before hlt] at hLeft
    exact hLeft.1
  · by_cases hEq : other = channel
    · subst hEq
      rw [hQueue] at hr
      rcases List.mem_cons.mp hr with rfl | hTail
      · exact hFirst
      · exact hRest hle (by rw [Function.update_self]; exact hTail)
    · exact hRest hle (by rw [Function.update_of_ne hEq]; exact hr)

/-- A pop tells nothing new of what will be left. -/
theorem ascending_pop (hQueue : s.queues channel = resource :: rest) :
    Complete F channelId channel.val (s.reclaim F channelId channel resource rest) ↔
      Complete F channelId channel.val s :=
  ⟨Complete.of_reclaim hQueue, fun h => h.reclaim hQueue⟩

/-- Behind a queue that is empty. -/
theorem complete_succ (hQueue : s.queues channel = []) :
    Complete F channelId (channel.val + 1) s ↔ Complete F channelId channel.val s := by
  constructor
  · rintro ⟨hEmpty, hAscending⟩
    refine ⟨fun other hlt => hEmpty other (Nat.lt_succ_of_lt hlt), fun other hle r hr => ?_⟩
    rcases Nat.lt_or_eq_of_le hle with hlt | hEq
    · exact hAscending other hlt r hr
    · rw [← Fin.ext hEq, hQueue] at hr
      cases hr
  · rintro ⟨hEmpty, hAscending⟩
    refine ⟨fun other hlt => ?_, fun other hle => hAscending other (Nat.le_of_succ_le hle)⟩
    rcases Nat.lt_or_eq_of_le (Nat.le_of_lt_succ hlt) with hBefore | hEq
    · exact hEmpty other hBefore
    · rw [Fin.ext hEq]
      exact hQueue

end Reclaim

section Pass

variable {F : Forest R} {channelId : R → Fin n} {queues : Fin n → List R} {s : State R n}

/-- The loop over a queue ends with an empty queue. -/
theorem drain_returns (channelId : R → Fin n) (channel : Fin n) (h : Account F queues s) :
    ∃ t, (t.queues channel = [] ∧ Account F queues t ∧
        (Complete F channelId channel.val t ↔ Complete F channelId channel.val s)) ∧
      ∀ fuel, (total (below F) s.queues).card < fuel →
        State.drain F channelId channel fuel s = some t := by
  refine loop_ends (f := State.drain F channelId channel)
    (P := fun x m => (total (below F) x.queues).card = m ∧ Account F queues x ∧
      (Complete F channelId channel.val x ↔ Complete F channelId channel.val s))
    (fun x m hx => ?_) _ s ⟨rfl, h, Iff.rfl⟩
  obtain ⟨hm, hAccount, hComplete⟩ := hx
  cases hQueue : x.queues channel with
  | nil =>
      refine Or.inl ⟨x, ⟨hQueue, hAccount, hComplete⟩, fun fuel => ?_⟩
      simp only [State.drain, hQueue]
  | cons resource rest =>
      refine Or.inr ⟨x.reclaim F channelId channel resource rest, _,
        ⟨rfl, hAccount.reclaim hQueue, (ascending_pop hQueue).trans hComplete⟩,
        hm ▸ card_reclaim channelId hQueue, fun fuel => ?_⟩
      simp only [State.drain, hQueue]

/-- The number of resources that are there at most. -/
theorem Account.card_le (h : Account F queues s) :
    (total (below F) s.queues).card ≤ (total (below F) queues).card := by
  rw [← h.nodes, Multiset.card_add]
  exact Nat.le_add_left _ _

/-- The pass over the first `position` channels. -/
theorem pass_returns (F : Forest R) (channelId : R → Fin n) (queues : Fin n → List R)
    (position : Nat) (hPosition : position ≤ n) :
    ∃ t, Account F queues t ∧
      (Complete F channelId position t ↔ Complete F channelId 0 (State.initial queues)) ∧
      ∀ fuel, (total (below F) queues).card < fuel →
        ((List.finRange n).take position).foldlM
          (fun s channel => State.drain F channelId channel fuel s) (State.initial queues) =
            some t := by
  induction position with
  | zero => exact ⟨State.initial queues, Account.initial F queues, Iff.rfl, fun _ _ => rfl⟩
  | succ position ih =>
      obtain ⟨s, hAccount, hComplete, hLoop⟩ := ih (Nat.le_of_succ_le hPosition)
      have hTake : (List.finRange n).take (position + 1) =
          (List.finRange n).take position ++ [⟨position, hPosition⟩] := by
        rw [List.take_add_one,
          List.getElem?_eq_getElem (by rw [List.length_finRange]; exact hPosition)]
        simp
      obtain ⟨t, ⟨hQueue, hAccount', hSame⟩, hDrain⟩ :=
        drain_returns channelId ⟨position, hPosition⟩ hAccount
      refine ⟨t, hAccount', ?_, fun fuel hFuel => ?_⟩
      · exact (complete_succ hQueue).trans (hSame.trans hComplete)
      · rw [hTake, List.foldlM_append, hLoop fuel hFuel]
        show (State.drain F channelId ⟨position, hPosition⟩ fuel s >>= fun t => some t) = some t
        rw [hDrain fuel (Nat.lt_of_le_of_lt hAccount.card_le hFuel)]
        rfl

/-- `reclaim_all()` ends, and then everything has been freed exactly if no child below a queued
resource is on an earlier channel than its parent. -/
theorem drained_iff (F : Forest R) (channelId : R → Fin n) (queues : Fin n → List R) :
    ∃ s, Returns ((State.initial queues).reclaimAll F channelId) s ∧
      (Drained F queues s ↔
        ∀ channel, ∀ resource ∈ queues channel, Ascending F channelId channel resource) := by
  obtain ⟨s, hAccount, hComplete, hLoop⟩ := pass_returns F channelId queues n (Nat.le_refl n)
  have hReturns : Returns ((State.initial queues).reclaimAll F channelId) s := by
    refine ⟨(total (below F) queues).card, fun fuel hFuel => ?_⟩
    have hAll := hLoop fuel hFuel
    rw [List.take_of_length_le (by simp)] at hAll
    exact hAll
  refine ⟨s, hReturns, ?_⟩
  have hStart : Complete F channelId 0 (State.initial queues) ↔
      ∀ channel, ∀ resource ∈ queues channel, Ascending F channelId channel resource :=
    ⟨fun h channel => h.2 channel (Nat.zero_le _), fun h => ⟨nofun, fun channel _ => h channel⟩⟩
  have hEnd : Complete F channelId n s ↔ ∀ channel, s.queues channel = [] :=
    ⟨fun h channel => h.1 channel channel.isLt,
      fun h => ⟨fun channel _ => h channel, fun channel hle => absurd channel.isLt (by omega)⟩⟩
  rw [← hStart, ← hComplete, hEnd]
  refine ⟨fun h => h.empty, fun hEmpty => ⟨hEmpty, ?_, fun hNodup => ?_⟩⟩
  · have hAdded := hAccount.added
    rw [total_eq_zero (fun l => ↑l) hEmpty rfl, add_zero] at hAdded
    exact (Multiset.coe_eq_coe.mp hAdded).symm
  · have hNodes := hAccount.nodes
    rw [total_eq_zero (below F) hEmpty rfl, add_zero] at hNodes
    rw [← Multiset.coe_nodup, hNodes]
    have hAll := total_coe (fun l => l.flatMap F.nodes) queues
    rw [← Multiset.coe_nodup, ← hAll] at hNodup
    exact hNodup

end Pass

/-! ## A child on an earlier channel -/

/-- Resource 0 has the child 1. -/
def pair : Forest Nat where
  address := id
  children r := if r = 0 then [1] else []
  nodes r := if r = 0 then [0, 1] else [r]
  nodes_eq r := by
    by_cases hr : r = 0
    · subst hr
      rfl
    · simp [hr]

/-- The parent is on channel 1 and the child on channel 0. -/
def descending (r : Nat) : Fin 2 := if r = 0 then 1 else 0

/-- The child is added to a queue that the pass has left, and stays there. -/
theorem child_left_behind : ∃ s,
    Returns ((State.initial fun channel => if channel = 1 then [0] else []).reclaimAll pair
      descending) s ∧ s.queues 0 = [1] ∧ s.added = [0, 1] ∧ s.freed = [0] ∧
    ¬ Drained pair (fun channel => if channel = 1 then [0] else []) s := by
  refine ⟨(State.initial fun channel => if channel = 1 then [0] else []).reclaim pair descending 1
    0 [], ⟨2, fun fuel hFuel => ?_⟩, rfl, rfl, rfl, fun hDrained => ?_⟩
  · obtain ⟨k, rfl⟩ : ∃ k, fuel = k + 3 := ⟨fuel - 3, by omega⟩
    rfl
  · exact absurd (hDrained.empty 0) (by decide)

end MxTasking.Memory.LocalGarbage
