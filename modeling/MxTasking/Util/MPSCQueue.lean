import MxTasking.Verified.Neighbours
import MxTasking.Verified.TransitionSystem

/-!
# The multi producer, single consumer queue

`mpsc_queue.h`.  The items are linked through a field of their own; `_head` is the item pushed
last, `_tail` the next one to be popped, and a stub keeps the list from ever being empty.  A push
exchanges `_head` and links the previous head to its items only afterwards, so between
the two the list is cut.  The consumer takes the stub out when it comes across it and pushes it
again when it is about to take the last item.

Every access of shared memory is a step of its own here, and any number of producers take
theirs in any order.  `push_back(item)` is `push_back(begin, end)` with one item, so a push has a
list of items, and the consumer pushes the stub in the same way as a producer pushes its
items.  A client may write the link of an item while it is neither in the queue nor being pushed.

## Main results

* `Inv.step` — one step keeps the list from `_tail` to `_head` in order.
* `fifo_of_run` — the queue is a lossless FIFO, and what `nullptr` and `empty()` mean.
-/

namespace MxTasking.Util.MPSCQueue

open MxTasking.Verified (update_cases update_elsewhere)
open MxTasking.Verified.Neighbours

/-! ## The program -/

/-- How far a `push_back` has come. -/
inductive Push where
  | idle
  /-- `end->next(nullptr)` is done; the items are given from `begin` to `end`. -/
  | cleared (items : List Nat)
  /-- `_head` is exchanged, the link of the old head is not written yet. -/
  | exchanged (oldHead begin : Nat)
  deriving DecidableEq, Repr

/-- How far the consumer has come, with the local variables that are still needed. -/
inductive Consumer where
  | idle
  /-- `tail` is read. -/
  | gotTail (tail : Nat)
  /-- `tail` is the stub, `next` is read. -/
  | atStub (next : Option Nat)
  /-- The stub is taken out. -/
  | skipped (tail : Nat)
  /-- `tail` is an item, `next` is read. -/
  | atItem (tail : Nat) (next : Option Nat)
  /-- There was no next one, `_head` is read. -/
  | gotHead (tail head : Nat)
  /-- The stub is being pushed. -/
  | pushing (tail : Nat)
  | pushed (tail : Nat)
  /-- `next` is read once more. -/
  | final (tail : Nat) (next : Option Nat)
  /-- In `empty()`: `_tail` is the stub. -/
  | emptyAtStub
  deriving DecidableEq, Repr

/-- The queue, the links of all items, what the producers (`some p`) and the consumer (`none`)
are pushing, and two logs: the items in the order of the exchanges and the items returned. -/
structure State where
  next : Nat → Option Nat
  head : Nat
  tail : Nat
  pushes : Option Nat → Push
  consumer : Consumer
  exchanged : List Nat
  returned : List Nat

inductive Event where
  | write (item : Nat)
  | produce (producer : Nat)
  /-- A producer exchanges `_head`. -/
  | exchange (producer : Nat) (items : List Nat)
  | consume
  | popBegin
  | popReturn (result : Option Nat)
  | emptyReturn (result : Bool)
  deriving DecidableEq, Repr

/-- The items that are pushed, at the exchange. -/
def Event.pushed : Event → List Nat
  | .exchange _ items => items
  | _ => []

/-- The item that `pop_front` returns. -/
def Event.popped : Event → Option Nat
  | .popReturn result => result
  | _ => none

namespace State

/-- `end->next(nullptr)`, where `end` is the last of the items. -/
def clear (s : State) (who : Option Nat) (items : List Nat) : State :=
  { s with
    next := fun x => if items.getLast? = some x then none else s.next x
    pushes := Function.update s.pushes who (.cleared items) }

/-- `__atomic_exchange_n(&_head, end)`; the stub is not an item. -/
def exchange (s : State) (who : Option Nat) (items : List Nat) : State :=
  { s with
    head := items.getLast?.getD s.head
    pushes := Function.update s.pushes who (.exchanged s.head (items.head?.getD s.head))
    exchanged := if who = none then s.exchanged else s.exchanged ++ items }

/-- `old_head->next(begin)`. -/
def link (s : State) (who : Option Nat) (oldHead begin : Nat) : State :=
  { s with
    next := Function.update s.next oldHead (some begin)
    pushes := Function.update s.pushes who .idle }

/-- `_tail = next; return tail`. -/
def take (s : State) (tail next : Nat) : State :=
  { s with
    tail := next
    consumer := .idle
    returned := s.returned ++ [tail] }

/-- The item belongs to a client: it is not the stub, it has been returned as often as it was
pushed, and nobody is pushing it. -/
def Free (stub : Nat) (s : State) (x : Nat) : Prop :=
  x ≠ stub ∧ s.exchanged.count x = s.returned.count x ∧
    ∀ who items, s.pushes who = .cleared items → x ∉ items

end State

/-- The steps.  `stub` is `_end`. -/
inductive Step (stub : Nat) : State → Event → State → Prop where
  | write {s} (x : Nat) (link : Option Nat) : s.Free stub x →
      Step stub s (.write x) { s with next := Function.update s.next x link }
  -- `push_back` of a producer; the items are linked among themselves
  | clear {s} (p : Nat) (items : List Nat) : s.pushes (some p) = .idle → items ≠ [] →
      items.Nodup → (∀ x ∈ items, s.Free stub x) →
      (∀ x y, Adjacent items x y → s.next x = some y) →
      Step stub s (.produce p) (s.clear (some p) items)
  | exchange {s} (p : Nat) (items : List Nat) : s.pushes (some p) = .cleared items →
      Step stub s (.exchange p items) (s.exchange (some p) items)
  | link {s} (p oldHead begin : Nat) : s.pushes (some p) = .exchanged oldHead begin →
      Step stub s (.produce p) (s.link (some p) oldHead begin)
  -- `pop_front`
  | readTail {s} : s.consumer = .idle →
      Step stub s .popBegin { s with consumer := .gotTail s.tail }
  | readNext {s} (tail : Nat) : s.consumer = .gotTail tail →
      Step stub s .consume
        { s with
          consumer := if tail = stub then .atStub (s.next tail) else .atItem tail (s.next tail) }
  | nullAtStub {s} : s.consumer = .atStub none →
      Step stub s (.popReturn none) { s with consumer := .idle }
  | skipStub {s} (next : Nat) : s.consumer = .atStub (some next) →
      Step stub s .consume { s with tail := next, consumer := .skipped next }
  | readNextOfSkipped {s} (tail : Nat) : s.consumer = .skipped tail →
      Step stub s .consume { s with consumer := .atItem tail (s.next tail) }
  | takeItem {s} (tail next : Nat) : s.consumer = .atItem tail (some next) →
      Step stub s (.popReturn (some tail)) (s.take tail next)
  | readHead {s} (tail : Nat) : s.consumer = .atItem tail none →
      Step stub s .consume { s with consumer := .gotHead tail s.head }
  | nullAtHead {s} (tail head : Nat) : s.consumer = .gotHead tail head → tail ≠ head →
      Step stub s (.popReturn none) { s with consumer := .idle }
  -- `push_back(_end)` of the consumer
  | clearStub {s} (tail : Nat) : s.consumer = .gotHead tail tail →
      Step stub s .consume { s.clear none [stub] with consumer := .pushing tail }
  | exchangeStub {s} (tail : Nat) (items : List Nat) : s.consumer = .pushing tail →
      s.pushes none = .cleared items → Step stub s .consume (s.exchange none items)
  | linkStub {s} (tail oldHead begin : Nat) : s.consumer = .pushing tail →
      s.pushes none = .exchanged oldHead begin →
      Step stub s .consume { s.link none oldHead begin with consumer := .pushed tail }
  | readLast {s} (tail : Nat) : s.consumer = .pushed tail →
      Step stub s .consume { s with consumer := .final tail (s.next tail) }
  | takeLast {s} (tail next : Nat) : s.consumer = .final tail (some next) →
      Step stub s (.popReturn (some tail)) (s.take tail next)
  | nullLast {s} (tail : Nat) : s.consumer = .final tail none →
      Step stub s (.popReturn none) { s with consumer := .idle }
  -- `empty()`
  | emptyAtItem {s} : s.consumer = .idle → s.tail ≠ stub → Step stub s (.emptyReturn false) s
  | emptyAtStub {s} : s.consumer = .idle → s.tail = stub →
      Step stub s .consume { s with consumer := .emptyAtStub }
  | emptyNext {s} : s.consumer = .emptyAtStub →
      Step stub s (.emptyReturn (decide (s.next stub = none))) { s with consumer := .idle }

/-- The constructed queue; the links of the items are whatever the memory holds. -/
def State.initial (stub : Nat) (memory : Nat → Option Nat) : State where
  next := Function.update memory stub none
  head := stub
  tail := stub
  pushes _ := .idle
  consumer := .idle
  exchanged := []
  returned := []

/-! ## The invariant -/

/-- What the consumer knows at each point. -/
def ConsumerOK (stub : Nat) (s : State) (nodes : List Nat) : Consumer → Prop
  | .idle => s.pushes none = .idle
  | .gotTail tail => s.pushes none = .idle ∧ tail = s.tail
  | .atStub next => s.pushes none = .idle ∧ s.tail = stub ∧
      ∀ y, next = some y → s.next s.tail = some y
  | .skipped tail => s.pushes none = .idle ∧ tail = s.tail ∧ tail ≠ stub
  | .atItem tail next => s.pushes none = .idle ∧ tail = s.tail ∧ tail ≠ stub ∧
      ∀ y, next = some y → s.next s.tail = some y
  | .gotHead tail head => s.pushes none = .idle ∧ tail = s.tail ∧ tail ≠ stub ∧
      (tail = head → stub ∉ nodes)
  | .pushing tail => tail = s.tail ∧ tail ≠ stub ∧
      (s.pushes none = .cleared [stub] ∨ ∃ oldHead, s.pushes none = .exchanged oldHead stub)
  | .pushed tail => s.pushes none = .idle ∧ tail = s.tail ∧ tail ≠ stub ∧ stub ∈ nodes
  | .final tail next => s.pushes none = .idle ∧ tail = s.tail ∧ tail ≠ stub ∧
      ∀ y, next = some y → s.next s.tail = some y
  | .emptyAtStub => s.pushes none = .idle ∧ s.tail = stub

/-- `nodes` is the list from `_tail` to `_head`.  A node is linked to the one behind it, or
the push that will link it is between its exchange and its link. -/
structure ListOK (stub : Nat) (s : State) (nodes : List Nat) : Prop where
  nodup : nodes.Nodup
  tail : nodes.head? = some s.tail
  head : nodes.getLast? = some s.head
  last : s.next s.head = none
  links : ∀ x y, Adjacent nodes x y →
    s.next x = some y ∨ (s.next x = none ∧ ∃ who, s.pushes who = .exchanged x y)
  log : s.exchanged = s.returned ++ nodes.filter (· ≠ stub)
  stub_log : stub ∉ s.exchanged
  cleared : ∀ who items, s.pushes who = .cleared items →
    items ≠ [] ∧ items.Nodup ∧ (∀ x y, Adjacent items x y → s.next x = some y) ∧
      (∀ x, items.getLast? = some x → s.next x = none) ∧ (∀ x ∈ items, x ∉ nodes) ∧
      (who ≠ none → stub ∉ items)
  disjoint : ∀ who who' items items', s.pushes who = .cleared items →
    s.pushes who' = .cleared items' → who ≠ who' → ∀ x ∈ items, x ∉ items'
  pending : ∀ who x y, s.pushes who = .exchanged x y → s.next x = none ∧ Adjacent nodes x y
  pending_inj : ∀ who who' x y y', s.pushes who = .exchanged x y →
    s.pushes who' = .exchanged x y' → who = who'

/-- The invariant. -/
structure Inv (stub : Nat) (s : State) (nodes : List Nat) : Prop extends
  ListOK stub s nodes where
  consumer : ConsumerOK stub s nodes s.consumer

namespace ListOK

variable {stub : Nat} {s s' : State} {nodes : List Nat}

theorem initial (stub : Nat) (memory : Nat → Option Nat) :
    ListOK stub (State.initial stub memory) [stub] := by
  refine ⟨List.nodup_singleton _, rfl, rfl, by simp [State.initial], ?_, ?_, ?_, ?_, ?_, ?_, ?_⟩
  · intro x y h; exact absurd h not_adjacent_singleton
  · simp [State.initial]
  · simp [State.initial]
  · intro who items h; exact absurd h (by simp [State.initial])
  · intro who who' items items' h; exact absurd h (by simp [State.initial])
  · intro who x y h; exact absurd h (by simp [State.initial])
  · intro who who' x y y' h; exact absurd h (by simp [State.initial])

theorem head_mem (h : ListOK stub s nodes) : s.head ∈ nodes := List.mem_of_getLast? h.head

theorem tail_mem (h : ListOK stub s nodes) : s.tail ∈ nodes := List.mem_of_mem_head? h.tail

/-- The item a client owns is not in the list. -/
theorem not_mem_of_free (h : ListOK stub s nodes) {x : Nat} (hFree : s.Free stub x) :
    x ∉ nodes := by
  intro hx
  obtain ⟨hne, hCount, _⟩ := hFree
  rw [h.log, List.count_append] at hCount
  have hIn : x ∈ nodes.filter (· ≠ stub) := List.mem_filter.mpr ⟨hx, by simpa using hne⟩
  have := List.count_pos_iff.mpr hIn
  omega

/-- A link that is set leads to the second node of the list. -/
theorem nodes_of_next (h : ListOK stub s nodes) {y : Nat} (hNext : s.next s.tail = some y) :
    ∃ rest, nodes = s.tail :: y :: rest := by
  cases nodes with
  | nil => exact absurd h.tail (by simp)
  | cons a l =>
      obtain rfl : a = s.tail := by simpa using h.tail
      cases l with
      | nil =>
          have hHead : s.head = s.tail := by simpa using h.head.symm
          have := h.last
          rw [hHead, hNext] at this
          exact absurd this (by simp)
      | cons b l =>
          rcases h.links s.tail b (by simp [adjacent_cons]) with hLink | ⟨hNone, _⟩
          · obtain rfl : b = y := by simpa [hNext] using hLink.symm
            exact ⟨l, rfl⟩
          · exact absurd (hNext.symm.trans hNone) (by simp)

/-- Behind a node without a link there is nothing, or a push that has not linked yet. -/
theorem nodes_of_null (h : ListOK stub s nodes) (hNext : s.next s.tail = none) :
    nodes = [s.tail] ∨ ∃ y rest who, nodes = s.tail :: y :: rest ∧
      s.pushes who = .exchanged s.tail y := by
  cases nodes with
  | nil => exact absurd h.tail (by simp)
  | cons a l =>
      obtain rfl : a = s.tail := by simpa using h.tail
      cases l with
      | nil => exact Or.inl rfl
      | cons b l =>
          rcases h.links s.tail b (by simp [adjacent_cons]) with hLink | ⟨_, who, hWho⟩
          · exact absurd (hNext.symm.trans hLink) (by simp)
          · exact Or.inr ⟨b, l, who, rfl, hWho⟩


/-- The consumer may do with its own variables what it likes. -/
theorem setConsumer (h : ListOK stub s nodes) (consumer : Consumer) :
    ListOK stub { s with consumer := consumer } nodes :=
  ⟨h.nodup, h.tail, h.head, h.last, h.links, h.log, h.stub_log, h.cleared, h.disjoint, h.pending,
    h.pending_inj⟩

/-! ### Producers -/

/-- A client writes the link of an item of its own. -/
theorem write (h : ListOK stub s nodes) {x : Nat} (hFree : s.Free stub x) (link : Option Nat) :
    ListOK stub { s with next := Function.update s.next x link } nodes := by
  have hNot := h.not_mem_of_free hFree
  have hNode : ∀ y ∈ nodes, Function.update s.next x link y = s.next y := by
    intro y hy
    refine Function.update_of_ne ?_ _ _
    rintro rfl
    exact hNot hy
  have hItem : ∀ who items, s.pushes who = .cleared items → ∀ y ∈ items,
      Function.update s.next x link y = s.next y := by
    intro who items hWho y hy
    refine Function.update_of_ne ?_ _ _
    rintro rfl
    exact hFree.2.2 who items hWho hy
  refine ⟨h.nodup, h.tail, h.head, ?_, ?_, h.log, h.stub_log, ?_, h.disjoint, ?_, h.pending_inj⟩
  · exact (hNode _ h.head_mem).trans h.last
  · intro a b hab
    simp only [hNode a hab.mem_left]
    exact h.links a b hab
  · intro who items hWho
    obtain ⟨hne, hNodup, hLinks, hLast, hOut, hStub⟩ := h.cleared who items hWho
    refine ⟨hne, hNodup, fun a b hab => ?_, fun a ha => ?_, hOut, hStub⟩
    · exact (hItem who items hWho a hab.mem_left).trans (hLinks a b hab)
    · exact (hItem who items hWho a (List.mem_of_getLast? ha)).trans (hLast a ha)
  · intro who a b hWho
    obtain ⟨hNone, hab⟩ := h.pending who a b hWho
    exact ⟨(hNode a hab.mem_left).trans hNone, hab⟩

/-- The first step of a push. -/
theorem clear (h : ListOK stub s nodes) (who : Option Nat) (items : List Nat)
    (hIdle : s.pushes who = .idle) (hne : items ≠ []) (hNodup : items.Nodup)
    (hLinked : ∀ x y, Adjacent items x y → s.next x = some y) (hOut : ∀ x ∈ items, x ∉ nodes)
    (hOwn : ∀ who' items', s.pushes who' = .cleared items' → ∀ x ∈ items, x ∉ items')
    (hStub : who ≠ none → stub ∉ items) : ListOK stub (s.clear who items) nodes := by
  have hNext : ∀ x, x ∉ items → (s.clear who items).next x = s.next x := fun x hx =>
    if_neg (fun hLast => hx (List.mem_of_getLast? hLast))
  have hKeep : ∀ who' x y, s.pushes who' = .exchanged x y →
      (s.clear who items).pushes who' = .exchanged x y := by
    intro who' x y hWho
    have hEq : who' ≠ who := fun hEq => by rw [hEq, hIdle] at hWho; exact absurd hWho (by simp)
    simpa [State.clear, hEq] using hWho
  have hNode : ∀ x ∈ nodes, (s.clear who items).next x = s.next x := fun x hx =>
    hNext x (fun hIn => hOut x hIn hx)
  refine ⟨h.nodup, h.tail, h.head, (hNode _ h.head_mem).trans h.last, ?_, h.log, h.stub_log, ?_,
    ?_, ?_, ?_⟩
  · intro x y hxy
    rw [hNode x hxy.mem_left]
    rcases h.links x y hxy with hLink | ⟨hNone, who', hWho⟩
    · exact Or.inl hLink
    · exact Or.inr ⟨hNone, who', hKeep who' x y hWho⟩
  · intro who' items' hWho
    rcases update_cases hWho with ⟨rfl, hEq⟩ | ⟨_, hOld⟩
    · obtain rfl : items' = items := by simpa using hEq
      refine ⟨hne, hNodup, fun x y hxy => ?_, fun x hx => if_pos hx, hOut, hStub⟩
      exact (if_neg (hxy.ne_last hNodup)).trans (hLinked x y hxy)
    · obtain ⟨hne', hNodup', hLinks', hLast', hOut', hStub'⟩ := h.cleared who' items' hOld
      have hOther : ∀ x ∈ items', (s.clear who items).next x = s.next x := fun x hx =>
        hNext x (fun hIn => hOwn who' items' hOld x hIn hx)
      refine ⟨hne', hNodup', fun x y hxy => ?_, fun x hx => ?_, hOut', hStub'⟩
      · exact (hOther x hxy.mem_left).trans (hLinks' x y hxy)
      · exact (hOther x (List.mem_of_getLast? hx)).trans (hLast' x hx)
  · intro who₁ who₂ items₁ items₂ hWho₁ hWho₂ hne' x hx₁ hx₂
    rcases update_cases hWho₁ with ⟨rfl, hEq₁⟩ | ⟨_, hOld₁⟩
    · obtain rfl : items₁ = items := by simpa using hEq₁
      rcases update_cases hWho₂ with ⟨rfl, _⟩ | ⟨_, hOld₂⟩
      · exact hne' rfl
      · exact hOwn who₂ items₂ hOld₂ x hx₁ hx₂
    · rcases update_cases hWho₂ with ⟨rfl, hEq₂⟩ | ⟨_, hOld₂⟩
      · obtain rfl : items₂ = items := by simpa using hEq₂
        exact hOwn who₁ items₁ hOld₁ x hx₂ hx₁
      · exact h.disjoint who₁ who₂ items₁ items₂ hOld₁ hOld₂ hne' x hx₁ hx₂
  · intro who' x y hWho
    obtain ⟨_, hOld⟩ := update_elsewhere hWho (by simp)
    obtain ⟨hNone, hxy⟩ := h.pending who' x y hOld
    exact ⟨(hNode x hxy.mem_left).trans hNone, hxy⟩
  · intro who₁ who₂ x y y' hWho₁ hWho₂
    obtain ⟨_, hOld₁⟩ := update_elsewhere hWho₁ (by simp)
    obtain ⟨_, hOld₂⟩ := update_elsewhere hWho₂ (by simp)
    exact h.pending_inj who₁ who₂ x y y' hOld₁ hOld₂

/-- The exchange of `_head`: the items are now at the end of the list. -/
theorem exchange (h : ListOK stub s nodes) {who : Option Nat} {items : List Nat}
    (hWho : s.pushes who = .cleared items) (hStub : who = none → items = [stub]) :
    ListOK stub (s.exchange who items) (nodes ++ items) := by
  obtain ⟨hne, hNodup, hLinks, hLast, hOut, hItems⟩ := h.cleared who items hWho
  obtain ⟨first, hFirst⟩ : ∃ first, items.head? = some first := by
    cases items with
    | nil => exact absurd rfl hne
    | cons x l => exact ⟨x, rfl⟩
  obtain ⟨last, hLastEq⟩ : ∃ last, items.getLast? = some last :=
    ⟨_, List.getLast?_eq_some_getLast hne⟩
  have hPushes : (s.exchange who items).pushes =
      Function.update s.pushes who (.exchanged s.head first) := by
    simp [State.exchange, hFirst]
  have hHead : (s.exchange who items).head = last := by simp [State.exchange, hLastEq]
  have hJoin : Adjacent (nodes ++ items) s.head first :=
    adjacent_append.mpr (Or.inr (Or.inr ⟨h.head, hFirst⟩))
  refine ⟨?_, ?_, ?_, ?_, ?_, ?_, ?_, ?_, ?_, ?_, ?_⟩
  · exact List.nodup_append.mpr ⟨h.nodup, hNodup, fun x hx y hy hEq => hOut y hy (hEq ▸ hx)⟩
  · rw [List.head?_append, h.tail]
    rfl
  · rw [List.getLast?_append_of_ne_nil _ hne, hLastEq, hHead]
  · rw [hHead]
    exact hLast last hLastEq
  · intro x y hxy
    rw [hPushes]
    rcases adjacent_append.mp hxy with hOld | hNew | ⟨hx, hy⟩
    · rcases h.links x y hOld with hLink | ⟨hNone, who', hWho'⟩
      · exact Or.inl hLink
      · refine Or.inr ⟨hNone, who', ?_⟩
        have hEq : who' ≠ who := fun hEq => by
          rw [hEq, hWho] at hWho'; exact absurd hWho' (by simp)
        rw [Function.update_of_ne hEq, hWho']
    · exact Or.inl (hLinks x y hNew)
    · obtain rfl : s.head = x := by simpa [h.head] using hx
      obtain rfl : first = y := by simpa [hFirst] using hy
      exact Or.inr ⟨h.last, who, by simp⟩
  · change (if who = none then s.exchanged else s.exchanged ++ items) = _
    rw [List.filter_append]
    split
    · rename_i hNone
      rw [hStub hNone, h.log]
      simp [State.exchange]
    · rename_i hSome
      have hAll : items.filter (· ≠ stub) = items := by
        refine List.filter_eq_self.mpr fun x hx => ?_
        have : x ≠ stub := fun hEq => hItems hSome (hEq ▸ hx)
        simpa using this
      rw [hAll, h.log, List.append_assoc]
      rfl
  · change stub ∉ if who = none then s.exchanged else s.exchanged ++ items
    split
    · exact h.stub_log
    · rename_i hSome
      exact fun hIn => (List.mem_append.mp hIn).elim h.stub_log (hItems hSome)
  · intro who' items' hWho'
    rw [hPushes] at hWho'
    obtain ⟨hne', hOld⟩ := update_elsewhere hWho' (by simp)
    obtain ⟨hne₂, hNodup₂, hLinks₂, hLast₂, hOut₂, hStub₂⟩ := h.cleared who' items' hOld
    refine ⟨hne₂, hNodup₂, hLinks₂, hLast₂, fun x hx hIn => ?_, hStub₂⟩
    rcases List.mem_append.mp hIn with hIn | hIn
    · exact hOut₂ x hx hIn
    · exact h.disjoint who' who items' items hOld hWho hne' x hx hIn
  · intro who₁ who₂ items₁ items₂ hWho₁ hWho₂
    rw [hPushes] at hWho₁ hWho₂
    obtain ⟨_, hOld₁⟩ := update_elsewhere hWho₁ (by simp)
    obtain ⟨_, hOld₂⟩ := update_elsewhere hWho₂ (by simp)
    exact h.disjoint who₁ who₂ items₁ items₂ hOld₁ hOld₂
  · intro who' x y hWho'
    rw [hPushes] at hWho'
    rcases update_cases hWho' with ⟨_, hEq⟩ | ⟨_, hOld⟩
    · obtain ⟨rfl, rfl⟩ : x = s.head ∧ y = first := by simpa using hEq
      exact ⟨h.last, hJoin⟩
    · obtain ⟨hNone, hxy⟩ := h.pending who' x y hOld
      exact ⟨hNone, adjacent_append.mpr (Or.inl hxy)⟩
  · intro who₁ who₂ x y y' hWho₁ hWho₂
    -- the old head was the last of the list, so no push was waiting behind it
    have hLastFree : ∀ who' y, s.pushes who' ≠ .exchanged s.head y := fun who' y hWho' =>
      (h.pending who' _ y hWho').2.ne_last h.nodup h.head
    rw [hPushes] at hWho₁ hWho₂
    rcases update_cases hWho₁ with ⟨rfl, hEq₁⟩ | ⟨_, hOld₁⟩
    · obtain ⟨rfl, rfl⟩ : x = s.head ∧ y = first := by simpa using hEq₁
      rcases update_cases hWho₂ with ⟨rfl, _⟩ | ⟨_, hOld₂⟩
      · rfl
      · exact absurd hOld₂ (hLastFree who₂ y')
    · rcases update_cases hWho₂ with ⟨rfl, hEq₂⟩ | ⟨_, hOld₂⟩
      · obtain ⟨rfl, rfl⟩ : x = s.head ∧ y' = first := by simpa using hEq₂
        exact absurd hOld₁ (hLastFree who₁ y)
      · exact h.pending_inj who₁ who₂ x y y' hOld₁ hOld₂

/-- The last step of a push. -/
theorem link (h : ListOK stub s nodes) {who : Option Nat} {x y : Nat}
    (hWho : s.pushes who = .exchanged x y) : ListOK stub (s.link who x y) nodes := by
  obtain ⟨hNone, hxy⟩ := h.pending who x y hWho
  have hNext : ∀ z, z ≠ x → (s.link who x y).next z = s.next z := fun z hz =>
    Function.update_of_ne hz _ _
  have hx : (s.link who x y).next x = some y := by simp [State.link]
  have hHeadNe : s.head ≠ x := fun hEq => hxy.ne_last h.nodup (by rw [h.head, hEq])
  have hItem : ∀ who' items, s.pushes who' = .cleared items → ∀ z ∈ items, z ≠ x :=
    fun who' items hWho' z hz hEq =>
      (h.cleared who' items hWho').2.2.2.2.1 z hz (hEq ▸ hxy.mem_left)
  refine ⟨h.nodup, h.tail, h.head, (hNext _ hHeadNe).trans h.last, ?_, h.log, h.stub_log, ?_, ?_,
    ?_, ?_⟩
  · intro a b hab
    by_cases hax : a = x
    · subst hax
      rw [hx, hxy.right_unique hab h.nodup]
      exact Or.inl rfl
    · rw [hNext a hax]
      rcases h.links a b hab with hLink | ⟨hNone', who', hWho'⟩
      · exact Or.inl hLink
      · refine Or.inr ⟨hNone', who', ?_⟩
        have hEq : who' ≠ who := fun hEq => by
          rw [hEq, hWho] at hWho'
          exact hax (Push.exchanged.inj hWho').1.symm
        exact (Function.update_of_ne hEq _ _).trans hWho'
  · intro who' items hWho'
    obtain ⟨_, hOld⟩ := update_elsewhere hWho' (by simp)
    obtain ⟨hne, hNodup, hLinks, hLast, hOut, hStub⟩ := h.cleared who' items hOld
    refine ⟨hne, hNodup, fun a b hab => ?_, fun a ha => ?_, hOut, hStub⟩
    · exact (hNext a (hItem who' items hOld a hab.mem_left)).trans (hLinks a b hab)
    · exact (hNext a (hItem who' items hOld a (List.mem_of_getLast? ha))).trans (hLast a ha)
  · intro who₁ who₂ items₁ items₂ hWho₁ hWho₂
    obtain ⟨_, hOld₁⟩ := update_elsewhere hWho₁ (by simp)
    obtain ⟨_, hOld₂⟩ := update_elsewhere hWho₂ (by simp)
    exact h.disjoint who₁ who₂ items₁ items₂ hOld₁ hOld₂
  · intro who' a b hWho'
    obtain ⟨hne, hOld⟩ := update_elsewhere hWho' (by simp)
    obtain ⟨hNone', hab⟩ := h.pending who' a b hOld
    have hax : a ≠ x := fun hEq => hne (h.pending_inj who' who x b y (hEq ▸ hOld) hWho)
    exact ⟨(hNext a hax).trans hNone', hab⟩
  · intro who₁ who₂ a b b' hWho₁ hWho₂
    obtain ⟨_, hOld₁⟩ := update_elsewhere hWho₁ (by simp)
    obtain ⟨_, hOld₂⟩ := update_elsewhere hWho₂ (by simp)
    exact h.pending_inj who₁ who₂ a b b' hOld₁ hOld₂

/-! ### The consumer -/

/-- The first node leaves the list. -/
theorem drop (h : ListOK stub s nodes) {y : Nat} {rest : List Nat} (returned : List Nat)
    (hNodes : nodes = s.tail :: y :: rest) (hNext : s.next s.tail = some y)
    (hReturned : returned = s.returned ++ [s.tail].filter (· ≠ stub)) :
    ListOK stub { s with tail := y, returned := returned } (y :: rest) := by
  have hNodup := h.nodup
  have hHead := h.head
  rw [hNodes] at hNodup hHead
  rw [List.getLast?_cons_cons] at hHead
  have hSub : ∀ a b, Adjacent (y :: rest) a b → Adjacent nodes a b := fun a b hab => by
    rw [hNodes, adjacent_cons]; exact Or.inr hab
  refine ⟨(List.nodup_cons.mp hNodup).2, rfl, hHead, h.last,
    fun a b hab => h.links a b (hSub a b hab), ?_, h.stub_log, ?_, h.disjoint, ?_, h.pending_inj⟩
  · change s.exchanged = returned ++ _
    rw [hReturned, h.log, hNodes, List.append_assoc, ← List.filter_append]
    rfl
  · intro who items hWho
    obtain ⟨hne, hNodup', hLinks, hLast, hOut, hStub⟩ := h.cleared who items hWho
    refine ⟨hne, hNodup', hLinks, hLast, fun x hx hIn => hOut x hx ?_, hStub⟩
    rw [hNodes]
    exact List.mem_cons_of_mem _ hIn
  · intro who a b hWho
    obtain ⟨hNone, hab⟩ := h.pending who a b hWho
    refine ⟨hNone, ?_⟩
    rw [hNodes, adjacent_cons] at hab
    rcases hab with ⟨rfl, _⟩ | hab
    · exact absurd (hNext.symm.trans hNone) (by simp)
    · exact hab

end ListOK

/-- What the consumer knows survives the steps of the others. -/
theorem ConsumerOK.mono {stub : Nat} {s s' : State} {nodes nodes' : List Nat} {c : Consumer}
    (h : ConsumerOK stub s nodes c) (hTail : s'.tail = s.tail)
    (hPush : s'.pushes none = s.pushes none)
    (hNext : ∀ y, s.next s.tail = some y → s'.next s.tail = some y)
    (hStub : stub ∈ nodes' ↔ stub ∈ nodes) : ConsumerOK stub s' nodes' c := by
  unfold ConsumerOK at h ⊢
  rw [hTail, hPush, hStub]
  cases c with
  | atStub next => exact ⟨h.1, h.2.1, fun y hy => hNext y (h.2.2 y hy)⟩
  | atItem tail next => exact ⟨h.1, h.2.1, h.2.2.1, fun y hy => hNext y (h.2.2.2 y hy)⟩
  | final tail next => exact ⟨h.1, h.2.1, h.2.2.1, fun y hy => hNext y (h.2.2.2 y hy)⟩
  | _ => exact h

namespace Inv

variable {stub : Nat} {s s' : State} {nodes : List Nat}

theorem initial (stub : Nat) (memory : Nat → Option Nat) :
    Inv stub (State.initial stub memory) [stub] :=
  ⟨ListOK.initial stub memory, rfl⟩

/-! ### Steps of the producers -/

theorem write (h : Inv stub s nodes) {x : Nat} (hFree : s.Free stub x) (link : Option Nat) :
    Inv stub { s with next := Function.update s.next x link } nodes := by
  refine ⟨h.toListOK.write hFree link, h.consumer.mono rfl rfl (fun y hy => ?_) Iff.rfl⟩
  refine (Function.update_of_ne ?_ _ _).trans hy
  rintro rfl
  exact h.not_mem_of_free hFree h.tail_mem

theorem clear (h : Inv stub s nodes) {p : Nat} {items : List Nat}
    (hIdle : s.pushes (some p) = .idle) (hne : items ≠ []) (hNodup : items.Nodup)
    (hFree : ∀ x ∈ items, s.Free stub x)
    (hLinked : ∀ x y, Adjacent items x y → s.next x = some y) :
    Inv stub (s.clear (some p) items) nodes := by
  have hOut : ∀ x ∈ items, x ∉ nodes := fun x hx => h.not_mem_of_free (hFree x hx)
  refine ⟨h.toListOK.clear (some p) items hIdle hne hNodup hLinked hOut
    (fun who items' hWho x hx => (hFree x hx).2.2 who items' hWho)
    (fun _ hIn => (hFree stub hIn).1 rfl),
    h.consumer.mono rfl (by simp [State.clear]) (fun y hy => ?_) Iff.rfl⟩
  exact (if_neg (fun hLast => hOut _ (List.mem_of_getLast? hLast) h.tail_mem)).trans hy

theorem exchange (h : Inv stub s nodes) {p : Nat} {items : List Nat}
    (hWho : s.pushes (some p) = .cleared items) :
    Inv stub (s.exchange (some p) items) (nodes ++ items) := by
  have hStub : stub ∉ items := (h.cleared _ items hWho).2.2.2.2.2 (by simp)
  refine ⟨h.toListOK.exchange hWho (fun hEq => absurd hEq (by simp)),
    h.consumer.mono rfl (by simp [State.exchange]) (fun y hy => hy) ?_⟩
  rw [List.mem_append]
  exact ⟨fun hIn => hIn.resolve_right hStub, Or.inl⟩

theorem link (h : Inv stub s nodes) {p x y : Nat} (hWho : s.pushes (some p) = .exchanged x y) :
    Inv stub (s.link (some p) x y) nodes := by
  refine ⟨h.toListOK.link hWho,
    h.consumer.mono rfl (by simp [State.link]) (fun z hz => ?_) Iff.rfl⟩
  refine (Function.update_of_ne ?_ _ _).trans hz
  rintro rfl
  exact absurd (hz.symm.trans (h.pending _ _ _ hWho).1) (by simp)

/-! ### Steps of the consumer -/

theorem consumer_eq (h : Inv stub s nodes) {c : Consumer} (hCase : s.consumer = c) :
    ConsumerOK stub s nodes c := by
  rw [← hCase]
  exact h.consumer

/-- The stub is taken out of the list. -/
theorem skipStub (h : Inv stub s nodes) {y : Nat} (hCase : s.consumer = .atStub (some y)) :
    ∃ nodes', Inv stub { s with tail := y, consumer := .skipped y } nodes' := by
  obtain ⟨hPush, hTail, hNext⟩ := h.consumer_eq hCase
  have hNext' : s.next s.tail = some y := hNext y rfl
  obtain ⟨rest, hNodes⟩ := h.nodes_of_next hNext'
  have hDrop := h.toListOK.drop s.returned hNodes hNext' (by simp [hTail])
  refine ⟨y :: rest, hDrop.setConsumer (.skipped y), hPush, rfl, ?_⟩
  have hNodup := h.nodup
  rw [hNodes, hTail, List.nodup_cons] at hNodup
  rintro rfl
  exact hNodup.1 (List.mem_cons_self ..)

/-- An item is taken out of the list and returned. -/
theorem take (h : Inv stub s nodes) {y : Nat} (hPush : s.pushes none = .idle)
    (hne : s.tail ≠ stub) (hNext : s.next s.tail = some y) :
    ∃ nodes', Inv stub (s.take s.tail y) nodes' := by
  obtain ⟨rest, hNodes⟩ := h.nodes_of_next hNext
  have hDrop := h.toListOK.drop (s.returned ++ [s.tail]) hNodes hNext (by simp [hne])
  exact ⟨y :: rest, hDrop.setConsumer .idle, hPush⟩

/-- `_head` is read; if it is the item the consumer is at, the list has no other node. -/
theorem readHead (h : Inv stub s nodes) {tail : Nat} (hCase : s.consumer = .atItem tail none) :
    Inv stub { s with consumer := .gotHead tail s.head } nodes := by
  obtain ⟨hPush, hTail, hne, _⟩ := h.consumer_eq hCase
  refine ⟨h.toListOK.setConsumer _, hPush, hTail, hne, fun hEq hIn => ?_⟩
  have hHead := h.head
  have hFirst := h.tail
  have hNodup := h.nodup
  rw [show s.head = s.tail from hEq.symm.trans hTail] at hHead
  cases nodes with
  | nil => exact absurd hFirst (by simp)
  | cons a l =>
      obtain rfl : a = s.tail := by simpa using hFirst
      cases l with
      | nil => exact hne (hTail.trans (List.mem_singleton.mp hIn).symm)
      | cons b l =>
          rw [List.getLast?_cons_cons] at hHead
          exact (List.nodup_cons.mp hNodup).1 (List.mem_of_getLast? hHead)

theorem clearStub (h : Inv stub s nodes) {tail : Nat} (hCase : s.consumer = .gotHead tail tail) :
    Inv stub { s.clear none [stub] with consumer := .pushing tail } nodes := by
  obtain ⟨hPush, hTail, hne, hStub⟩ := h.consumer_eq hCase
  have hOut : stub ∉ nodes := hStub rfl
  refine ⟨(h.toListOK.clear none [stub] hPush (by simp)
    (List.nodup_singleton _) (fun x y hxy => absurd hxy not_adjacent_singleton) ?_ ?_
    (fun hEq => absurd rfl hEq)).setConsumer (.pushing tail), hTail, hne, Or.inl (by
      simp [State.clear])⟩
  · intro x hx
    rw [List.mem_singleton.mp hx]
    exact hOut
  · intro who' items' hWho x hx
    rw [List.mem_singleton.mp hx]
    have hSome : who' ≠ none := by
      rintro rfl
      rw [show s.pushes none = .idle from hPush] at hWho
      exact absurd hWho (by simp)
    exact (h.cleared who' items' hWho).2.2.2.2.2 hSome

theorem exchangeStub (h : Inv stub s nodes) {tail : Nat} {items : List Nat}
    (hCase : s.consumer = .pushing tail) (hWho : s.pushes none = .cleared items) :
    Inv stub (s.exchange none items) (nodes ++ items) := by
  obtain ⟨hTail, hne, hPush⟩ := h.consumer_eq hCase
  obtain rfl : items = [stub] := by
    rcases hPush with hCleared | ⟨_, hExchanged⟩
    · exact Push.cleared.inj (hWho.symm.trans hCleared)
    · exact absurd (hWho.symm.trans hExchanged) (by simp)
  refine ⟨h.toListOK.exchange hWho (fun _ => rfl), ?_⟩
  rw [show (s.exchange none [stub]).consumer = .pushing tail from hCase]
  exact ⟨hTail, hne, Or.inr ⟨s.head, by simp [State.exchange]⟩⟩

theorem linkStub (h : Inv stub s nodes) {tail x y : Nat} (hCase : s.consumer = .pushing tail)
    (hWho : s.pushes none = .exchanged x y) :
    Inv stub { s.link none x y with consumer := .pushed tail } nodes := by
  obtain ⟨hTail, hne, hPush⟩ := h.consumer_eq hCase
  obtain rfl : y = stub := by
    rcases hPush with hCleared | ⟨_, hExchanged⟩
    · exact absurd (hWho.symm.trans hCleared) (by simp)
    · exact (Push.exchanged.inj (hWho.symm.trans hExchanged)).2
  exact ⟨(h.toListOK.link hWho).setConsumer (.pushed tail), by simp [State.link], hTail, hne,
    (h.pending _ _ _ hWho).2.mem_right⟩

/-- One step. -/
theorem step {e : Event} (h : Inv stub s nodes) (hStep : Step stub s e s') :
    ∃ nodes', Inv stub s' nodes' := by
  cases hStep with
  | write x link hFree => exact ⟨nodes, h.write hFree link⟩
  | clear p items hIdle hne hNodup hFree hLinked =>
      exact ⟨nodes, h.clear hIdle hne hNodup hFree hLinked⟩
  | exchange p items hWho => exact ⟨nodes ++ items, h.exchange hWho⟩
  | link p x y hWho => exact ⟨nodes, h.link hWho⟩
  | readTail hCase => exact ⟨nodes, h.toListOK.setConsumer _, h.consumer_eq hCase, rfl⟩
  | readNext tail hCase =>
      obtain ⟨hPush, rfl⟩ := h.consumer_eq hCase
      refine ⟨nodes, h.toListOK.setConsumer _, ?_⟩
      by_cases hEq : s.tail = stub
      · simp only [if_pos hEq]
        exact ⟨hPush, hEq, fun y hy => hy⟩
      · simp only [if_neg hEq]
        exact ⟨hPush, rfl, hEq, fun y hy => hy⟩
  | nullAtStub hCase => exact ⟨nodes, h.toListOK.setConsumer _, (h.consumer_eq hCase).1⟩
  | skipStub y hCase => exact h.skipStub hCase
  | readNextOfSkipped tail hCase =>
      obtain ⟨hPush, rfl, hne⟩ := h.consumer_eq hCase
      exact ⟨nodes, h.toListOK.setConsumer _, hPush, rfl, hne, fun y hy => hy⟩
  | takeItem tail y hCase =>
      obtain ⟨hPush, rfl, hne, hNext⟩ := h.consumer_eq hCase
      exact h.take hPush hne (hNext y rfl)
  | readHead tail hCase => exact ⟨nodes, h.readHead hCase⟩
  | nullAtHead tail head hCase => exact ⟨nodes, h.toListOK.setConsumer _, (h.consumer_eq hCase).1⟩
  | clearStub tail hCase => exact ⟨nodes, h.clearStub hCase⟩
  | exchangeStub tail items hCase hWho => exact ⟨nodes ++ items, h.exchangeStub hCase hWho⟩
  | linkStub tail x y hCase hWho => exact ⟨nodes, h.linkStub hCase hWho⟩
  | readLast tail hCase =>
      obtain ⟨hPush, rfl, hne, _⟩ := h.consumer_eq hCase
      exact ⟨nodes, h.toListOK.setConsumer _, hPush, rfl, hne, fun y hy => hy⟩
  | takeLast tail y hCase =>
      obtain ⟨hPush, rfl, hne, hNext⟩ := h.consumer_eq hCase
      exact h.take hPush hne (hNext y rfl)
  | nullLast tail hCase => exact ⟨nodes, h.toListOK.setConsumer _, (h.consumer_eq hCase).1⟩
  | emptyAtItem hCase _ => exact ⟨nodes, h⟩
  | emptyAtStub hCase hTail =>
      exact ⟨nodes, h.toListOK.setConsumer _, h.consumer_eq hCase, hTail⟩
  | emptyNext hCase => exact ⟨nodes, h.toListOK.setConsumer _, (h.consumer_eq hCase).1⟩

theorem run {memory : Nat → Option Nat} {log : List Event}
    (hRun : Verified.Run (Step stub) (State.initial stub memory) log s) :
    ∃ nodes, Inv stub s nodes :=
  hRun.invariant (P := fun s => ∃ nodes, Inv stub s nodes) ⟨_, initial stub memory⟩
    fun _ _ _ ⟨_, h⟩ hStep => h.step hStep

/-- Behind a node without a link there is nothing, or a producer that has not linked yet. -/
theorem producer_of_null (h : Inv stub s nodes) (hPush : s.pushes none = .idle)
    (hNext : s.next s.tail = none) :
    nodes = [s.tail] ∨ ∃ p y rest, nodes = s.tail :: y :: rest ∧
      s.pushes (some p) = .exchanged s.tail y := by
  rcases h.nodes_of_null hNext with hOne | ⟨y, rest, who, hNodes, hWho⟩
  · exact Or.inl hOne
  · cases who with
    | none => exact absurd (hPush.symm.trans hWho) (by simp)
    | some p => exact Or.inr ⟨p, y, rest, hNodes, hWho⟩

end Inv

/-! ## When `nullptr` is returned -/

/-- All items pushed have been returned, or a producer is between its exchange and its link. -/
def State.Quiet (s : State) : Prop :=
  s.exchanged = s.returned ∨ ∃ p x y, s.pushes (some p) = .exchanged x y

/-- On the way from `s₁` to `s` there was such a moment. -/
def Witnessed (stub : Nat) (s₁ : State) (es : List Event) (s : State) : Prop :=
  ∃ es₁ es₂ mid, es = es₁ ++ es₂ ∧ Verified.Run (Step stub) s₁ es₁ mid ∧
    Verified.Run (Step stub) mid es₂ s ∧ mid.Quiet

/-- What a call of `pop_front` that has come this far tells about the moments before. -/
def NullOK (s : State) (witnessed : Prop) : Consumer → Prop
  | .atStub none => witnessed
  | .atItem tail none => witnessed ∨ s.head = tail
  | .gotHead tail head => witnessed ∨ tail = head
  | .final _ none => witnessed
  | .idle => False
  | .emptyAtStub => False
  | _ => True

theorem NullOK.mono {s s' : State} {w w' : Prop} {c : Consumer} (h : NullOK s w c) (hw : w → w')
    (hHead : w' ∨ s'.head = s.head) : NullOK s' w' c := by
  cases c with
  | atStub next => cases next with
    | none => exact hw h
    | some y => exact h
  | atItem tail next => cases next with
    | none =>
        rcases hHead with hNow | hHead
        · exact Or.inl hNow
        · exact h.imp hw (fun hEq => hHead.trans hEq)
    | some y => exact h
  | gotHead tail head => exact h.imp hw id
  | final tail next => cases next with
    | none => exact hw h
    | some y => exact h
  | _ => exact h

section History

variable {stub : Nat} {s s' s₁ : State} {nodes : List Nat} {es : List Event} {e : Event}

theorem Witnessed.snoc (h : Witnessed stub s₁ es s) (hStep : Step stub s e s') :
    Witnessed stub s₁ (es ++ [e]) s' := by
  obtain ⟨es₁, es₂, mid, rfl, hRun₁, hRun₂, hQuiet⟩ := h
  exact ⟨es₁, es₂ ++ [e], mid, List.append_assoc .., hRun₁, hRun₂.snoc hStep, hQuiet⟩

theorem Witnessed.now (hRun : Verified.Run (Step stub) s₁ es s) (hQuiet : s.Quiet) :
    Witnessed stub s₁ es s :=
  ⟨es, [], s, by simp, hRun, Verified.Run.nil, hQuiet⟩

/-- The stub has no link: at this moment the queue is empty or a push is under way. -/
theorem Inv.quiet_at_stub (h : Inv stub s nodes) (hPush : s.pushes none = .idle)
    (hTail : s.tail = stub) (hNext : s.next s.tail = none) : s.Quiet := by
  rcases h.producer_of_null hPush hNext with hOne | ⟨p, y, _, _, hWho⟩
  · refine Or.inl ?_
    rw [h.log, hOne, hTail]
    simp
  · exact Or.inr ⟨p, _, y, hWho⟩

/-- An item has no link: it is the last one or a push is under way. -/
theorem Inv.quiet_at_item (h : Inv stub s nodes) (hPush : s.pushes none = .idle)
    (hNext : s.next s.tail = none) : s.Quiet ∨ s.head = s.tail := by
  rcases h.producer_of_null hPush hNext with hOne | ⟨p, y, _, _, hWho⟩
  · refine Or.inr ?_
    have hHead := h.head
    rw [hOne] at hHead
    exact (Option.some.inj hHead).symm
  · exact Or.inl (Or.inr ⟨p, _, y, hWho⟩)

section Reads

variable {after : State} {w : Prop}

/-- The link of an item is read. -/
theorem Inv.nullOK_atItem (h : Inv stub s nodes) (hPush : s.pushes none = .idle)
    (hHead : after.head = s.head) (hNow : s.Quiet → w) :
    NullOK after w (.atItem s.tail (s.next s.tail)) := by
  cases hNext : s.next s.tail with
  | none =>
      rcases h.quiet_at_item hPush hNext with hQuiet | hEq
      · exact Or.inl (hNow hQuiet)
      · exact Or.inr (hHead.trans hEq)
  | some y => exact trivial

/-- The link of the tail is read. -/
theorem Inv.nullOK_readNext (h : Inv stub s nodes) (hPush : s.pushes none = .idle)
    (hHead : after.head = s.head) (hNow : s.Quiet → w) :
    NullOK after w (if s.tail = stub then .atStub (s.next s.tail)
      else .atItem s.tail (s.next s.tail)) := by
  by_cases hEq : s.tail = stub
  · rw [if_pos hEq]
    cases hNext : s.next s.tail with
    | none => exact hNow (h.quiet_at_stub hPush hEq hNext)
    | some y => exact trivial
  · rw [if_neg hEq]
    exact h.nullOK_atItem hPush hHead hNow

/-- The link is read again; the stub is in the list, so the item is not the last one. -/
theorem Inv.nullOK_final (h : Inv stub s nodes) (hPush : s.pushes none = .idle)
    (hne : s.tail ≠ stub) (hStub : stub ∈ nodes) (hNow : s.Quiet → w) :
    NullOK after w (.final s.tail (s.next s.tail)) := by
  cases hNext : s.next s.tail with
  | none =>
      rcases h.producer_of_null hPush hNext with hOne | ⟨p, y, _, _, hWho⟩
      · rw [hOne, List.mem_singleton] at hStub
        exact absurd hStub.symm hne
      · exact hNow (Or.inr ⟨p, _, y, hWho⟩)
  | some y => exact trivial

end Reads

/-- One step of a call that does not end it. -/
theorem NullOK.step (h : Inv stub s nodes) (hRun : Verified.Run (Step stub) s₁ es s)
    (hOk : NullOK s (Witnessed stub s₁ es s) s.consumer) (hStep : Step stub s e s')
    (hReturn : ∀ r, e ≠ .popReturn r) :
    NullOK s' (Witnessed stub s₁ (es ++ [e]) s') s'.consumer := by
  have hMono : Witnessed stub s₁ es s → Witnessed stub s₁ (es ++ [e]) s' :=
    fun hw => hw.snoc hStep
  have hNow : s'.Quiet → Witnessed stub s₁ (es ++ [e]) s' :=
    fun hQuiet => Witnessed.now (hRun.snoc hStep) hQuiet
  cases hStep with
  | write x link _ => exact hOk.mono hMono (Or.inr rfl)
  | clear p items => exact hOk.mono hMono (Or.inr rfl)
  | exchange p items hWho =>
      refine hOk.mono hMono (Or.inl (hNow (Or.inr ⟨p, s.head, items.head?.getD s.head, ?_⟩)))
      simp [State.exchange]
  | link p x y _ => exact hOk.mono hMono (Or.inr rfl)
  | readTail hCase => rw [hCase] at hOk; exact absurd hOk not_false
  | readNext tail hCase =>
      obtain ⟨hPush, rfl⟩ := h.consumer_eq hCase
      exact h.nullOK_readNext hPush rfl hNow
  | nullAtStub _ => exact absurd rfl (hReturn _)
  | skipStub y _ => exact trivial
  | readNextOfSkipped tail hCase =>
      obtain ⟨hPush, rfl, _⟩ := h.consumer_eq hCase
      exact h.nullOK_atItem hPush rfl hNow
  | takeItem tail y _ => exact absurd rfl (hReturn _)
  | readHead tail hCase =>
      rw [hCase] at hOk
      exact hOk.imp hMono Eq.symm
  | nullAtHead tail head _ _ => exact absurd rfl (hReturn _)
  | clearStub tail _ => exact trivial
  | exchangeStub tail items hCase _ =>
      rw [show (s.exchange none items).consumer = .pushing tail from hCase]
      exact trivial
  | linkStub tail x y _ _ => exact trivial
  | readLast tail hCase =>
      obtain ⟨hPush, rfl, hne, hStub⟩ := h.consumer_eq hCase
      exact h.nullOK_final hPush hne hStub hNow
  | takeLast tail y _ => exact absurd rfl (hReturn _)
  | nullLast tail _ => exact absurd rfl (hReturn _)
  | emptyAtItem hCase _ => rw [hCase] at hOk; exact absurd hOk not_false
  | emptyAtStub hCase _ => rw [hCase] at hOk; exact absurd hOk not_false
  | emptyNext hCase => rw [hCase] at hOk; exact absurd hOk not_false

/-- A call that has not returned yet. -/
theorem NullOK.run (h : Inv stub s nodes) (hBegin : Step stub s .popBegin s₁)
    (hRun : Verified.Run (Step stub) s₁ es s') (hReturn : ∀ r, .popReturn r ∉ es) :
    NullOK s' (Witnessed stub s₁ es s') s'.consumer := by
  have h₁ : (∃ nodes, Inv stub s₁ nodes) ∧ NullOK s₁ (Witnessed stub s₁ [] s₁) s₁.consumer := by
    refine ⟨h.step hBegin, ?_⟩
    cases hBegin with
    | readTail _ => exact trivial
  have hAll : (∃ nodes, Inv stub s' nodes) ∧ Verified.Run (Step stub) s₁ es s' ∧
      ((∀ r, .popReturn r ∉ es) → NullOK s' (Witnessed stub s₁ es s') s'.consumer) := by
    refine hRun.log_invariant (P := fun es s' => (∃ nodes, Inv stub s' nodes) ∧
      Verified.Run (Step stub) s₁ es s' ∧
      ((∀ r, .popReturn r ∉ es) → NullOK s' (Witnessed stub s₁ es s') s'.consumer))
      ⟨h₁.1, Verified.Run.nil, fun _ => h₁.2⟩ ?_
    rintro es e mid fin ⟨⟨nodes, hMid⟩, hRunMid, hOk⟩ hStep
    refine ⟨hMid.step hStep, hRunMid.snoc hStep, fun hNone => ?_⟩
    refine NullOK.step hMid hRunMid (hOk fun r hIn => hNone r (List.mem_append.mpr (Or.inl hIn)))
      hStep fun r hEq => hNone r ?_
    rw [hEq]
    simp
  exact hAll.2.2 hReturn

end History

/-! ## The queue is a FIFO -/

/-- The two lists of the state grow by what a step pushes and by what it returns. -/
theorem lists_of_step {stub : Nat} {s s' : State} {e : Event} (hStep : Step stub s e s') :
    s'.exchanged = s.exchanged ++ e.pushed ∧ s'.returned = s.returned ++ e.popped.toList := by
  cases hStep with
  | exchange p items _ => exact ⟨rfl, (List.append_nil _).symm⟩
  | takeItem tail next _ | takeLast tail next _ => exact ⟨(List.append_nil _).symm, rfl⟩
  | write | clear | link | readTail | readNext | nullAtStub | skipStub | readNextOfSkipped
  | readHead | nullAtHead | clearStub | exchangeStub | linkStub | readLast | nullLast | emptyAtItem
  | emptyAtStub | emptyNext => exact ⟨(List.append_nil _).symm, (List.append_nil _).symm⟩

/-- So they are what the run has pushed, in the order of the exchanges, and what its calls of
`pop_front` have returned. -/
theorem lists_of_run {stub : Nat} {memory : Nat → Option Nat} {log : List Event} {s : State}
    (hRun : Verified.Run (Step stub) (State.initial stub memory) log s) :
    log.flatMap Event.pushed = s.exchanged ∧ log.filterMap Event.popped = s.returned := by
  refine hRun.log_invariant (P := fun log s =>
    log.flatMap Event.pushed = s.exchanged ∧ log.filterMap Event.popped = s.returned)
    ⟨rfl, rfl⟩ ?_
  rintro log e mid fin ⟨hPushed, hPopped⟩ hStep
  obtain ⟨hExchanged, hReturned⟩ := lists_of_step hStep
  constructor
  · rw [List.flatMap_append, List.flatMap_singleton, hPushed, hExchanged]
  · rw [List.filterMap_append, hPopped, hReturned]
    cases hResult : e.popped with
    | none => simp [hResult]
    | some x => simp [hResult]

/-- After every run: what the calls of `pop_front` have returned is a prefix of what was pushed, in
the order of the exchanges, and what is missing is in the list from `_tail` to `_head`, in which
the stub occurs at most once and which is cut only where a push is between its exchange and its
link.  A `pop_front` that is called now and returns `nullptr` has seen a moment in which the queue
was empty or a push under way, and `empty()` is true only if everything was returned or the push of
the oldest item is under way. -/
theorem fifo_of_run (stub : Nat) (memory : Nat → Option Nat) (log : List Event) (s : State)
    (hRun : Verified.Run (Step stub) (State.initial stub memory) log s) :
    log.flatMap Event.pushed = s.exchanged ∧ log.filterMap Event.popped = s.returned ∧
    s.returned <+: s.exchanged ∧ stub ∉ s.returned ∧
    (∃ nodes, nodes.Nodup ∧ nodes.head? = some s.tail ∧ nodes.getLast? = some s.head ∧
      (∀ x y, Adjacent nodes x y → s.next x = some y ∨
        (s.next x = none ∧ ∃ who, s.pushes who = .exchanged x y)) ∧
      s.exchanged = s.returned ++ nodes.filter (· ≠ stub)) ∧
    (∀ s₁ es s₂ s₃, Step stub s .popBegin s₁ → Verified.Run (Step stub) s₁ es s₂ →
      (∀ r, .popReturn r ∉ es) → Step stub s₂ (.popReturn none) s₃ →
      ∃ es₁ es₂ mid, es = es₁ ++ es₂ ∧ Verified.Run (Step stub) s₁ es₁ mid ∧
        Verified.Run (Step stub) mid es₂ s₂ ∧ mid.Quiet) ∧
    (∀ s', Step stub s (.emptyReturn true) s' → s.exchanged = s.returned ∨
      ∃ p x y, s.pushes (some p) = .exchanged x y ∧
        s.exchanged[s.returned.length]? = some y) := by
  obtain ⟨nodes, h⟩ := Inv.run hRun
  obtain ⟨hPushed, hPopped⟩ := lists_of_run hRun
  refine ⟨hPushed, hPopped, ?_, ?_, ⟨nodes, h.nodup, h.tail, h.head, h.links, h.log⟩, ?_, ?_⟩
  · rw [h.log]
    exact List.prefix_append _ _
  · intro hIn
    refine h.stub_log ?_
    rw [h.log]
    exact List.mem_append.mpr (Or.inl hIn)
  · intro s₁ es s₂ s₃ hBegin hCall hReturn hNull
    have hOk := NullOK.run h hBegin hCall hReturn
    cases hNull with
    | nullAtStub hCase => rw [hCase] at hOk; exact hOk
    | nullAtHead tail head hCase hne => rw [hCase] at hOk; exact hOk.resolve_right hne
    | nullLast tail hCase => rw [hCase] at hOk; exact hOk
  · intro s' hEmpty
    generalize hResult : true = result at hEmpty
    cases hEmpty with
    | emptyAtItem _ _ => exact absurd hResult (by simp)
    | emptyNext hCase =>
        obtain ⟨hPush, hTail⟩ := h.consumer_eq hCase
        have hNext : s.next s.tail = none := by rw [hTail]; simpa using hResult.symm
        rcases h.producer_of_null hPush hNext with hOne | ⟨p, y, rest, hNodes, hWho⟩
        · refine Or.inl ?_
          rw [h.log, hOne, hTail]
          simp
        · refine Or.inr ⟨p, s.tail, y, hWho, ?_⟩
          have hne : y ≠ stub := by
            have hNodup := h.nodup
            rw [hNodes, hTail, List.nodup_cons] at hNodup
            rintro rfl
            exact hNodup.1 (List.mem_cons_self ..)
          rw [h.log, hNodes, hTail]
          simp [hne]

/-- Two items are pushed in one go, a third one is exchanged but not linked, and a `pop_front` that
comes across the stub returns the first one. -/
theorem fifo_of_run_pop :
    ∃ log s, Verified.Run (Step 0) (State.initial 0 fun x => if x = 1 then some 2 else none) log s ∧
      log.flatMap Event.pushed = [1, 2, 3] ∧ log.filterMap Event.popped = [1] ∧
      s.pushes (some 1) = .exchanged 2 3 ∧ s.returned <+: s.exchanged := by
  let memory : Nat → Option Nat := fun x => if x = 1 then some 2 else none
  have hClear : Step 0 (State.initial 0 memory) _ _ :=
    .clear 0 [1, 2] rfl (by simp) (by simp) (by simp [State.Free, State.initial])
      (by simp [adjacent_cons, State.initial, memory])
  have hFirst := (Verified.Run.single hClear).snoc (.exchange 0 [1, 2] rfl)
  have hClear' : Step 0 (((State.initial 0 memory).clear (some 0) [1, 2]).exchange (some 0) [1, 2])
      _ _ :=
    .clear 1 [3] rfl (by simp) (by simp)
      (by
        have hNobody : ∀ who items, (((State.initial 0 memory).clear (some 0) [1, 2]).exchange
            (some 0) [1, 2]).pushes who ≠ .cleared items := by
          intro who items
          by_cases hWho : who = some 0 <;>
            simp [State.initial, State.clear, State.exchange, Function.update_apply, hWho]
        intro x hx
        rw [List.mem_singleton.mp hx]
        exact ⟨by decide, rfl, fun who items h => absurd h (hNobody who items)⟩)
      (fun x y h => absurd h not_adjacent_singleton)
  have hPushed := ((hFirst.snoc hClear').snoc (.exchange 1 [3] rfl)).snoc (.link 0 0 1 rfl)
  have hSkipped := ((hPushed.snoc (.readTail rfl)).snoc (.readNext 0 rfl)).snoc (.skipStub 1 rfl)
  have hRun := (hSkipped.snoc (.readNextOfSkipped 1 rfl)).snoc (.takeItem 1 2 rfl)
  obtain ⟨-, -, hPrefix, -⟩ := fifo_of_run _ _ _ _ hRun
  exact ⟨_, _, hRun, rfl, rfl, rfl, hPrefix⟩

end MxTasking.Util.MPSCQueue
