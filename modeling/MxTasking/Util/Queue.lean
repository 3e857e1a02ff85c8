import MxTasking.Util.MPSCQueue
import MxTasking.Verified.LinkedList

/-!
# Intrusive queues in one thread

`queue.h`, and `mpsc_queue.h` as one thread sees it that nobody disturbs.  Both link their items
through the same field of the items, so the links are an argument of their own here and both
queues change them.

## Main results

* `Queue.Holds.pushBack`, `Members.Holds.pushBackRange`, `Members.Holds.popFront` — what the
  operations do to the list of the items, and which links they leave alone.
* `run_pushBackRange`, `run_popFront` — the operations are runs of the queue with many producers.
-/

namespace MxTasking.Util

open MxTasking.Verified.LinkedList

/-! ## `Queue` -/

/-- `_head` and `_tail` of a `Queue`. -/
structure Queue where
  head : Option Nat := none
  tail : Option Nat := none
  deriving DecidableEq, Repr

namespace Queue

/-- `push_back(item)`. -/
def pushBack (q : Queue) (next : Nat → Option Nat) (item : Nat) : (Nat → Option Nat) × Queue :=
  let next := Function.update next item none
  match q.tail with
  | some tail => (Function.update next tail (some item), { q with tail := some item })
  | none => (next, { head := some item, tail := some item })

/-- `empty()`. -/
def empty (q : Queue) : Bool :=
  q.head = none

/-- The queue is the list `items`. -/
structure Holds (q : Queue) (next : Nat → Option Nat) (items : List Nat) : Prop where
  nodup : items.Nodup
  linked : Linked next items
  head : items.head? = q.head
  tail : items.getLast? = q.tail

variable {q : Queue} {next next' : Nat → Option Nat} {items : List Nat} {x y : Nat}

theorem Holds.nil (next : Nat → Option Nat) : Holds {} next [] :=
  ⟨List.nodup_nil, trivial, rfl, rfl⟩

theorem Holds.congr (h : q.Holds next items) (hEq : ∀ x ∈ items, next' x = next x) :
    q.Holds next' items :=
  ⟨h.nodup, h.linked.congr hEq, h.head, h.tail⟩

theorem Holds.empty_iff (h : q.Holds next items) : q.empty = true ↔ items = [] := by
  rw [empty, decide_eq_true_iff, ← h.head, List.head?_eq_none_iff]

theorem Holds.pushBack (h : q.Holds next items) (hx : x ∉ items) :
    (q.pushBack next x).2.Holds (q.pushBack next x).1 (items ++ [x]) := by
  have hNodup : (items ++ [x]).Nodup :=
    List.nodup_append'.mpr ⟨h.nodup, List.nodup_singleton x, by simpa using hx⟩
  have hLinked : Linked (Function.update next x none) items := h.linked.update hx none
  unfold Queue.pushBack
  cases hTail : q.tail with
  | none =>
      have hNil : items = [] := by rw [← List.getLast?_eq_none_iff, h.tail, hTail]
      subst hNil
      exact ⟨hNodup, linked_singleton next x, rfl, rfl⟩
  | some tail =>
      have hLast : items.getLast? = some tail := h.tail.trans hTail
      refine ⟨hNodup, hLinked.append (linked_singleton next x) hNodup hLast rfl, ?_, ?_⟩
      · rw [List.head?_append, ← h.head]
        cases items with
        | nil => exact absurd hLast (by simp)
        | cons a l => rfl
      · simp

/-- Links outside the queue stay. -/
theorem Holds.pushBack_next (h : q.Holds next items) (hy : y ∉ items) (hne : y ≠ x) :
    (q.pushBack next x).1 y = next y := by
  unfold Queue.pushBack
  cases hTail : q.tail with
  | none => exact Function.update_of_ne hne _ _
  | some tail =>
      have hTailNe : y ≠ tail := by
        rintro rfl
        exact hy (List.mem_of_getLast? (h.tail.trans hTail))
      exact (Function.update_of_ne hTailNe _ _).trans (Function.update_of_ne hne _ _)

end Queue

namespace MPSCQueue

/-! ## `MPSCQueue` -/

/-- `_head` and `_tail`. -/
structure Members where
  head : Nat
  tail : Nat
  deriving DecidableEq, Repr

namespace Members

/-- `push_back(begin, end)`. -/
def pushBackRange (q : Members) (next : Nat → Option Nat) (first last : Nat) :
    (Nat → Option Nat) × Members :=
  let next := Function.update next last none
  (Function.update next q.head (some first), { q with head := last })

/-- `push_back(item)`. -/
def pushBack (q : Members) (next : Nat → Option Nat) (item : Nat) :
    (Nat → Option Nat) × Members :=
  q.pushBackRange next item item

/-- `pop_front()` from where `tail` is known not to be the stub. -/
def popItem (stub : Nat) (q : Members) (next : Nat → Option Nat) (tail : Nat) :
    (Nat → Option Nat) × Members × Option Nat :=
  match next tail with
  | some second => (next, { q with tail := second }, some tail)
  | none =>
      if tail ≠ q.head then (next, q, none)
      else
        let (next, q) := q.pushBack next stub
        match next tail with
        | some second => (next, { q with tail := second }, some tail)
        | none => (next, q, none)

/-- `pop_front()`; `stub` is `_end`. -/
def popFront (stub : Nat) (q : Members) (next : Nat → Option Nat) :
    (Nat → Option Nat) × Members × Option Nat :=
  let tail := q.tail
  if tail = stub then
    match next tail with
    | none => (next, q, none)
    | some first => popItem stub { q with tail := first } next first
  else popItem stub q next tail

/-- The queue is the list `items`.  The stub stands before them or is not in the list. -/
structure Holds (stub : Nat) (q : Members) (next : Nat → Option Nat) (items : List Nat) :
    Prop where
  nodup : items.Nodup
  stub_notMem : stub ∉ items
  nodes : ∃ nodes, (nodes = stub :: items ∨ nodes = items) ∧ Linked next nodes ∧
    nodes.head? = some q.tail ∧ nodes.getLast? = some q.head

variable {stub : Nat} {q : Members} {next next' : Nat → Option Nat} {items new : List Nat}
  {x y first last : Nat}

theorem Holds.congr (h : q.Holds stub next items)
    (hEq : ∀ x, x = stub ∨ x ∈ items → next' x = next x) : q.Holds stub next' items := by
  obtain ⟨nodes, hNodes, hLinked, hTail, hHead⟩ := h.nodes
  refine ⟨h.nodup, h.stub_notMem, nodes, hNodes, hLinked.congr fun x hx => hEq x ?_, hTail, hHead⟩
  rcases hNodes with rfl | rfl
  · exact List.mem_cons.mp hx
  · exact Or.inr hx

theorem Holds.head_mem (h : q.Holds stub next items) : q.head = stub ∨ q.head ∈ items := by
  obtain ⟨nodes, rfl | rfl, _, _, hHead⟩ := h.nodes
  · exact List.mem_cons.mp (List.mem_of_getLast? hHead)
  · exact Or.inr (List.mem_of_getLast? hHead)

/-- The items are what is found from `_tail`, but for the stub. -/
theorem Holds.mem_iff (h : q.Holds stub next items) :
    x ∈ items ↔ x ≠ stub ∧ Reachable next q.tail x := by
  have hne : x ∈ items → x ≠ stub := by
    rintro hx rfl
    exact h.stub_notMem hx
  obtain ⟨nodes, rfl | rfl, hLinked, hTail, _⟩ := h.nodes
  · rw [hLinked.reachable_iff hTail, List.mem_cons]
    tauto
  · rw [hLinked.reachable_iff hTail]
    tauto

/-- Items that are linked among themselves are put behind the others. -/
theorem Holds.pushBackRange (h : q.Holds stub next items)
    (hNew : Linked (Function.update next last none) new) (hFirst : new.head? = some first)
    (hLast : new.getLast? = some last) (hNodup : (items ++ new).Nodup) (hStub : stub ∉ new) :
    (q.pushBackRange next first last).2.Holds stub (q.pushBackRange next first last).1
      (items ++ new) := by
  obtain ⟨nodes, hNodes, hLinked, hTail, hHead⟩ := h.nodes
  have hAll : nodes ++ new = stub :: (items ++ new) ∨ nodes ++ new = items ++ new :=
    hNodes.imp (fun hEq => by rw [hEq]; rfl) fun hEq => by rw [hEq]
  have hStubAll : stub ∉ items ++ new := by
    rw [List.mem_append]
    exact fun hIn => hIn.elim h.stub_notMem hStub
  have hNodupAll : (nodes ++ new).Nodup := by
    rcases hAll with hEq | hEq
    · rw [hEq]
      exact List.nodup_cons.mpr ⟨hStubAll, hNodup⟩
    · rw [hEq]
      exact hNodup
  have hOut : last ∉ nodes := fun hIn =>
    List.disjoint_of_nodup_append hNodupAll hIn (List.mem_of_getLast? hLast)
  refine ⟨hNodup, hStubAll, nodes ++ new, hAll,
    (hLinked.update hOut none).append hNew hNodupAll hHead hFirst, ?_, ?_⟩
  · rw [List.head?_append, hTail]
    rfl
  · rw [List.getLast?_append, hLast]
    rfl

theorem Holds.pushBack (h : q.Holds stub next items) (hx : x ∉ items) (hStub : x ≠ stub) :
    (q.pushBack next x).2.Holds stub (q.pushBack next x).1 (items ++ [x]) := by
  refine h.pushBackRange (linked_singleton next x) rfl rfl ?_ (by simpa using hStub.symm)
  exact List.nodup_append'.mpr ⟨h.nodup, List.nodup_singleton x, by simpa using hx⟩

/-- Links outside the queue stay. -/
theorem Holds.pushBackRange_next (h : q.Holds stub next items) (hStub : y ≠ stub)
    (hy : y ∉ items) (hne : y ≠ last) : (q.pushBackRange next first last).1 y = next y := by
  have hHead : y ≠ q.head := by
    rintro rfl
    exact h.head_mem.elim hStub hy
  exact (Function.update_of_ne hHead _ _).trans (Function.update_of_ne hne _ _)

/-- The stub is skipped. -/
theorem popFront_of_stub (hTail : q.tail = stub) (hNext : next q.tail = some x) :
    q.popFront stub next = popItem stub { q with tail := x } next x := by
  unfold popFront
  simp only [if_pos hTail, hNext]

theorem popFront_of_null (hTail : q.tail = stub) (hNext : next q.tail = none) :
    q.popFront stub next = (next, q, none) := by
  unfold popFront
  simp only [if_pos hTail, hNext]

theorem popFront_of_item (hTail : q.tail ≠ stub) :
    q.popFront stub next = popItem stub q next q.tail := by
  unfold popFront
  simp only [if_neg hTail]

theorem Holds.popFront_nil (h : q.Holds stub next []) : q.popFront stub next = (next, q, none) := by
  obtain ⟨nodes, rfl | rfl, hLinked, hTail, _⟩ := h.nodes
  · obtain rfl : stub = q.tail := by simpa using hTail
    exact popFront_of_null rfl hLinked.1
  · exact absurd hTail (by simp)

theorem popItem_of_some {second : Nat} (hNext : next x = some second) :
    popItem stub q next x = (next, { q with tail := second }, some x) := by
  unfold popItem
  rw [hNext]

/-- The last item is followed by the stub before it is taken. -/
theorem popItem_of_last (hNext : next q.head = none) :
    popItem stub q next q.head =
      ((q.pushBack next stub).1, { (q.pushBack next stub).2 with tail := stub }, some q.head) := by
  have hAfter : (q.pushBack next stub).1 q.head = some stub := Function.update_self ..
  unfold popItem
  rw [hNext]
  simp only [ne_eq, not_true_eq_false, if_false, hAfter]

/-- The first item is taken, and the stub pushed again if it was the last one. -/
theorem popItem_spec (h : q.Holds stub next (x :: items)) (hTail : q.tail = x)
    (hLinked : Linked next (x :: items)) (hHead : (x :: items).getLast? = some q.head) :
    ∃ next' q', popItem stub q next x = (next', q', some x) ∧ q'.Holds stub next' items ∧
      ∀ y, y ≠ stub → y ∉ x :: items → next' y = next y := by
  have hNodup : items.Nodup := (List.nodup_cons.mp h.nodup).2
  have hStub : stub ≠ x ∧ stub ∉ items := by simpa using h.stub_notMem
  cases items with
  | cons second rest =>
      have hNext : next x = some second := hLinked.1
      rw [List.getLast?_cons_cons] at hHead
      exact ⟨next, { q with tail := second }, popItem_of_some hNext,
        ⟨hNodup, hStub.2, second :: rest, Or.inr rfl, hLinked.2, rfl, hHead⟩, fun _ _ _ => rfl⟩
  | nil =>
      have hNext : next x = none := hLinked.1
      obtain rfl : x = q.head := by simpa using hHead
      refine ⟨_, _, popItem_of_last hNext, ?_, fun y hy hNot => ?_⟩
      · refine ⟨List.nodup_nil, by simp, [stub], Or.inl rfl, ⟨?_, trivial⟩, rfl, rfl⟩
        exact (Function.update_of_ne hStub.1 _ _).trans (Function.update_self ..)
      · exact h.pushBackRange_next hy hNot hy

theorem Holds.popFront (h : q.Holds stub next (x :: items)) :
    ∃ next' q', q.popFront stub next = (next', q', some x) ∧ q'.Holds stub next' items ∧
      ∀ y, y ≠ stub → y ∉ x :: items → next' y = next y := by
  have hStub : stub ≠ x := fun hEq => h.stub_notMem (by simp [hEq])
  obtain ⟨nodes, rfl | rfl, hLinked, hTail, hHead⟩ := h.nodes
  · obtain rfl : stub = q.tail := by simpa using hTail
    rw [List.getLast?_cons_cons] at hHead
    have hSkip : Holds q.tail { q with tail := x } next (x :: items) :=
      ⟨h.nodup, h.stub_notMem, x :: items, Or.inr rfl, hLinked.2, rfl, hHead⟩
    rw [popFront_of_stub rfl hLinked.1]
    exact popItem_spec hSkip rfl hLinked.2 hHead
  · obtain rfl : x = q.tail := by simpa using hTail
    rw [popFront_of_item hStub.symm]
    exact popItem_spec h rfl hLinked hHead

end Members

/-! ## Undisturbed calls -/

section Undisturbed

open MxTasking.Verified (Run)
open MxTasking.Verified.Neighbours (Adjacent)

variable {stub : Nat} {s : State}

/-- The members of the queue. -/
def State.members (s : State) : Members :=
  { head := s.head, tail := s.tail }

theorem clear_next {items : List Nat} {last : Nat} (who : Option Nat)
    (hLast : items.getLast? = some last) :
    (s.clear who items).next = Function.update s.next last none := by
  funext x
  simp only [State.clear, hLast, Option.some.injEq, Function.update_apply, eq_comm]

theorem update_idle {who : Option Nat} (hIdle : s.pushes who = .idle) :
    Function.update s.pushes who .idle = s.pushes := by
  rw [← hIdle, Function.update_eq_self]

/-- A producer that takes its three steps at once. -/
theorem run_pushBackRange {p first last : Nat} {items : List Nat}
    (hIdle : s.pushes (some p) = .idle) (hNodup : items.Nodup)
    (hFree : ∀ x ∈ items, s.Free stub x)
    (hLinked : ∀ x y, Adjacent items x y → s.next x = some y)
    (hFirst : items.head? = some first) (hLast : items.getLast? = some last) :
    Run (Step stub) s [.produce p, .exchange p items, .produce p]
      { s with
        next := (s.members.pushBackRange s.next first last).1
        head := (s.members.pushBackRange s.next first last).2.head
        exchanged := s.exchanged ++ items } := by
  have hne : items ≠ [] := by
    rintro rfl
    exact absurd hFirst (by simp)
  have hClear := Step.clear (s := s) p items hIdle hne hNodup hFree hLinked
  have hExchange : Step stub (s.clear (some p) items) (.exchange p items) _ :=
    Step.exchange p items (by simp [State.clear])
  have hLink : Step stub ((s.clear (some p) items).exchange (some p) items) (.produce p) _ :=
    Step.link p s.head first (by simp [State.exchange, State.clear, hFirst])
  refine (((Run.single hClear).snoc hExchange).snoc hLink).cast ?_
  have hNext :
      (((s.clear (some p) items).exchange (some p) items).link (some p) s.head first).next =
      (s.members.pushBackRange s.next first last).1 := by
    change Function.update (s.clear (some p) items).next s.head (some first) = _
    rw [clear_next (some p) hLast]
    rfl
  rw [← hNext]
  simp [State.link, State.exchange, State.clear, Members.pushBackRange, update_idle hIdle, hLast]

/-- The state after a call of `pop_front` with this outcome. -/
def State.afterPop (s : State) (outcome : (Nat → Option Nat) × Members × Option Nat) : State :=
  { s with
    next := outcome.1
    head := outcome.2.1.head
    tail := outcome.2.1.tail
    consumer := .idle
    returned := s.returned ++ outcome.2.2.toList }

theorem run_popItem (stub : Nat) {tail : Nat} (hCase : s.consumer = .atItem tail (s.next tail))
    (hIdle : s.pushes none = .idle) :
    ∃ es, Run (Step stub) s (es ++ [.popReturn (Members.popItem stub s.members s.next tail).2.2])
      (s.afterPop (Members.popItem stub s.members s.next tail)) := by
  cases hNext : s.next tail with
  | some second =>
      have hTake : Step stub s _ _ := Step.takeItem tail second (hCase.trans (by rw [hNext]))
      rw [Members.popItem_of_some hNext]
      exact ⟨[], (Run.single hTake).cast (by simp [State.take, State.afterPop, State.members])⟩
  | none =>
      rw [hNext] at hCase
      have hRead : Step stub s _ _ := Step.readHead tail hCase
      by_cases hHead : tail = s.head
      · subst hHead
        rw [show s.head = s.members.head from rfl, Members.popItem_of_last hNext]
        let s₁ : State := { s with consumer := .gotHead s.head s.head }
        let s₂ : State := { s₁.clear none [stub] with consumer := .pushing s.head }
        let s₃ : State := s₂.exchange none [stub]
        let s₄ : State := { s₃.link none s.head stub with consumer := .pushed s.head }
        let s₅ : State := { s₄ with consumer := .final s.head (s₄.next s.head) }
        have hClear : Step stub s₁ .consume s₂ := Step.clearStub s.head rfl
        have hExchange : Step stub s₂ .consume s₃ :=
          Step.exchangeStub s.head [stub] rfl (by simp [s₂, State.clear])
        have hLink : Step stub s₃ .consume s₄ :=
          Step.linkStub s.head s.head stub rfl (by simp [s₃, s₂, s₁, State.exchange, State.clear])
        have hLast : Step stub s₄ .consume s₅ := Step.readLast s.head rfl
        have hTake : Step stub s₅ (.popReturn (some s.head)) (s₅.take s.head stub) :=
          Step.takeLast s.head stub (by simp [s₅, s₄, State.link])
        have hLinks : s₅.next = (s.members.pushBack s.next stub).1 := by
          change Function.update (s₁.clear none [stub]).next s.head (some stub) = _
          rw [clear_next none (show [stub].getLast? = some stub from rfl)]
          rfl
        have hPushes : s₅.pushes = s.pushes := by
          simp [s₅, s₄, s₃, s₂, s₁, State.link, State.exchange, State.clear, update_idle hIdle]
        have hRun := ((((Run.single hRead).snoc hClear).snoc hExchange).snoc hLink).snoc hLast
        refine ⟨_, (hRun.snoc hTake).cast ?_⟩
        rw [State.take, State.afterPop, hLinks, hPushes]
        rfl
      · have hNull : Step stub { s with consumer := .gotHead tail s.head } _ _ :=
          Step.nullAtHead tail s.head rfl hHead
        refine ⟨[.consume], ?_⟩
        simp only [Members.popItem, hNext, ne_eq, State.members, hHead, not_false_eq_true, if_true]
        exact ((Run.single hRead).snoc hNull).cast (by simp [State.afterPop])

/-- A consumer that takes the steps of `pop_front` at once. -/
theorem run_popFront (hConsumer : s.consumer = .idle) (hIdle : s.pushes none = .idle) :
    ∃ es, Run (Step stub) s (es ++ [.popReturn (s.members.popFront stub s.next).2.2])
      (s.afterPop (s.members.popFront stub s.next)) := by
  let s₁ : State := { s with consumer := .gotTail s.tail }
  have hTail : Step stub s .popBegin s₁ := Step.readTail hConsumer
  have hNext : Step stub s₁ .consume _ := Step.readNext s.tail rfl
  have hBegin := (Run.single hTail).snoc hNext
  by_cases hStub : s.tail = stub
  · rw [if_pos hStub] at hBegin
    cases hLink : s.next s.tail with
    | none =>
        have hNull : Step stub { s₁ with consumer := .atStub none } _ _ := Step.nullAtStub rfl
        rw [Members.popFront_of_null hStub hLink]
        rw [show s₁.next s.tail = none from hLink] at hBegin
        exact ⟨_, (hBegin.snoc hNull).cast (by simp [State.afterPop, State.members, s₁])⟩
    | some first =>
        let s₂ : State := { s₁ with tail := first, consumer := .skipped first }
        have hSkip : Step stub { s₁ with consumer := .atStub (some first) } .consume s₂ :=
          Step.skipStub first rfl
        have hRead : Step stub s₂ .consume
            { s₂ with consumer := .atItem first (s₂.next first) } :=
          Step.readNextOfSkipped first rfl
        obtain ⟨es, hRun⟩ := run_popItem stub
          (s := { s₂ with consumer := .atItem first (s₂.next first) }) rfl hIdle
        rw [show s₁.next s.tail = some first from hLink] at hBegin
        rw [Members.popFront_of_stub hStub hLink]
        refine ⟨[.popBegin, .consume, .consume, .consume] ++ es, ?_⟩
        rw [List.append_assoc]
        exact ((hBegin.snoc hSkip).snoc hRead).append hRun
  · rw [if_neg hStub] at hBegin
    obtain ⟨es, hRun⟩ := run_popItem stub
      (s := { s₁ with consumer := .atItem s.tail (s₁.next s.tail) }) rfl hIdle
    rw [Members.popFront_of_item hStub]
    refine ⟨[.popBegin, .consume] ++ es, ?_⟩
    rw [List.append_assoc]
    exact hBegin.append hRun

end Undisturbed

end MPSCQueue

end MxTasking.Util
