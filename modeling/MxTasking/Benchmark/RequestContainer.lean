import MxTasking.Verified.Shares
import MxTasking.Verified.TransitionSystem
import Mathlib.Algebra.Ring.Nat

/-!
# Request containers

`RequestIndex` and `RequestContainer` of `request_scheduler.h`, `Workload::next` of `workload.cpp`
and the counter of `reference_counter.h`.  Each core has a container.  The containers claim batches
of indices from one workload and hand them out to their schedulers in portions, as many as may be
open at a time; a callback counts a request as finished, on the counter of the own core or on that
of all others.

All numbers are 64 bits wide, and the signed ones are kept as what they are modulo `2 ^ 64`.

`next()` shares two things with others: it loads the counter of finished requests, which callbacks
may change at any time, and it claims a batch with one atomic addition.  A call is therefore two
steps of the system, the load and the rest.

## Main results

* `refill_spec` — claiming a batch takes the next indices of the workload.
* `Inv.step` — the invariant over one step.
* `requests_distributed` — every run in which the index of the workload has not wrapped.
* `index_handed_out_twice` — and what happens when it has.
-/

namespace MxTasking.Benchmark

open MxTasking.Verified

/-! ## Indices, workload and counter -/

/-- `RequestIndex`. -/
structure RequestIndex where
  index : Nat
  count : Nat
  deriving DecidableEq, Repr

namespace RequestIndex

def makeFinished : RequestIndex := ⟨2 ^ 64 - 1, 0⟩

def makeNoNew : RequestIndex := ⟨0, 0⟩

def isFinished (r : RequestIndex) : Bool := r.index = 2 ^ 64 - 1

def hasNew (r : RequestIndex) : Bool := 0 < r.count

/-- `operator-=`. -/
def sub (r : RequestIndex) (count : Nat) : RequestIndex :=
  ⟨(r.index + count) % 2 ^ 64, (r.count + (2 ^ 64 - count)) % 2 ^ 64⟩

/-- The indices of the loop over a portion. -/
def indices (r : RequestIndex) : List Nat := List.range' r.index r.count

end RequestIndex

/-- `config::batch_size()`. -/
def batchSize : Nat := 500

/-- The current phase of a `Workload`: its size and the next index.  `calls` counts the calls of
`next`; the program does not have it. -/
structure Workload where
  size : Nat
  currentIndex : Nat
  calls : Nat
  deriving DecidableEq, Repr

/-- `Workload::next(count)`. -/
def Workload.next (w : Workload) (count : Nat) : Workload × Nat × Nat :=
  let index := w.currentIndex
  ({ w with currentIndex := (index + count) % 2 ^ 64, calls := w.calls + 1 },
    if index < w.size then (index, min count (w.size - index)) else (2 ^ 64 - 1, 0))

/-- `reference_counter_64`. -/
structure ReferenceCounter where
  localCoreId : Nat
  localCounter : Nat
  remoteCounter : Nat
  deriving DecidableEq, Repr

namespace ReferenceCounter

/-- `add(core_id, count)`. -/
def add (r : ReferenceCounter) (coreId count : Nat) : ReferenceCounter :=
  if r.localCoreId = coreId then { r with localCounter := (r.localCounter + count) % 2 ^ 64 }
  else { r with remoteCounter := (r.remoteCounter + count) % 2 ^ 64 }

def load (r : ReferenceCounter) : Nat := (r.localCounter + r.remoteCounter) % 2 ^ 64

/-- Whichever core adds, the two counters together are larger by one. -/
theorem add_one (r : ReferenceCounter) (coreId : Nat)
    (h : r.localCounter + r.remoteCounter + 1 < 2 ^ 64) :
    (r.add coreId 1).localCounter + (r.add coreId 1).remoteCounter =
      r.localCounter + r.remoteCounter + 1 := by
  unfold add
  split
  · rw [Nat.mod_eq_of_lt (by omega)]
    exact Nat.add_right_comm ..
  · rw [Nat.mod_eq_of_lt (by omega)]
    exact (Nat.add_assoc ..).symm

end ReferenceCounter

/-! ## Containers -/

/-- `RequestContainer`. -/
structure RequestContainer where
  finishedRequests : ReferenceCounter
  scheduledRequests : Nat
  localBuffer : RequestIndex
  maxPendingRequests : Nat
  deriving DecidableEq, Repr

namespace RequestContainer

/-- The constructor claims the first batch. -/
def construct (coreId maxOpenRequests : Nat) (w : Workload) : RequestContainer × Workload :=
  let (w, index, count) := w.next batchSize
  (⟨⟨coreId, 0, 0⟩, 0, ⟨index, count⟩, maxOpenRequests⟩, w)

/-- `_scheduled_requests - finished_requests`. -/
def pendingRequests (c : RequestContainer) (finishedRequests : Nat) : Nat :=
  (c.scheduledRequests + (2 ^ 64 - finishedRequests)) % 2 ^ 64

/-- The batch that is claimed when the local buffer is empty. -/
def refill (c : RequestContainer) (w : Workload) : RequestContainer × Workload :=
  if c.localBuffer.hasNew = false then
    let (w, index, count) := w.next batchSize
    ({ c with localBuffer := ⟨index, count⟩ }, w)
  else (c, w)

/-- A portion of the local buffer. -/
def handOut (c : RequestContainer) (pending : Nat) : RequestContainer × RequestIndex :=
  let freeRequests := c.maxPendingRequests - pending
  let count := min freeRequests c.localBuffer.count
  ({ c with
      scheduledRequests := (c.scheduledRequests + count) % 2 ^ 64
      localBuffer := c.localBuffer.sub count },
    ⟨c.localBuffer.index, count⟩)

/-- `next()`, after it has loaded the number of finished requests. -/
def next (c : RequestContainer) (w : Workload) (finishedRequests : Nat) :
    RequestContainer × Workload × RequestIndex :=
  let pending := c.pendingRequests finishedRequests
  if c.maxPendingRequests ≤ pending then (c, w, .makeNoNew)
  else
    let (c, w) := c.refill w
    if c.localBuffer.hasNew then
      let (c, index) := c.handOut pending
      (c, w, index)
    else (c, w, if 0 < pending then .makeNoNew else .makeFinished)

end RequestContainer

/-! ## The system -/

/-- The workload and the containers over it.  A container is there once it is constructed; `loaded`
is what a call of `next()` that is under way has loaded. -/
structure State (ι : Type*) where
  workload : Workload
  containers : ι → Option RequestContainer
  loaded : ι → Option Nat
  /-- The indices a container has handed out, in order. -/
  handedOut : ι → List Nat
  /-- The requests of a container that were reported. -/
  reported : ι → List Nat
  /-- Whether a call of `next()` has returned finished. -/
  finished : ι → Bool

inductive Event (ι : Type*) where
  | construct (i : ι) (coreId maxOpenRequests : Nat)
  | load (i : ι)
  | next (i : ι)
  | report (i : ι) (coreId index : Nat)

section System

variable {ι : Type*} [DecidableEq ι]

/-- The state after the rest of a call of `next()` of the container `i`. -/
def State.afterNext (s : State ι) (i : ι)
    (result : RequestContainer × Workload × RequestIndex) : State ι where
  workload := result.2.1
  containers := Function.update s.containers i (some result.1)
  loaded := Function.update s.loaded i none
  handedOut := Function.update s.handedOut i (s.handedOut i ++ result.2.2.indices)
  reported := s.reported
  finished := Function.update s.finished i
    (s.finished i || (!result.2.2.hasNew && result.2.2.isFinished))

inductive Step : State ι → Event ι → State ι → Prop where
  | construct {s : State ι} {i : ι} (coreId maxOpenRequests : Nat) :
      s.containers i = none → maxOpenRequests < 2 ^ 64 →
      Step s (.construct i coreId maxOpenRequests)
        { s with
          workload := (RequestContainer.construct coreId maxOpenRequests s.workload).2
          containers := Function.update s.containers i
            (some (RequestContainer.construct coreId maxOpenRequests s.workload).1) }
  | load {s : State ι} {i : ι} {c : RequestContainer} :
      s.containers i = some c → s.loaded i = none →
      Step s (.load i)
        { s with loaded := Function.update s.loaded i (some c.finishedRequests.load) }
  | next {s : State ι} {i : ι} {c : RequestContainer} {finishedRequests : Nat} :
      s.containers i = some c → s.loaded i = some finishedRequests →
      Step s (.next i) (s.afterNext i (c.next s.workload finishedRequests))
  /-- A callback, from any core, for a request that was not reported before. -/
  | report {s : State ι} {i : ι} {c : RequestContainer} (coreId : Nat) {index : Nat} :
      s.containers i = some c → (s.reported i).count index < (s.handedOut i).count index →
      Step s (.report i coreId index)
        { s with
          containers := Function.update s.containers i
            (some { c with finishedRequests := c.finishedRequests.add coreId 1 })
          reported := Function.update s.reported i (index :: s.reported i) }

end System

/-- The workload after `reset(phase)`, and no containers yet. -/
def State.initial {ι : Type*} (size : Nat) : State ι where
  workload := ⟨size, 0, 0⟩
  containers _ := none
  loaded _ := none
  handedOut _ := []
  reported _ := []
  finished _ := false

/-! ## The invariant -/

section Invariant

variable {ι : Type*}

/-- What is left in the local buffer of a container. -/
def State.buffer (s : State ι) (i : ι) : List Nat :=
  (s.containers i).elim [] fun c => c.localBuffer.indices

/-- What a container has claimed. -/
def State.own (s : State ι) (i : ι) : List Nat := s.handedOut i ++ s.buffer i

/-- The counters of a container agree with what it has handed out and what was reported. -/
structure ContainerOk (c : RequestContainer) (loaded : Option Nat)
    (handedOut reported : List Nat) : Prop where
  scheduled : c.scheduledRequests = handedOut.length
  counted : c.finishedRequests.localCounter + c.finishedRequests.remoteCounter = reported.length
  subperm : reported.Subperm handedOut
  loaded_le : ∀ f, loaded = some f → f ≤ reported.length
  pending_le : handedOut.length ≤ reported.length + c.maxPendingRequests

/-- The invariant: the containers share the indices claimed so far. -/
structure Inv (size : Nat) (s : State ι) : Prop where
  size_lt : size < 2 ^ 64
  size_eq : s.workload.size = size
  index_eq : s.workload.currentIndex = batchSize * s.workload.calls % 2 ^ 64
  shares : Shares s.own (min (batchSize * s.workload.calls) size)
  container : ∀ i c, s.containers i = some c →
    ContainerOk c (s.loaded i) (s.handedOut i) (s.reported i)
  absent : ∀ i, s.containers i = none →
    s.loaded i = none ∧ s.handedOut i = [] ∧ s.reported i = []
  finished : ∀ i, s.finished i = true → s.containers i ≠ none ∧
    (s.reported i).length = (s.handedOut i).length ∧ s.buffer i = [] ∧
      size ≤ batchSize * s.workload.calls

theorem Inv.initial {size : Nat} (hSize : size < 2 ^ 64) :
    Inv size (State.initial size : State ι) :=
  { size_lt := hSize
    size_eq := rfl
    index_eq := rfl
    shares := by
      rw [show min (batchSize * (State.initial size : State ι).workload.calls) size = 0 from
        Nat.zero_min size]
      exact Shares.nil
    container := fun i c hc => absurd hc (by simp [State.initial])
    absent := fun i _ => ⟨rfl, rfl, rfl⟩
    finished := fun i hi => absurd hi (by simp [State.initial]) }

/-- A batch is the next part of the workload, as long as the index has not wrapped. -/
theorem Workload.next_spec {w : Workload} (hIndex : w.currentIndex = batchSize * w.calls % 2 ^ 64)
    (hWrap : batchSize * w.calls < 2 ^ 64) :
    (w.next batchSize).1 = ⟨w.size, batchSize * (w.calls + 1) % 2 ^ 64, w.calls + 1⟩ ∧
    RequestIndex.indices ⟨(w.next batchSize).2.1, (w.next batchSize).2.2⟩ =
      List.range' (min (batchSize * w.calls) w.size)
        (min (batchSize * (w.calls + 1)) w.size - min (batchSize * w.calls) w.size) := by
  rw [Nat.mod_eq_of_lt hWrap] at hIndex
  have hMul : batchSize * (w.calls + 1) = batchSize * w.calls + batchSize := Nat.mul_succ ..
  unfold Workload.next RequestIndex.indices
  dsimp only
  rw [hIndex, hMul]
  refine ⟨rfl, ?_⟩
  by_cases hLess : batchSize * w.calls < w.size
  · rw [if_pos hLess, Nat.min_eq_left hLess.le]
    congr 1
    omega
  · rw [if_neg hLess, show min (batchSize * w.calls + batchSize) w.size -
      min (batchSize * w.calls) w.size = 0 by omega]
    rfl

namespace Inv

variable {size : Nat} {s : State ι} {i : ι} {c : RequestContainer}

theorem handedOut_lt (h : Inv size s) (i : ι) : (s.handedOut i).length < 2 ^ 64 := by
  have hLength := h.shares.length_le i
  rw [State.own, List.length_append] at hLength
  have hSize := h.size_lt
  omega

theorem buffer_eq (hc : s.containers i = some c) : s.buffer i = c.localBuffer.indices := by
  rw [State.buffer, hc]
  rfl

/-- The local buffer lies in the workload. -/
theorem buffer_le (h : Inv size s) (hc : s.containers i = some c) (hNew : 0 < c.localBuffer.count) :
    c.localBuffer.index + c.localBuffer.count ≤ size := by
  have hLast : c.localBuffer.index + c.localBuffer.count - 1 ∈ s.own i := by
    rw [State.own, buffer_eq hc, List.mem_append, RequestIndex.indices, List.mem_range'_1]
    exact Or.inr (by omega)
  have := h.shares.lt hLast
  omega

/-- The number of pending requests, as the container sees it. -/
theorem pending_eq (h : Inv size s) (hc : s.containers i = some c) {f : Nat}
    (hLoaded : s.loaded i = some f) :
    f ≤ (s.reported i).length ∧ (s.reported i).length ≤ (s.handedOut i).length ∧
      c.pendingRequests f = (s.handedOut i).length - f := by
  have hOk := h.container i c hc
  have hLe := hOk.loaded_le f hLoaded
  have hSub := hOk.subperm.length_le
  have hLt := h.handedOut_lt i
  refine ⟨hLe, hSub, ?_⟩
  rw [RequestContainer.pendingRequests, hOk.scheduled]
  omega

variable [DecidableEq ι]

/-- Claiming a batch: for a container that has been constructed just now or whose local buffer is
empty. -/
theorem claim (h : Inv size s) {c' : RequestContainer} (hEmpty : s.buffer i = [])
    (hBuffer : c'.localBuffer =
      ⟨(s.workload.next batchSize).2.1, (s.workload.next batchSize).2.2⟩)
    (hOk : ContainerOk c' (s.loaded i) (s.handedOut i) (s.reported i))
    (hWrap : batchSize * s.workload.calls < 2 ^ 64) :
    Inv size { s with
      workload := (s.workload.next batchSize).1
      containers := Function.update s.containers i (some c') } := by
  obtain ⟨hNext, hIndices⟩ := Workload.next_spec h.index_eq hWrap
  rw [← hBuffer, h.size_eq] at hIndices
  have hMul : batchSize * (s.workload.calls + 1) = batchSize * s.workload.calls + batchSize :=
    Nat.mul_succ ..
  rw [hNext]
  refine ⟨h.size_lt, h.size_eq, rfl, ?_, fun j d hd => ?_, fun j hj => ?_, fun j hj => ?_⟩
  · have hTake := h.shares.take i (min (batchSize * (s.workload.calls + 1)) size -
      min (batchSize * s.workload.calls) size)
    rw [← hIndices, Nat.add_sub_cancel' (by omega)] at hTake
    refine hTake.congr fun j => ?_
    by_cases hj : j = i
    · subst hj
      have hOwn : s.own j = s.handedOut j := by rw [State.own, hEmpty, List.append_nil]
      rw [Function.update_self, hOwn]
      simp [State.own, State.buffer]
    · simp [State.own, State.buffer, hj]
  · rcases update_cases hd with ⟨rfl, hEq⟩ | ⟨_, hOld⟩
    · obtain rfl : d = c' := by simpa using hEq
      exact hOk
    · exact h.container j d hOld
  · obtain ⟨_, hOld⟩ := update_elsewhere hj (by simp)
    exact h.absent j hOld
  · obtain ⟨hThere, hReported, hNone, hAll⟩ := h.finished j hj
    refine ⟨?_, hReported, ?_, show size ≤ batchSize * (s.workload.calls + 1) by omega⟩
    · by_cases hji : j = i
      · simp [hji]
      · simpa [hji] using hThere
    · by_cases hji : j = i
      · subst hji
        rw [show min (batchSize * (s.workload.calls + 1)) size -
          min (batchSize * s.workload.calls) size = 0 by omega] at hIndices
        simpa [State.buffer] using hIndices
      · simpa [State.buffer, hji] using hNone

/-- A call that hands nothing out. -/
theorem quiet (h : Inv size s) (hc : s.containers i = some c) {r : RequestIndex}
    (hCount : r.count = 0)
    (hFinished : r.isFinished = true → (s.reported i).length = (s.handedOut i).length ∧
      s.buffer i = [] ∧ size ≤ batchSize * s.workload.calls) :
    Inv size (s.afterNext i (c, s.workload, r)) := by
  have hNone : r.indices = [] := by rw [RequestIndex.indices, hCount]; rfl
  have hSame : Function.update s.containers i (some c) = s.containers := by
    rw [← hc, Function.update_eq_self]
  have hState : s.afterNext i (c, s.workload, r) =
      { s with
        loaded := Function.update s.loaded i none
        finished := Function.update s.finished i
          (s.finished i || (!r.hasNew && r.isFinished)) } := by
    unfold State.afterNext
    simp only [hNone, List.append_nil, hSame, Function.update_eq_self]
  rw [hState]
  refine ⟨h.size_lt, h.size_eq, h.index_eq, h.shares, fun j d hd => ?_, fun j hj => ?_,
    fun j hj => ?_⟩
  · have hOk := h.container j d hd
    refine { hOk with loaded_le := fun f hf => ?_ }
    obtain ⟨_, hOld⟩ := update_elsewhere hf (by simp)
    exact hOk.loaded_le f hOld
  · obtain ⟨hLoaded, hRest⟩ := h.absent j hj
    refine ⟨?_, hRest⟩
    by_cases hji : j = i
    · simp [hji]
    · simpa [hji] using hLoaded
  · rcases update_cases hj with ⟨rfl, hEq⟩ | ⟨_, hOld⟩
    · rcases Bool.or_eq_true_iff.mp hEq.symm with hOld | hNew
      · exact h.finished j hOld
      · rw [Bool.and_eq_true] at hNew
        exact ⟨by rw [hc]; simp, hFinished hNew.2⟩
    · exact h.finished j hOld

/-- A portion of a buffer and what is left of it. -/
theorem indices_sub {r : RequestIndex} {k : Nat} (hk : k ≤ r.count)
    (hLt : r.index + r.count < 2 ^ 64) :
    RequestIndex.indices ⟨r.index, k⟩ ++ (r.sub k).indices = r.indices := by
  have hSub : r.sub k = ⟨r.index + k, r.count - k⟩ := by
    unfold RequestIndex.sub
    rw [Nat.mod_eq_of_lt (by omega), show r.count + (2 ^ 64 - k) = r.count - k + 2 ^ 64 by omega,
      Nat.add_mod_right, Nat.mod_eq_of_lt (by omega)]
  rw [hSub, RequestIndex.indices, RequestIndex.indices, RequestIndex.indices,
    List.range'_append_1, Nat.add_sub_cancel' hk]

/-- Handing a portion of the local buffer out. -/
theorem handOut (h : Inv size s) (hc : s.containers i = some c) {f : Nat}
    (hLoaded : s.loaded i = some f) (hNew : 0 < c.localBuffer.count)
    (hPending : c.pendingRequests f < c.maxPendingRequests) :
    Inv size (s.afterNext i ((c.handOut (c.pendingRequests f)).1, s.workload,
      (c.handOut (c.pendingRequests f)).2)) := by
  obtain ⟨hLe, hSub, hEq⟩ := h.pending_eq hc hLoaded
  have hOk := h.container i c hc
  have hBuffer := h.buffer_le hc hNew
  have hSize := h.size_lt
  have hLength := h.shares.length_le i
  rw [State.own, buffer_eq hc, List.length_append, RequestIndex.indices, List.length_range']
    at hLength
  rw [hEq] at hPending ⊢
  unfold RequestContainer.handOut
  obtain ⟨k, hk⟩ : ∃ k, k = min (c.maxPendingRequests - ((s.handedOut i).length - f))
    c.localBuffer.count := ⟨_, rfl⟩
  simp only [← hk]
  have hPortion := indices_sub (r := c.localBuffer) (k := k) (by omega) (by omega)
  refine ⟨hSize, h.size_eq, h.index_eq, ?_, fun j d hd => ?_, fun j hj => ?_, fun j hj => ?_⟩
  · refine h.shares.congr fun j => ?_
    by_cases hj : j = i
    · subst hj
      rw [State.own, State.own, buffer_eq hc, ← hPortion, ← List.append_assoc]
      simp [State.afterNext, State.buffer]
    · simp [State.own, State.buffer, State.afterNext, hj]
  · rcases update_cases hd with ⟨rfl, hEq'⟩ | ⟨hne, hOld⟩
    · obtain rfl : _ = d := by simpa using hEq'.symm
      simp only [State.afterNext, Function.update_self]
      refine ⟨?_, hOk.counted, ?_, fun f hf => absurd hf (by simp), ?_⟩
      · rw [List.length_append, RequestIndex.indices, List.length_range', hOk.scheduled]
        exact Nat.mod_eq_of_lt (by omega)
      · exact hOk.subperm.trans (List.sublist_append_left _ _).subperm
      · rw [List.length_append, RequestIndex.indices, List.length_range']
        show (s.handedOut j).length + k ≤ (s.reported j).length + c.maxPendingRequests
        omega
    · have hOther := h.container j d hOld
      simpa [State.afterNext, hne] using hOther
  · obtain ⟨hne, hOld⟩ := update_elsewhere hj (by simp)
    simpa [State.afterNext, hne] using h.absent j hOld
  · -- a container with a local buffer has not finished, and a portion is not empty
    have hFlag : s.finished i = false := by
      by_contra hTrue
      have hEmpty := (h.finished i (by simpa using hTrue)).2.2.1
      rw [buffer_eq hc, RequestIndex.indices, List.range'_eq_nil_iff] at hEmpty
      omega
    have hk : k ≠ 0 := by omega
    obtain ⟨hne, hOld⟩ := update_elsewhere hj (by simp [hFlag, RequestIndex.hasNew, hk])
    simpa [State.afterNext, State.buffer, hne] using h.finished j hOld

/-- Claiming a batch when the local buffer is empty. -/
theorem refill_spec (h : Inv size s) (hc : s.containers i = some c)
    (hNew : c.localBuffer.hasNew = false)
    (hWrap : batchSize * (c.refill s.workload).2.calls < 2 ^ 64 + batchSize) :
    Inv size { s with
      workload := (c.refill s.workload).2
      containers := Function.update s.containers i (some (c.refill s.workload).1) } ∧
    (∀ f, (c.refill s.workload).1.pendingRequests f = c.pendingRequests f) ∧
    (c.refill s.workload).1.maxPendingRequests = c.maxPendingRequests ∧
    ((c.refill s.workload).1.localBuffer.hasNew = false →
      size ≤ batchSize * (c.refill s.workload).2.calls) := by
  have hRefill : c.refill s.workload = ({ c with localBuffer :=
      ⟨(s.workload.next batchSize).2.1, (s.workload.next batchSize).2.2⟩ },
      (s.workload.next batchSize).1) := by
    rw [RequestContainer.refill, if_pos hNew]
  have hCalls : (s.workload.next batchSize).1.calls = s.workload.calls + 1 := rfl
  have hMul : batchSize * (s.workload.calls + 1) = batchSize * s.workload.calls + batchSize :=
    Nat.mul_succ ..
  rw [hRefill] at hWrap ⊢
  rw [hCalls, hMul] at hWrap
  have hOk := h.container i c hc
  have hCount : c.localBuffer.count = 0 := by simpa [RequestIndex.hasNew] using hNew
  have hEmpty : s.buffer i = [] := by
    rw [buffer_eq hc, RequestIndex.indices, hCount]
    rfl
  refine ⟨h.claim hEmpty rfl ⟨hOk.scheduled, hOk.counted, hOk.subperm, hOk.loaded_le,
    hOk.pending_le⟩ (by omega), fun _ => rfl, rfl, fun hNone => ?_⟩
  -- an empty batch lies behind the end of the workload
  obtain ⟨_, hIndices⟩ := Workload.next_spec h.index_eq (by omega)
  have hZero : (s.workload.next batchSize).2.2 = 0 := by simpa [RequestIndex.hasNew] using hNone
  rw [RequestIndex.indices, hZero, h.size_eq] at hIndices
  have hEnd := List.range'_eq_nil_iff.mp hIndices.symm
  have hPos : 0 < batchSize := by decide
  rw [hCalls]
  omega

/-- The rest of a call of `next()`. -/
theorem next (h : Inv size s) (hc : s.containers i = some c) {f : Nat}
    (hLoaded : s.loaded i = some f)
    (hWrap : batchSize * (c.next s.workload f).2.1.calls < 2 ^ 64 + batchSize) :
    Inv size (s.afterNext i (c.next s.workload f)) := by
  obtain ⟨hLe, hSub, hEq⟩ := h.pending_eq hc hLoaded
  unfold RequestContainer.next at hWrap ⊢
  by_cases hFull : c.maxPendingRequests ≤ c.pendingRequests f
  · simp only [if_pos hFull]
    exact h.quiet hc rfl fun hFinished => absurd hFinished (by decide)
  simp only [if_neg hFull] at hWrap ⊢
  by_cases hNew : c.localBuffer.hasNew = true
  · have hRefill : c.refill s.workload = (c, s.workload) := by
      simp [RequestContainer.refill, hNew]
    simp only [hRefill, hNew, if_true]
    exact h.handOut hc hLoaded (by simpa [RequestIndex.hasNew] using hNew) (not_le.mp hFull)
  · rw [Bool.not_eq_true] at hNew
    have hCalls : batchSize * (c.refill s.workload).2.calls < 2 ^ 64 + batchSize := by
      split at hWrap <;> exact hWrap
    obtain ⟨hClaimed, hSame, hMax, hLast⟩ := h.refill_spec hc hNew hCalls
    generalize c.refill s.workload = refilled at *
    obtain ⟨c', w'⟩ := refilled
    -- the call goes on from the state after the claim
    have hState : ∀ result : RequestContainer × RequestIndex,
        s.afterNext i (result.1, w', result.2) =
          ({ s with
              workload := w'
              containers := Function.update s.containers i (some c') } : State ι).afterNext i
            (result.1, w', result.2) := by
      intro result
      simp [State.afterNext]
    have hc' : Function.update s.containers i (some c') i = some c' := Function.update_self ..
    by_cases hNew' : c'.localBuffer.hasNew = true
    · simp only [hNew', if_true]
      rw [hState, ← hSame f]
      refine hClaimed.handOut hc' hLoaded (by simpa [RequestIndex.hasNew] using hNew') ?_
      rw [hSame f, hMax]
      exact not_le.mp hFull
    · rw [Bool.not_eq_true] at hNew'
      simp only [hNew', Bool.false_eq_true, if_false]
      rw [hState (c', _)]
      refine hClaimed.quiet hc' ?_ fun hFinished => ?_
      · split <;> rfl
      · have hNone : c.pendingRequests f = 0 := by
          by_contra hSome
          rw [if_pos (Nat.pos_of_ne_zero hSome)] at hFinished
          exact absurd hFinished (show ¬ RequestIndex.makeNoNew.isFinished = true by decide)
        have hCount : c'.localBuffer.count = 0 := by simpa [RequestIndex.hasNew] using hNew'
        have hAll : (s.reported i).length = (s.handedOut i).length := by omega
        refine ⟨hAll, ?_, hLast hNew'⟩
        rw [buffer_eq hc', RequestIndex.indices, hCount]
        rfl

/-- The constructor of a container. -/
theorem construct (h : Inv size s) (hNone : s.containers i = none) (coreId maxOpenRequests : Nat)
    (hWrap : batchSize * s.workload.calls < 2 ^ 64) :
    Inv size { s with
      workload := (RequestContainer.construct coreId maxOpenRequests s.workload).2
      containers := Function.update s.containers i
        (some (RequestContainer.construct coreId maxOpenRequests s.workload).1) } := by
  obtain ⟨hLoaded, hHanded, hReported⟩ := h.absent i hNone
  refine h.claim (by rw [State.buffer, hNone]; rfl) rfl ?_ hWrap
  rw [hLoaded, hHanded, hReported]
  exact ⟨rfl, rfl, List.Subperm.refl _, fun f hf => absurd hf (by simp), Nat.zero_le _⟩

/-- Loading the number of finished requests. -/
theorem load (h : Inv size s) (hc : s.containers i = some c) :
    Inv size { s with
      loaded := Function.update s.loaded i (some c.finishedRequests.load) } := by
  refine ⟨h.size_lt, h.size_eq, h.index_eq, h.shares, fun j d hd => ?_, fun j hj => ?_, h.finished⟩
  · have hOk := h.container j d hd
    refine ⟨hOk.scheduled, hOk.counted, hOk.subperm, fun f hf => ?_, hOk.pending_le⟩
    rcases update_cases hf with ⟨rfl, hEq⟩ | ⟨_, hOld⟩
    · obtain rfl : d = c := by simpa [hc] using hd.symm
      obtain rfl : f = d.finishedRequests.load := by simpa using hEq
      rw [ReferenceCounter.load, hOk.counted]
      exact Nat.mod_le _ _
    · exact hOk.loaded_le f hOld
  · obtain ⟨hLoaded, hRest⟩ := h.absent j hj
    have hne : j ≠ i := by
      rintro rfl
      simp [hc] at hj
    exact ⟨by simpa [hne] using hLoaded, hRest⟩

/-- A callback for a request that was not reported before. -/
theorem report (h : Inv size s) (hc : s.containers i = some c) (coreId : Nat) {index : Nat}
    (hOpen : (s.reported i).count index < (s.handedOut i).count index) :
    Inv size { s with
      containers := Function.update s.containers i
        (some { c with finishedRequests := c.finishedRequests.add coreId 1 })
      reported := Function.update s.reported i (index :: s.reported i) } := by
  have hOk := h.container i c hc
  have hSubperm : (index :: s.reported i).Subperm (s.handedOut i) := by
    rw [List.subperm_iff_count]
    intro x
    have hOld := List.subperm_iff_count.mp hOk.subperm x
    rw [List.count_cons]
    split
    · rename_i hEq
      obtain rfl : index = x := by simpa using hEq
      omega
    · omega
  have hLength := hSubperm.length_le
  rw [List.length_cons] at hLength
  have hLt := h.handedOut_lt i
  have hCounted := hOk.counted
  refine ⟨h.size_lt, h.size_eq, h.index_eq, ?_, fun j d hd => ?_, fun j hj => ?_, fun j hj => ?_⟩
  · refine h.shares.congr fun j => ?_
    by_cases hj : j = i
    · subst hj
      simp [State.own, State.buffer, hc]
    · simp [State.own, State.buffer, hj]
  · rcases update_cases hd with ⟨rfl, hEq⟩ | ⟨hne, hOld⟩
    · obtain rfl : _ = d := by simpa using hEq.symm
      simp only [Function.update_self]
      refine ⟨hOk.scheduled, ?_, hSubperm, fun f hf => ?_, ?_⟩
      · rw [List.length_cons, ← hCounted]
        exact c.finishedRequests.add_one coreId (by omega)
      · have := hOk.loaded_le f hf
        rw [List.length_cons]
        omega
      · have hPending : (s.handedOut j).length ≤ (s.reported j).length + c.maxPendingRequests :=
          hOk.pending_le
        rw [List.length_cons]
        show (s.handedOut j).length ≤ (s.reported j).length + 1 + c.maxPendingRequests
        omega
    · simpa [hne] using h.container j d hOld
  · obtain ⟨hne, hOld⟩ := update_elsewhere hj (by simp)
    simpa [hne] using h.absent j hOld
  · have hne : j ≠ i := by
      rintro rfl
      have := (h.finished j hj).2.1
      omega
    simpa [State.buffer, hne] using h.finished j hj

/-- One step keeps the invariant, as long as the index has not wrapped. -/
theorem step {s' : State ι} {e : Event ι} (h : Inv size s) (hStep : Step s e s')
    (hWrap : batchSize * s'.workload.calls < 2 ^ 64 + batchSize) : Inv size s' := by
  cases hStep with
  | construct coreId maxOpenRequests hNone _ =>
      have hMul : batchSize * (s.workload.calls + 1) = batchSize * s.workload.calls + batchSize :=
        Nat.mul_succ ..
      have hCalls : batchSize * (s.workload.calls + 1) < 2 ^ 64 + batchSize := hWrap
      exact h.construct hNone coreId maxOpenRequests (by omega)
  | load hc _ => exact h.load hc
  | next hc hLoaded => exact h.next hc hLoaded hWrap
  | report coreId hc hOpen => exact h.report hc coreId hOpen

end Inv

variable [DecidableEq ι]

/-- No step takes a call of `Workload::next` back. -/
theorem Step.calls_le {s s' : State ι} {e : Event ι} (h : Step s e s') :
    s.workload.calls ≤ s'.workload.calls := by
  cases h with
  | construct coreId maxOpenRequests _ _ => exact Nat.le_succ _
  | load _ _ => exact le_refl _
  | @next i c f _ _ =>
      show s.workload.calls ≤ (c.next s.workload f).2.1.calls
      have hRefill : s.workload.calls ≤ (c.refill s.workload).2.calls := by
        unfold RequestContainer.refill
        split
        · exact Nat.le_succ _
        · exact le_refl _
      unfold RequestContainer.next
      dsimp only
      split
      · exact le_refl _
      · split <;> exact hRefill
  | report _ _ _ => exact le_refl _

/-- Every run in which the index has not wrapped keeps the invariant. -/
theorem Inv.run {size : Nat} (hSize : size < 2 ^ 64) {es : List (Event ι)} {s : State ι}
    (hRun : Run Step (State.initial size) es s)
    (hWrap : batchSize * s.workload.calls < 2 ^ 64 + batchSize) : Inv size s := by
  refine hRun.invariant (P := fun s => batchSize * s.workload.calls < 2 ^ 64 + batchSize →
    Inv size s) (fun _ => Inv.initial hSize) ?_ hWrap
  intro e mid fin hMid hStep hFin
  have hLe := Nat.mul_le_mul_left batchSize hStep.calls_le
  exact (hMid (by omega)).step hStep hFin

/-- In every state of every run in which the index of the workload has not wrapped: an index is
handed out at most once and lies in the workload; a container has at most as many requests open
as it may have, and its subtractions do not wrap; one that has returned finished has an empty local
buffer, and all its requests were reported; and when all containers have returned finished, every
index of the workload was handed out once. -/
theorem requests_distributed [Nonempty ι] (size : Nat) (hSize : size < 2 ^ 64)
    (es : List (Event ι)) (s : State ι) (hRun : Run Step (State.initial size) es s)
    (hWrap : batchSize * s.workload.calls < 2 ^ 64 + batchSize) :
    (∀ i, (s.handedOut i).Nodup ∧ ∀ x ∈ s.handedOut i, x < size) ∧
    (∀ i j, i ≠ j → (s.handedOut i).Disjoint (s.handedOut j)) ∧
    (∀ i c, s.containers i = some c →
      (s.reported i).Subperm (s.handedOut i) ∧
      (s.handedOut i).length ≤ (s.reported i).length + c.maxPendingRequests ∧
      c.finishedRequests.load ≤ c.scheduledRequests ∧
      c.scheduledRequests - c.finishedRequests.load =
        (s.handedOut i).length - (s.reported i).length ∧
      ∀ f, s.loaded i = some f →
        f ≤ c.scheduledRequests ∧ c.pendingRequests f = c.scheduledRequests - f) ∧
    (∀ i, s.finished i = true → (s.reported i).Perm (s.handedOut i) ∧ s.buffer i = []) ∧
    ((∀ i, s.finished i = true) → ∀ x, x < size → ∃! i, x ∈ s.handedOut i) := by
  have h := Inv.run hSize hRun hWrap
  refine ⟨fun i => ⟨?_, fun x hx => ?_⟩, fun i j hne x hx hx' => ?_, fun i c hc => ?_,
    fun i hi => ?_, fun hAll x hx => ?_⟩
  · exact (h.shares.nodup i).sublist (List.sublist_append_left _ _)
  · have := h.shares.lt (List.mem_append_left (s.buffer i) hx)
    omega
  · exact h.shares.disjoint i j hne (List.mem_append_left _ hx) (List.mem_append_left _ hx')
  · have hOk := h.container i c hc
    have hLength := hOk.subperm.length_le
    have hLt := h.handedOut_lt i
    have hLoad : c.finishedRequests.load = (s.reported i).length := by
      rw [ReferenceCounter.load, hOk.counted]
      exact Nat.mod_eq_of_lt (by omega)
    rw [hLoad, hOk.scheduled]
    refine ⟨hOk.subperm, hOk.pending_le, hLength, rfl, fun f hf => ?_⟩
    obtain ⟨hLe, _, hPending⟩ := h.pending_eq hc hf
    exact ⟨le_trans hLe hLength, hPending⟩
  · obtain ⟨hThere, hReported, hBuffer, _⟩ := h.finished i hi
    obtain ⟨c, hc⟩ := Option.ne_none_iff_exists'.mp hThere
    exact ⟨(h.container i c hc).subperm.perm_of_length_le hReported.ge, hBuffer⟩
  · obtain ⟨i⟩ := ‹Nonempty ι›
    have hClaimed := (h.finished i (hAll i)).2.2.2
    -- nothing is left in a buffer
    have hOwn : ∀ j, s.own j = s.handedOut j := fun j => by
      rw [State.own, (h.finished j (hAll j)).2.2.1, List.append_nil]
    have hUnique := h.shares.existsUnique (x := x) (by omega)
    simpa only [hOwn] using hUnique

end Invariant

/-! ## One container -/

/-- A system of one container, between two calls and before anything was reported. -/
def single (w : Workload) (c : RequestContainer) (handedOut : List Nat) : State Unit where
  workload := w
  containers _ := some c
  loaded _ := none
  handedOut _ := handedOut
  reported _ := []
  finished _ := false

theorem update_unit {α : Type*} (f : Unit → α) (x : α) : Function.update f () x = fun _ => x := by
  funext u
  simp

/-- The constructor. -/
theorem run_construct (size : Nat) {maxOpenRequests : Nat} (hMax : maxOpenRequests < 2 ^ 64) :
    Run Step (State.initial size) [.construct () 0 maxOpenRequests]
      (single (RequestContainer.construct 0 maxOpenRequests ⟨size, 0, 0⟩).2
        (RequestContainer.construct 0 maxOpenRequests ⟨size, 0, 0⟩).1 []) := by
  refine (Run.single (Step.construct 0 maxOpenRequests rfl hMax)).cast ?_
  simp only [update_unit]
  rfl

/-- A call of `next()` that does not return finished. -/
theorem run_call {w w' : Workload} {c c' : RequestContainer} {r : RequestIndex}
    (hNext : c.next w c.finishedRequests.load = (c', w', r))
    (hGoes : (!r.hasNew && r.isFinished) = false) (handedOut : List Nat) :
    Run Step (single w c handedOut) [.load (), .next ()]
      (single w' c' (handedOut ++ r.indices)) := by
  have hLoad : Step (single w c handedOut) (.load ()) _ := Step.load rfl rfl
  have hLoaded :
      Function.update (single w c handedOut).loaded () (some c.finishedRequests.load) () =
      some c.finishedRequests.load := Function.update_self ..
  have hRest := Step.next (s := { single w c handedOut with
    loaded := Function.update (single w c handedOut).loaded () (some c.finishedRequests.load) })
    (i := ()) (c := c) rfl hLoaded
  refine ((Run.single hLoad).snoc hRest).cast ?_
  unfold State.afterNext
  simp only [update_unit]
  show State.mk _ _ _ _ _ _ = _
  rw [show (single w c handedOut).workload = w from rfl, hNext]
  simp [single, hGoes]

/-- A container with three requests hands all of them out; they are reported by callbacks on two
cores, and the next call returns finished. -/
theorem requests_distributed_finished :
    ∃ es s, Run Step (State.initial 3 : State Unit) es s ∧ es.length = 8 ∧
      s.finished () = true ∧ s.handedOut () = [0, 1, 2] ∧
      (s.reported ()).Perm (s.handedOut ()) ∧ ∀ x, x < 3 → ∃! i, x ∈ s.handedOut i := by
  have hNext : RequestContainer.next ⟨⟨0, 0, 0⟩, 0, ⟨0, 3⟩, 1500⟩ ⟨3, 500, 1⟩ 0 =
      (⟨⟨0, 0, 0⟩, 3, ⟨3, 0⟩, 1500⟩, ⟨3, 500, 1⟩, ⟨0, 3⟩) := by decide
  have hOut := (run_construct 3 (show 1500 < 2 ^ 64 by decide)).append
    (run_call (c := ⟨⟨0, 0, 0⟩, 0, ⟨0, 3⟩, 1500⟩) hNext (by decide) [])
  have hReported := ((hOut.snoc (show Step _ (.report () 0 1) _ from .report 0 rfl (by decide))).snoc
    (show Step _ (.report () 1 0) _ from .report 1 rfl (by decide))).snoc
    (show Step _ (.report () 0 2) _ from .report 0 rfl (by decide))
  have hRun := (hReported.snoc (.load (i := ()) rfl rfl)).snoc (.next (i := ()) rfl rfl)
  obtain ⟨-, -, -, hFinished, hAll⟩ := requests_distributed 3 (by decide) _ _ hRun (by decide)
  exact ⟨_, _, hRun, rfl, rfl, rfl, (hFinished () rfl).1, hAll fun _ => rfl⟩

/-- A container that has handed 500 requests out and has found the workload exhausted. -/
def waiting : RequestContainer := ⟨⟨0, 0, 0⟩, 500, ⟨2 ^ 64 - 1, 0⟩, 1500⟩

/-- Each further call moves the index of the exhausted workload on. -/
theorem run_polls (n : Nat) (hWrap : batchSize * (n + 2) < 2 ^ 64) :
    ∃ es, Run Step (single ⟨500, batchSize * 2, 2⟩ waiting (List.range' 0 500)) es
      (single ⟨500, batchSize * (n + 2), n + 2⟩ waiting (List.range' 0 500)) := by
  induction n with
  | zero => exact ⟨[], Run.nil⟩
  | succ n ih =>
      have hMul : batchSize * (n + 1 + 2) = batchSize * (n + 2) + batchSize := Nat.mul_succ ..
      obtain ⟨es, hRun⟩ := ih (by omega)
      have hNext : waiting.next ⟨500, batchSize * (n + 2), n + 2⟩ waiting.finishedRequests.load =
          (waiting, ⟨500, batchSize * (n + 1 + 2), n + 1 + 2⟩, .makeNoNew) := by
        have hPending : waiting.pendingRequests waiting.finishedRequests.load = 500 := by decide
        have hRefill : waiting.refill ⟨500, batchSize * (n + 2), n + 2⟩ =
            (waiting, ⟨500, batchSize * (n + 1 + 2), n + 1 + 2⟩) := by
          have hEnd : ¬ batchSize * (n + 2) < 500 := by unfold batchSize; omega
          simp only [RequestContainer.refill, Workload.next, if_neg hEnd, ← hMul,
            Nat.mod_eq_of_lt hWrap]
          rfl
        unfold RequestContainer.next
        rw [hPending, hRefill]
        rfl
      have hCall := run_call hNext (by decide) (List.range' 0 500)
      exact ⟨_, hRun.append (by simpa [RequestIndex.indices, RequestIndex.makeNoNew] using hCall)⟩

/-- With 500 requests, none of which is reported, the container keeps asking.  After about
`2 ^ 64 / 500` calls the index wraps, and the indices from 384 on are handed out again. -/
theorem index_handed_out_twice :
    ∃ es s, Run Step (State.initial 500 : State Unit) es s ∧ ¬ (s.handedOut ()).Nodup := by
  have hFirst : RequestContainer.next ⟨⟨0, 0, 0⟩, 0, ⟨0, 500⟩, 1500⟩ ⟨500, 500, 1⟩ 0 =
      (⟨⟨0, 0, 0⟩, 500, ⟨500, 0⟩, 1500⟩, ⟨500, 500, 1⟩, ⟨0, 500⟩) := by decide
  have hSecond : RequestContainer.next ⟨⟨0, 0, 0⟩, 500, ⟨500, 0⟩, 1500⟩ ⟨500, 500, 1⟩ 0 =
      (waiting, ⟨500, batchSize * 2, 2⟩, .makeNoNew) := by decide
  have hLast : waiting.next ⟨500, batchSize * 36893488147419103, 36893488147419103⟩ 0 =
      (waiting, ⟨500, 384, 36893488147419104⟩, .makeNoNew) := by decide
  have hWrapped : waiting.next ⟨500, 384, 36893488147419104⟩ 0 =
      (⟨⟨0, 0, 0⟩, 616, ⟨500, 0⟩, 1500⟩, ⟨500, 884, 36893488147419105⟩, ⟨384, 116⟩) := by
    decide +kernel
  have hStart := (run_construct 500 (show 1500 < 2 ^ 64 by decide)).append
    (run_call (c := ⟨⟨0, 0, 0⟩, 0, ⟨0, 500⟩, 1500⟩) hFirst (by decide) [])
  have hExhausted := run_call (c := ⟨⟨0, 0, 0⟩, 500, ⟨500, 0⟩, 1500⟩) hSecond (by decide)
    ([] ++ RequestIndex.indices ⟨0, 500⟩)
  rw [show [] ++ RequestIndex.indices ⟨0, 500⟩ ++ RequestIndex.indices .makeNoNew =
    List.range' 0 500 by simp [RequestIndex.indices, RequestIndex.makeNoNew]] at hExhausted
  obtain ⟨es, hPolls⟩ : ∃ es, Run Step (single ⟨500, batchSize * 2, 2⟩ waiting (List.range' 0 500))
      es (single ⟨500, batchSize * 36893488147419103, 36893488147419103⟩ waiting
        (List.range' 0 500)) := by
    obtain ⟨n, hCalls⟩ : ∃ n, 36893488147419103 = n + 2 := Nat.exists_eq_add_of_le' (by decide)
    have hWrap : batchSize * (n + 2) < 2 ^ 64 := by rw [← hCalls]; decide
    rw [hCalls]
    exact run_polls n hWrap
  have hEnd := (run_call (c := waiting) hLast (by decide) (List.range' 0 500)).append
    (run_call (c := waiting) hWrapped (by decide) _)
  refine ⟨_, _, ((hStart.append hExhausted).append hPolls).append hEnd, fun hNodup => ?_⟩
  have hDisjoint := (List.nodup_append'.mp hNodup).2.2
  have hOnce : 384 ∈ List.range' 0 500 ++ RequestIndex.indices .makeNoNew :=
    List.mem_append_left _ (List.mem_range'_1.mpr (by omega))
  have hTwice : 384 ∈ RequestIndex.indices ⟨384, 116⟩ := List.mem_range'_1.mpr (by decide)
  exact hDisjoint hOnce hTwice

end MxTasking.Benchmark
