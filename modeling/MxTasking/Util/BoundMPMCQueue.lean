import MxTasking.Verified.TransitionSystem
import Mathlib.Data.List.Nodup
import Mathlib.Data.Nat.ModEq

/-!
# The bounded multi producer, multi consumer queue

`bound_mpmc_queue.h`.  Pushes claim positions at `_head` and pops at `_tail`; the slot of a position
is the remainder by the capacity.  The sequence number of a slot says what may happen to it
next: it is the position for a slot that is free for the push at this position, one more when the
value is there, and a round more when it has been taken out.

Every load, compare-exchange, data copy and sequence store is a step of its own, and any
number of threads take theirs in any order.  A `compare_exchange_weak` may fail for no reason.
Positions are below 2^63 (`Bounded`), so no counter overflows, but the difference of a
sequence number and a position is still the one of `std::int64_t`.

With one slot the sequence number of a value that is there is the one of a slot that is free for
the next position, and values are overwritten.

## Main results

* `Inv.step` — one step keeps what the sequence numbers say.
* `Inv.sequential` — a push or a pop that runs alone.
* `refines_iff` — the queue refines a bounded FIFO exactly if it has more than one slot.
-/

namespace MxTasking.Util.BoundMPMCQueue

open MxTasking.Verified

/-! ## The program -/

/-- Where a thread is in `try_push_back` or `try_pop_front`. -/
inductive Control (T : Type*) where
  | idle
  | pushLoad (item : T)
  /-- `pos` is read, the sequence number is not. -/
  | pushSequence (item : T) (pos : Nat)
  /-- `difference == 0`. -/
  | pushExchange (item : T) (pos : Nat)
  /-- The position is claimed. -/
  | pushWrite (item : T) (pos : Nat)
  | pushPublish (pos : Nat)
  | popLoad
  | popSequence (pos : Nat)
  | popExchange (pos : Nat)
  | popCopy (pos : Nat)
  | popRelease (pos : Nat) (item : T)
  deriving DecidableEq, Repr

/-- The queue, the threads and three logs: the items of the pushes in the order of their positions,
the positions whose value has been copied out, and what the pops returned. -/
structure State (T : Type*) where
  sequences : Nat → Nat
  values : Nat → T
  head : Nat
  tail : Nat
  threads : Nat → Control T
  pushed : List T
  copied : List Nat
  popped : List (Nat × T)

inductive Event (T : Type*) where
  | call (thread : Nat)
  | internal (thread : Nat)
  | returnPush (thread : Nat) (result : Bool)
  | returnPop (thread : Nat) (result : Option T)
  deriving DecidableEq, Repr

variable {T : Type*}

/-- `std::int64_t(sequence) - std::int64_t(pos)`. -/
def difference (sequence pos : Nat) : Int := ((sequence : Int) - (pos : Int)).bmod (2 ^ 64)

namespace State

/-- The constructor; `zero` is the value with all bytes 0. -/
def initial (zero : T) : State T where
  sequences := fun i => i
  values := fun _ => zero
  head := 0
  tail := 0
  threads := fun _ => .idle
  pushed := []
  copied := []
  popped := []

def goto (s : State T) (t : Nat) (control : Control T) : State T :=
  { s with threads := Function.update s.threads t control }

/-- `_head` goes from `pos` to `pos + 1`. -/
def claimHead (s : State T) (t : Nat) (item : T) (pos : Nat) : State T :=
  { s with
    threads := Function.update s.threads t (.pushWrite item pos)
    head := pos + 1
    pushed := s.pushed ++ [item] }

def write (c : Nat) (s : State T) (t : Nat) (item : T) (pos : Nat) : State T :=
  { s with
    threads := Function.update s.threads t (.pushPublish pos)
    values := Function.update s.values (pos % c) item }

def publish (c : Nat) (s : State T) (t pos : Nat) : State T :=
  { s with
    threads := Function.update s.threads t .idle
    sequences := Function.update s.sequences (pos % c) (pos + 1) }

/-- `_tail` goes from `pos` to `pos + 1`. -/
def claimTail (s : State T) (t pos : Nat) : State T :=
  { s with
    threads := Function.update s.threads t (.popCopy pos)
    tail := pos + 1 }

def copy (c : Nat) (s : State T) (t pos : Nat) : State T :=
  { s with
    threads := Function.update s.threads t (.popRelease pos (s.values (pos % c)))
    copied := s.copied ++ [pos] }

def release (c : Nat) (s : State T) (t pos : Nat) (item : T) : State T :=
  { s with
    threads := Function.update s.threads t .idle
    sequences := Function.update s.sequences (pos % c) (pos + c)
    popped := s.popped ++ [(pos, item)] }

end State

/-- The steps of a queue with `c` slots. -/
inductive Step (c : Nat) : State T → Event T → State T → Prop where
  | callPush {s : State T} {t : Nat} (item : T) (hAt : s.threads t = .idle) :
      Step c s (.call t) (s.goto t (.pushLoad item))
  | loadHead {s : State T} {t : Nat} {item : T} (hAt : s.threads t = .pushLoad item) :
      Step c s (.internal t) (s.goto t (.pushSequence item s.head))
  | pushFree {s : State T} {t pos : Nat} {item : T} (hAt : s.threads t = .pushSequence item pos)
      (hDifference : difference (s.sequences (pos % c)) pos = 0) :
      Step c s (.internal t) (s.goto t (.pushExchange item pos))
  | pushFull {s : State T} {t pos : Nat} {item : T} (hAt : s.threads t = .pushSequence item pos)
      (hDifference : difference (s.sequences (pos % c)) pos < 0) :
      Step c s (.returnPush t false) (s.goto t .idle)
  | pushRetry {s : State T} {t pos : Nat} {item : T} (hAt : s.threads t = .pushSequence item pos)
      (hDifference : 0 < difference (s.sequences (pos % c)) pos) :
      Step c s (.internal t) (s.goto t (.pushLoad item))
  | claimHead {s : State T} {t pos : Nat} {item : T} (hAt : s.threads t = .pushExchange item pos)
      (hHead : s.head = pos) : Step c s (.internal t) (s.claimHead t item pos)
  | missHead {s : State T} {t pos : Nat} {item : T} (hAt : s.threads t = .pushExchange item pos) :
      Step c s (.internal t) (s.goto t (.pushSequence item s.head))
  | write {s : State T} {t pos : Nat} {item : T} (hAt : s.threads t = .pushWrite item pos) :
      Step c s (.internal t) (s.write c t item pos)
  | publish {s : State T} {t pos : Nat} (hAt : s.threads t = .pushPublish pos) :
      Step c s (.returnPush t true) (s.publish c t pos)
  | callPop {s : State T} {t : Nat} (hAt : s.threads t = .idle) :
      Step c s (.call t) (s.goto t .popLoad)
  | loadTail {s : State T} {t : Nat} (hAt : s.threads t = .popLoad) :
      Step c s (.internal t) (s.goto t (.popSequence s.tail))
  | popReady {s : State T} {t pos : Nat} (hAt : s.threads t = .popSequence pos)
      (hDifference : difference (s.sequences (pos % c)) (pos + 1) = 0) :
      Step c s (.internal t) (s.goto t (.popExchange pos))
  | popEmpty {s : State T} {t pos : Nat} (hAt : s.threads t = .popSequence pos)
      (hDifference : difference (s.sequences (pos % c)) (pos + 1) < 0) :
      Step c s (.returnPop t none) (s.goto t .idle)
  | popRetry {s : State T} {t pos : Nat} (hAt : s.threads t = .popSequence pos)
      (hDifference : 0 < difference (s.sequences (pos % c)) (pos + 1)) :
      Step c s (.internal t) (s.goto t .popLoad)
  | claimTail {s : State T} {t pos : Nat} (hAt : s.threads t = .popExchange pos)
      (hTail : s.tail = pos) : Step c s (.internal t) (s.claimTail t pos)
  | missTail {s : State T} {t pos : Nat} (hAt : s.threads t = .popExchange pos) :
      Step c s (.internal t) (s.goto t (.popSequence s.tail))
  | copy {s : State T} {t pos : Nat} (hAt : s.threads t = .popCopy pos) :
      Step c s (.internal t) (s.copy c t pos)
  | release {s : State T} {t pos : Nat} {item : T} (hAt : s.threads t = .popRelease pos item) :
      Step c s (.returnPop t (some item)) (s.release c t pos item)

/-- Positions are below 2^63. -/
def Bounded (s : State T) (_ : Event T) : Prop := s.head < 2 ^ 63

/-- The position that a push has claimed and not published yet. -/
def Control.fills : Control T → Option Nat
  | .pushWrite _ pos => some pos
  | .pushPublish pos => some pos
  | _ => none

/-- The position that a pop has claimed and not released yet. -/
def Control.takes : Control T → Option Nat
  | .popCopy pos => some pos
  | .popRelease pos _ => some pos
  | _ => none

/-! ## What a bounded FIFO is -/

/-- The values in the queue: those pushed at the positions from the tail on. -/
def State.contents (s : State T) : List T := s.pushed.drop s.tail

/-- What holds however the threads interleave. -/
structure Fifo (c : Nat) (s : State T) : Prop where
  /-- The pushes have the positions below the head. -/
  pushed : s.pushed.length = s.head
  /-- A pop at a position returns what was pushed there. -/
  returned : ∀ r ∈ s.popped, s.pushed[r.1]? = some r.2
  /-- Every position below the tail belongs to one pop, which has returned or is under way. -/
  claimed : ∀ p, p < s.tail ↔ p ∈ s.popped.map Prod.fst ∨ ∃ t, (s.threads t).takes = some p
  once : (s.popped.map Prod.fst).Nodup ∧
    (∀ t t' p, (s.threads t).takes = some p → (s.threads t').takes = some p → t = t') ∧
    ∀ t p, (s.threads t).takes = some p → p ∉ s.popped.map Prod.fst
  /-- Before a slot is written to, all its earlier values have been copied out. -/
  notOverwritten : ∀ t item pos, s.threads t = .pushWrite item pos →
    ∀ q < pos, q % c = pos % c → q ∈ s.copied
  atMost : s.tail ≤ s.head ∧ s.head ≤ s.tail + c

/-- The steps of one thread inside a call. -/
def Own (t : Nat) (_ : State T) (e : Event T) : Prop := e = .internal t

/-- A call that runs alone comes to its end, and what it does then. -/
structure Sequential (c : Nat) (s : State T) : Prop where
  push : ∀ t item es mid result fin,
    Run (Guarded (Step c) (Own t)) (s.goto t (.pushLoad item)) es mid →
    Step c mid (.returnPush t result) fin →
    (result = false ↔ s.contents.length = c) ∧
      fin.contents = if result then s.contents ++ [item] else s.contents
  push_returns : ∀ t item, ∃ es mid result fin,
    Run (Guarded (Step c) (Own t)) (s.goto t (.pushLoad item)) es mid ∧
    Step c mid (.returnPush t result) fin
  pop : ∀ t es mid result fin,
    Run (Guarded (Step c) (Own t)) (s.goto t .popLoad) es mid →
    Step c mid (.returnPop t result) fin →
    (result = none ↔ s.contents = []) ∧ result = s.contents.head? ∧
      fin.contents = s.contents.tail
  pop_returns : ∀ t, ∃ es mid result fin,
    Run (Guarded (Step c) (Own t)) (s.goto t .popLoad) es mid ∧
    Step c mid (.returnPop t result) fin

/-- In every run the queue is a FIFO with at most `c` values, and where no other call is under way
a push fails exactly if it is full and a pop exactly if it is empty. -/
def Refines (zero : T) (c : Nat) : Prop :=
  ∀ es s, Run (Guarded (Step c) Bounded) (State.initial zero) es s →
    Fifo c s ∧ ((∀ t, s.threads t = .idle) → Sequential c s)

/-! ## The invariant -/

/-- The slot `i` is at position `p`: all earlier values have been popped, and the slot is free for
the push at `p` or has its value. -/
structure SlotAt (c : Nat) (s : State T) (i p : Nat) : Prop where
  slot : p % c = i
  head_le : s.head ≤ p + c
  earlier : ∀ q < p, q % c = i → q ∈ s.popped.map Prod.fst
  state : (s.sequences i = p ∧ s.tail ≤ p ∧ p < s.tail + c ∧
      (p < s.head → ∃ t, (s.threads t).fills = some p)) ∨
    (s.sequences i = p + 1 ∧ p < s.head ∧ s.pushed[p]? = some (s.values i) ∧
      (p < s.tail → ∃ t, (s.threads t).takes = some p))

/-- What a thread knows where it is. -/
def ThreadOk (c : Nat) (s : State T) : Control T → Prop
  | .idle => True
  | .pushLoad _ => True
  | .pushSequence _ pos => pos ≤ s.head
  | .pushExchange _ pos => pos ≤ s.head ∧ (s.head = pos → s.sequences (pos % c) = pos)
  | .pushWrite item pos => pos < s.head ∧ s.sequences (pos % c) = pos ∧ s.pushed[pos]? = some item
  | .pushPublish pos => pos < s.head ∧ s.sequences (pos % c) = pos ∧
      s.pushed[pos]? = some (s.values (pos % c))
  | .popLoad => True
  | .popSequence pos => pos ≤ s.tail
  | .popExchange pos => pos ≤ s.tail ∧ (s.tail = pos → s.sequences (pos % c) = pos + 1)
  | .popCopy pos => pos < s.tail ∧ s.sequences (pos % c) = pos + 1
  | .popRelease pos item => pos < s.tail ∧ s.sequences (pos % c) = pos + 1 ∧
      s.pushed[pos]? = some item ∧ pos ∈ s.copied

structure Inv (c : Nat) (s : State T) : Prop where
  pushed : s.pushed.length = s.head
  tail_le : s.tail ≤ s.head
  head_le : s.head ≤ s.tail + c
  slot : ∀ i < c, ∃ p, SlotAt c s i p
  thread : ∀ t, ThreadOk c s (s.threads t)
  fills_inj : ∀ t t' p, (s.threads t).fills = some p → (s.threads t').fills = some p → t = t'
  takes_inj : ∀ t t' p, (s.threads t).takes = some p → (s.threads t').takes = some p → t = t'
  popped : ∀ r ∈ s.popped, r.1 < s.tail ∧ s.pushed[r.1]? = some r.2 ∧ r.1 ∈ s.copied
  not_popped : ∀ t p, (s.threads t).takes = some p → p ∉ s.popped.map Prod.fst
  once : (s.popped.map Prod.fst).Nodup
  claimed : ∀ p < s.tail, p ∈ s.popped.map Prod.fst ∨ ∃ t, (s.threads t).takes = some p

/-! ### Slots and positions -/

section Positions

variable {c p q : Nat}

/-- Adjacent positions have different slots, if there is more than one. -/
theorem succ_mod_ne (hc : 2 ≤ c) : (p + 1) % c ≠ p % c := by
  intro hEq
  have hDvd : c ∣ p + 1 - p := (Nat.modEq_iff_dvd' (Nat.le_succ p)).mp hEq.symm
  rw [Nat.add_sub_cancel_left] at hDvd
  have hLe := Nat.le_of_dvd Nat.one_pos hDvd
  omega

/-- Different positions of a slot are at least a round apart. -/
theorem le_of_mod_eq (hMod : q % c = p % c) (hlt : q < p + c) : q ≤ p := by
  by_contra hgt
  have hDvd : c ∣ q - p := (Nat.modEq_iff_dvd' (Nat.le_of_lt (not_le.mp hgt))).mp hMod.symm
  have hLe := Nat.le_of_dvd (by omega) hDvd
  omega

/-- The difference of numbers that are less than 2^63 apart. -/
theorem difference_eq {sequence pos : Nat} (hLow : pos ≤ sequence + 2 ^ 63)
    (hHigh : sequence < pos + 2 ^ 63) : difference sequence pos = (sequence : Int) - pos :=
  Int.bmod_eq_of_le (by omega) (by omega)

theorem eq_of_difference {sequence pos : Nat} (hSequence : sequence < 2 ^ 64) (hPos : pos < 2 ^ 64)
    (h : difference sequence pos = 0) : sequence = pos := by
  have hDvd : ((2 ^ 64 : Nat) : Int) ∣ (sequence : Int) - pos := Int.dvd_of_bmod_eq_zero h
  omega

end Positions

namespace SlotAt

variable {c p pos i : Nat} {s : State T}

/-- The sequence number of a position is the one of a free slot. -/
theorem free (h : SlotAt c s (pos % c) p) (hc : 2 ≤ c) (hSequence : s.sequences (pos % c) = pos) :
    p = pos ∧ s.tail ≤ pos ∧ pos < s.tail + c ∧
      (pos < s.head → ∃ t, (s.threads t).fills = some pos) := by
  rcases h.state with ⟨hEq, hRest⟩ | ⟨hEq, -⟩
  · obtain rfl : p = pos := hEq.symm.trans hSequence
    exact ⟨rfl, hRest⟩
  · obtain rfl : p + 1 = pos := hEq.symm.trans hSequence
    exact absurd h.slot.symm (succ_mod_ne hc)

/-- One more than a position is the sequence number of a slot with a value. -/
theorem ready (h : SlotAt c s (pos % c) p) (hc : 2 ≤ c)
    (hSequence : s.sequences (pos % c) = pos + 1) :
    p = pos ∧ pos < s.head ∧ s.pushed[pos]? = some (s.values (pos % c)) ∧
      (pos < s.tail → ∃ t, (s.threads t).takes = some pos) := by
  rcases h.state with ⟨hEq, -⟩ | ⟨hEq, hRest⟩
  · obtain rfl : p = pos + 1 := hEq.symm.trans hSequence
    exact absurd h.slot (succ_mod_ne hc)
  · obtain rfl : p = pos := Nat.succ.inj (hEq.symm.trans hSequence)
    exact ⟨rfl, hRest⟩

end SlotAt

/-- What a thread knows stays true if the counters and logs only grow and the slot it is at
stays as it is. -/
theorem ThreadOk.mono {c : Nat} {s s' : State T} {control : Control T} (h : ThreadOk c s control)
    (hHead : s.head ≤ s'.head) (hTail : s.tail ≤ s'.tail)
    (hPushed : ∀ (j : Nat) (v : T), s.pushed[j]? = some v → s'.pushed[j]? = some v)
    (hCopied : ∀ j ∈ s.copied, j ∈ s'.copied)
    (hFree : ∀ item pos, control = .pushExchange item pos → s.head = pos →
      s.sequences (pos % c) = pos → s'.sequences (pos % c) = pos)
    (hFills : ∀ pos, control.fills = some pos →
      s'.sequences (pos % c) = s.sequences (pos % c) ∧ s'.values (pos % c) = s.values (pos % c))
    (hReady : ∀ pos, control = .popExchange pos → s.tail = pos →
      s.sequences (pos % c) = pos + 1 → s'.sequences (pos % c) = pos + 1)
    (hTakes : ∀ pos, control.takes = some pos →
      s'.sequences (pos % c) = s.sequences (pos % c)) : ThreadOk c s' control := by
  cases control with
  | idle => trivial
  | pushLoad item => trivial
  | popLoad => trivial
  | pushSequence item pos => exact Nat.le_trans h hHead
  | pushExchange item pos =>
      refine ⟨Nat.le_trans h.1 hHead, fun hEq => ?_⟩
      have hLe := h.1
      have hSame : s.head = pos := by omega
      exact hFree item pos rfl hSame (h.2 hSame)
  | pushWrite item pos =>
      obtain ⟨hlt, hSequence, hItem⟩ := h
      exact ⟨Nat.lt_of_lt_of_le hlt hHead, (hFills pos rfl).1.trans hSequence, hPushed _ _ hItem⟩
  | pushPublish pos =>
      obtain ⟨hlt, hSequence, hItem⟩ := h
      obtain ⟨hSame, hValue⟩ := hFills pos rfl
      refine ⟨Nat.lt_of_lt_of_le hlt hHead, hSame.trans hSequence, ?_⟩
      rw [hValue]
      exact hPushed _ _ hItem
  | popSequence pos => exact Nat.le_trans h hTail
  | popExchange pos =>
      refine ⟨Nat.le_trans h.1 hTail, fun hEq => ?_⟩
      have hLe := h.1
      have hSame : s.tail = pos := by omega
      exact hReady pos rfl hSame (h.2 hSame)
  | popCopy pos => exact ⟨Nat.lt_of_lt_of_le h.1 hTail, (hTakes pos rfl).trans h.2⟩
  | popRelease pos item =>
      obtain ⟨hlt, hSequence, hItem, hMem⟩ := h
      exact ⟨Nat.lt_of_lt_of_le hlt hTail, (hTakes pos rfl).trans hSequence, hPushed _ _ hItem,
        hCopied _ hMem⟩

namespace Inv

variable {c t pos : Nat} {s : State T} {item : T}

theorem initial (zero : T) : Inv c (State.initial zero) where
  pushed := rfl
  tail_le := Nat.le_refl 0
  head_le := Nat.zero_le _
  slot := by
    intro i hi
    refine ⟨i, Nat.mod_eq_of_lt hi, Nat.zero_le _, fun q hq hMod => ?_,
      Or.inl ⟨rfl, Nat.zero_le i, ?_, ?_⟩⟩
    · rw [Nat.mod_eq_of_lt (hq.trans hi)] at hMod
      omega
    · rw [State.initial, Nat.zero_add]
      exact hi
    · exact fun h => absurd h (Nat.not_lt_zero i)
  thread := fun _ => trivial
  fills_inj := by simp [State.initial, Control.fills]
  takes_inj := by simp [State.initial, Control.takes]
  popped := by simp [State.initial]
  not_popped := by simp [State.initial]
  once := List.nodup_nil
  claimed := by simp [State.initial]

/-- What a sequence number can be. -/
theorem sequence_le (h : Inv c s) {i : Nat} (hi : i < c) : s.sequences i ≤ s.tail + c := by
  obtain ⟨p, hp⟩ := h.slot i hi
  have hHead := h.head_le
  rcases hp.state with ⟨hEq, -, hlt, -⟩ | ⟨hEq, hlt, -⟩
  · omega
  · omega

/-- A thread that has not been given a position to take. -/
theorem not_popped_kept (h : Inv c s) {control : Control T}
    (hSame : control.takes = (s.threads t).takes) (t' p : Nat)
    (hp : (Function.update s.threads t control t').takes = some p) :
    p ∉ s.popped.map Prod.fst := by
  rcases of_update hp with ⟨-, hNew⟩ | ⟨-, hOld⟩
  · exact h.not_popped t p (hSame ▸ hNew)
  · exact h.not_popped t' p hOld

/-- The others know what they knew, and the thread that moves knows what it has to. -/
theorem threads_update {s' : State T} {control : Control T}
    (hNew : ThreadOk c s' control)
    (hOther : ∀ t', t' ≠ t → ThreadOk c s (s.threads t') → ThreadOk c s' (s.threads t'))
    (h : Inv c s) (t' : Nat) : ThreadOk c s' (Function.update s.threads t control t') := by
  by_cases hEq : t' = t
  · subst hEq
    rw [Function.update_self]
    exact hNew
  · rw [Function.update_of_ne hEq]
    exact hOther t' hEq (h.thread t')

/-- A thread without a claim goes on to another place without one. -/
theorem goto (h : Inv c s) {control : Control T} (hFills : (s.threads t).fills = none)
    (hTakes : (s.threads t).takes = none) (hFills' : control.fills = none)
    (hTakes' : control.takes = none) (hOk : ThreadOk c s control) : Inv c (s.goto t control) := by
  have hSameFills : control.fills = (s.threads t).fills := hFills'.trans hFills.symm
  have hSameTakes : control.takes = (s.threads t).takes := hTakes'.trans hTakes.symm
  refine ⟨h.pushed, h.tail_le, h.head_le, fun i hi => ?_,
    threads_update hOk (fun _ _ hOld => hOld) h, inj_kept h.fills_inj hSameFills,
    inj_kept h.takes_inj hSameTakes, h.popped, h.not_popped_kept hSameTakes, h.once,
    fun p hp => (h.claimed p hp).imp_right (exists_kept hSameTakes)⟩
  obtain ⟨p, hp⟩ := h.slot i hi
  refine ⟨p, hp.slot, hp.head_le, hp.earlier, ?_⟩
  rcases hp.state with ⟨hEq, hTail, hlt, hOwner⟩ | ⟨hEq, hlt, hValue, hOwner⟩
  · exact Or.inl ⟨hEq, hTail, hlt, fun hHead => exists_kept hSameFills (hOwner hHead)⟩
  · exact Or.inr ⟨hEq, hlt, hValue, fun hTail => exists_kept hSameTakes (hOwner hTail)⟩

/-- The claims that threads have. -/
theorem fills_lt (h : Inv c s) {p : Nat} (hFills : (s.threads t).fills = some p) :
    p < s.head ∧ s.sequences (p % c) = p := by
  have hOk := h.thread t
  cases hAt : s.threads t with
  | pushWrite item pos =>
      rw [hAt] at hOk hFills
      obtain rfl : pos = p := Option.some.inj hFills
      exact ⟨hOk.1, hOk.2.1⟩
  | pushPublish pos =>
      rw [hAt] at hOk hFills
      obtain rfl : pos = p := Option.some.inj hFills
      exact ⟨hOk.1, hOk.2.1⟩
  | _ =>
      rw [hAt] at hFills
      cases hFills

theorem takes_lt (h : Inv c s) {p : Nat} (hTakes : (s.threads t).takes = some p) :
    p < s.tail ∧ s.sequences (p % c) = p + 1 := by
  have hOk := h.thread t
  cases hAt : s.threads t with
  | popCopy pos =>
      rw [hAt] at hOk hTakes
      obtain rfl : pos = p := Option.some.inj hTakes
      exact hOk
  | popRelease pos item =>
      rw [hAt] at hOk hTakes
      obtain rfl : pos = p := Option.some.inj hTakes
      exact ⟨hOk.1, hOk.2.1⟩
  | _ =>
      rw [hAt] at hTakes
      cases hTakes

/-- A push claims its position. -/
theorem claimHead (h : Inv c s) (hc : 2 ≤ c) (hAt : s.threads t = .pushExchange item pos)
    (hHead : s.head = pos) : Inv c (s.claimHead t item pos) := by
  subst hHead
  have hFills : (s.threads t).fills = none := by rw [hAt]; rfl
  have hTakes : (s.threads t).takes = none := by rw [hAt]; rfl
  have hOk := h.thread t
  rw [hAt] at hOk
  have hSequence : s.sequences (s.head % c) = s.head := hOk.2 rfl
  have hPushed := h.pushed
  obtain ⟨p₀, hp₀⟩ := h.slot (s.head % c) (Nat.mod_lt _ (by omega))
  obtain ⟨rfl, hTail, hRoom, -⟩ := hp₀.free hc hSequence
  have hAppend {j : Nat} {v : T} (hj : s.pushed[j]? = some v) :
      (s.pushed ++ [item])[j]? = some v := by
    rw [List.getElem?_append_left (List.getElem?_eq_some_iff.mp hj).1]
    exact hj
  refine ⟨?_, Nat.le_succ_of_le h.tail_le, hRoom, fun i hi => ?_, threads_update ?_ ?_ h,
    inj_update h.fills_inj ?_, inj_kept h.takes_inj hTakes.symm, ?_,
    h.not_popped_kept hTakes.symm, h.once,
    fun p hp => (h.claimed p hp).imp_right (exists_kept hTakes.symm)⟩
  · show (s.pushed ++ [item]).length = s.head + 1
    rw [List.length_append, List.length_singleton, h.pushed]
  · obtain ⟨p, hp⟩ := h.slot i hi
    have hLe := hp.head_le
    have hne : s.head ≠ p + c := by
      intro hEq
      have hSame : s.head % c = i := by rw [hEq, Nat.add_mod_right, hp.slot]
      subst hSame
      have hFree := (hp.free hc hSequence).1
      omega
    refine ⟨p, hp.slot, show s.head + 1 ≤ p + c by omega, hp.earlier, ?_⟩
    rcases hp.state with ⟨hEq, hLow, hHigh, hOwner⟩ | ⟨hEq, hlt, hValue, hOwner⟩
    · refine Or.inl ⟨hEq, hLow, hHigh, fun hBelow => ?_⟩
      rcases Nat.lt_succ_iff_lt_or_eq.mp hBelow with hOld | rfl
      · exact exists_update (hOwner hOld) (by rw [hFills]; exact nofun)
      · refine ⟨t, ?_⟩
        show (Function.update s.threads t (.pushWrite item s.head) t).fills = some s.head
        rw [Function.update_self]
        rfl
    · refine Or.inr ⟨hEq, Nat.lt_succ_of_lt hlt, hAppend hValue, fun hBelow => ?_⟩
      exact exists_kept hTakes.symm (hOwner hBelow)
  · refine ⟨Nat.lt_succ_self _, hSequence, ?_⟩
    show (s.pushed ++ [item])[s.head]? = some item
    rw [← h.pushed, List.getElem?_concat_length]
  · intro t' _ hOld
    exact hOld.mono (Nat.le_succ _) (Nat.le_refl _) (fun _ _ => hAppend) (fun _ hj => hj)
      (fun _ _ _ _ hEq => hEq) (fun _ _ => ⟨rfl, rfl⟩) (fun _ _ _ hEq => hEq) (fun _ _ => rfl)
  · intro b hb t' ht'
    obtain rfl : s.head = b := Option.some.inj hb
    exact absurd (h.fills_lt ht').1 (Nat.lt_irrefl _)
  · intro r hr
    obtain ⟨hlt, hValue, hCopied⟩ := h.popped r hr
    exact ⟨hlt, hAppend hValue, hCopied⟩

/-- The item is written to the slot of the position. -/
theorem write (h : Inv c s) (hc : 2 ≤ c) (hAt : s.threads t = .pushWrite item pos) :
    Inv c (s.write c t item pos) := by
  have hFills : (s.threads t).fills = some pos := by rw [hAt]; rfl
  have hTakes : (s.threads t).takes = none := by rw [hAt]; rfl
  have hOk := h.thread t
  rw [hAt] at hOk
  obtain ⟨hlt, hSequence, hItem⟩ := hOk
  refine ⟨h.pushed, h.tail_le, h.head_le, fun i hi => ?_, threads_update ?_ ?_ h,
    inj_kept h.fills_inj hFills.symm, inj_kept h.takes_inj hTakes.symm, h.popped,
    h.not_popped_kept hTakes.symm, h.once,
    fun p hp => (h.claimed p hp).imp_right (exists_kept hTakes.symm)⟩
  · obtain ⟨p, hp⟩ := h.slot i hi
    refine ⟨p, hp.slot, hp.head_le, hp.earlier, ?_⟩
    rcases hp.state with ⟨hEq, hLow, hHigh, hOwner⟩ | ⟨hEq, hBelow, hValue, hOwner⟩
    · exact Or.inl ⟨hEq, hLow, hHigh, fun hHead => exists_kept hFills.symm (hOwner hHead)⟩
    · refine Or.inr ⟨hEq, hBelow, ?_, fun hTail => ?_⟩
      · -- the slot is free, so this is another one
        have hne : i ≠ pos % c := by
          rintro rfl
          have hFree := (hp.free hc hSequence).1
          omega
        show s.pushed[p]? = some (Function.update s.values (pos % c) item i)
        rw [Function.update_of_ne hne]
        exact hValue
      · exact exists_kept hTakes.symm (hOwner hTail)
  · refine ⟨hlt, hSequence, ?_⟩
    show s.pushed[pos]? = some (Function.update s.values (pos % c) item (pos % c))
    rw [Function.update_self]
    exact hItem
  · intro t' hne hOld
    refine hOld.mono (Nat.le_refl _) (Nat.le_refl _) (fun _ _ hj => hj) (fun _ hj => hj)
      (fun _ _ _ _ hEq => hEq) (fun pos' hFills' => ⟨rfl, ?_⟩) (fun _ _ _ hEq => hEq)
      (fun _ _ => rfl)
    refine Function.update_of_ne ?_ _ _
    intro hSlot
    have hSequence' := (h.fills_lt hFills').2
    rw [hSlot, hSequence] at hSequence'
    exact hne (h.fills_inj t' t pos (hSequence' ▸ hFills') hFills)

/-- The sequence number says that the value is there. -/
theorem publish (h : Inv c s) (hc : 2 ≤ c) (hAt : s.threads t = .pushPublish pos) :
    Inv c (s.publish c t pos) := by
  have hFills : (s.threads t).fills = some pos := by rw [hAt]; rfl
  have hTakes : (s.threads t).takes = none := by rw [hAt]; rfl
  have hOk := h.thread t
  rw [hAt] at hOk
  obtain ⟨hlt, hSequence, hValue⟩ := hOk
  obtain ⟨p₀, hp₀⟩ := h.slot (pos % c) (Nat.mod_lt _ (by omega))
  obtain ⟨rfl, hTail, -, -⟩ := hp₀.free hc hSequence
  refine ⟨h.pushed, h.tail_le, h.head_le, fun i hi => ?_, threads_update trivial ?_ h,
    inj_update h.fills_inj nofun, inj_kept h.takes_inj hTakes.symm, h.popped,
    h.not_popped_kept hTakes.symm, h.once,
    fun p hp => (h.claimed p hp).imp_right (exists_kept hTakes.symm)⟩
  · by_cases hSlot : i = p₀ % c
    · subst hSlot
      refine ⟨p₀, rfl, hp₀.head_le, hp₀.earlier, Or.inr ⟨?_, hlt, hValue, fun hBelow => ?_⟩⟩
      · exact Function.update_self ..
      · exact absurd hBelow (Nat.not_lt.mpr hTail)
    · obtain ⟨p, hp⟩ := h.slot i hi
      have hSame : Function.update s.sequences (p₀ % c) (p₀ + 1) i = s.sequences i :=
        Function.update_of_ne hSlot _ _
      refine ⟨p, hp.slot, hp.head_le, hp.earlier, ?_⟩
      rcases hp.state with ⟨hEq, hLow, hHigh, hOwner⟩ | ⟨hEq, hBelow, hItem, hOwner⟩
      · refine Or.inl ⟨hSame.trans hEq, hLow, hHigh, fun hHead => ?_⟩
        refine exists_update (hOwner hHead) ?_
        rw [hFills]
        intro hPos
        obtain rfl : p₀ = p := Option.some.inj hPos
        exact hSlot hp.slot.symm
      · refine Or.inr ⟨hSame.trans hEq, hBelow, hItem, fun hBelow => ?_⟩
        exact exists_kept hTakes.symm (hOwner hBelow)
  · intro t' hne hOld
    refine hOld.mono (Nat.le_refl _) (Nat.le_refl _) (fun _ _ hj => hj) (fun _ hj => hj)
      (fun _ pos' _ hHead hSequence' => ?_) (fun pos' hFills' => ⟨?_, rfl⟩)
      (fun pos' _ _ hSequence' => ?_) (fun pos' hTakes' => ?_)
    · refine (Function.update_of_ne ?_ _ _).trans hSequence'
      intro hSlot
      rw [hSlot, hSequence] at hSequence'
      omega
    · refine Function.update_of_ne ?_ _ _
      intro hSlot
      have hSequence' := (h.fills_lt hFills').2
      rw [hSlot, hSequence] at hSequence'
      exact hne (h.fills_inj t' t p₀ (hSequence' ▸ hFills') hFills)
    · refine (Function.update_of_ne ?_ _ _).trans hSequence'
      intro hSlot
      rw [hSlot, hSequence] at hSequence'
      subst hSequence'
      exact succ_mod_ne hc hSlot.symm
    · refine Function.update_of_ne ?_ _ _
      intro hSlot
      have hSequence' := (h.takes_lt hTakes').2
      rw [hSlot, hSequence] at hSequence'
      subst hSequence'
      exact succ_mod_ne hc hSlot.symm

/-- A pop claims its position. -/
theorem claimTail (h : Inv c s) (hc : 2 ≤ c) (hAt : s.threads t = .popExchange pos)
    (hTail : s.tail = pos) : Inv c (s.claimTail t pos) := by
  subst hTail
  have hFills : (s.threads t).fills = none := by rw [hAt]; rfl
  have hTakes : (s.threads t).takes = none := by rw [hAt]; rfl
  have hOk := h.thread t
  rw [hAt] at hOk
  have hSequence : s.sequences (s.tail % c) = s.tail + 1 := hOk.2 rfl
  obtain ⟨p₀, hp₀⟩ := h.slot (s.tail % c) (Nat.mod_lt _ (by omega))
  obtain ⟨rfl, hlt, -, -⟩ := hp₀.ready hc hSequence
  have hHead := h.head_le
  have hOwns : (Function.update s.threads t (.popCopy s.tail) t).takes = some s.tail := by
    rw [Function.update_self]
    rfl
  refine ⟨h.pushed, hlt, show s.head ≤ s.tail + 1 + c by omega, fun i hi => ?_,
    threads_update ⟨Nat.lt_succ_self _, hSequence⟩ ?_ h, inj_kept h.fills_inj hFills.symm,
    inj_update h.takes_inj ?_, ?_, fun t' p hp => ?_, h.once, fun p hp => ?_⟩
  · obtain ⟨p, hp⟩ := h.slot i hi
    refine ⟨p, hp.slot, hp.head_le, hp.earlier, ?_⟩
    rcases hp.state with ⟨hEq, hLow, hHigh, hOwner⟩ | ⟨hEq, hBelow, hValue, hOwner⟩
    · have hne : s.tail ≠ p := by
        intro hSame
        rw [← hp.slot, ← hSame, hSequence] at hEq
        omega
      refine Or.inl ⟨hEq, show s.tail + 1 ≤ p by omega, show p < s.tail + 1 + c by omega,
        fun hBelow => exists_kept hFills.symm (hOwner hBelow)⟩
    · refine Or.inr ⟨hEq, hBelow, hValue, fun hClaimed => ?_⟩
      rcases Nat.lt_succ_iff_lt_or_eq.mp hClaimed with hOld | rfl
      · exact exists_update (hOwner hOld) (by rw [hTakes]; exact nofun)
      · exact ⟨t, hOwns⟩
  · intro t' _ hOld
    exact hOld.mono (Nat.le_refl _) (Nat.le_succ _) (fun _ _ hj => hj) (fun _ hj => hj)
      (fun _ _ _ _ hEq => hEq) (fun _ _ => ⟨rfl, rfl⟩) (fun _ _ _ hEq => hEq) (fun _ _ => rfl)
  · intro b hb t' ht'
    obtain rfl : s.tail = b := Option.some.inj hb
    exact absurd (h.takes_lt ht').1 (Nat.lt_irrefl _)
  · intro r hr
    obtain ⟨hBelow, hRest⟩ := h.popped r hr
    exact ⟨Nat.lt_succ_of_lt hBelow, hRest⟩
  · rcases of_update hp with ⟨-, hNew⟩ | ⟨-, hOld⟩
    · obtain rfl : s.tail = p := Option.some.inj hNew
      intro hMem
      obtain ⟨r, hr, hEq⟩ := List.mem_map.mp hMem
      have hBelow := (h.popped r hr).1
      omega
    · exact h.not_popped t' p hOld
  · rcases Nat.lt_succ_iff_lt_or_eq.mp hp with hOld | rfl
    · refine (h.claimed p hOld).imp_right fun hOwner => ?_
      exact exists_update hOwner (by rw [hTakes]; exact nofun)
    · exact Or.inr ⟨t, hOwns⟩

/-- The value is copied out. -/
theorem copy (h : Inv c s) (hc : 2 ≤ c) (hAt : s.threads t = .popCopy pos) :
    Inv c (s.copy c t pos) := by
  have hFills : (s.threads t).fills = none := by rw [hAt]; rfl
  have hTakes : (s.threads t).takes = some pos := by rw [hAt]; rfl
  obtain ⟨hlt, hSequence⟩ := h.takes_lt hTakes
  obtain ⟨p₀, hp₀⟩ := h.slot (pos % c) (Nat.mod_lt _ (by omega))
  obtain ⟨rfl, -, hValue, -⟩ := hp₀.ready hc hSequence
  refine ⟨h.pushed, h.tail_le, h.head_le, fun i hi => ?_, threads_update ?_ ?_ h,
    inj_kept h.fills_inj hFills.symm, inj_kept h.takes_inj hTakes.symm, ?_,
    h.not_popped_kept hTakes.symm, h.once,
    fun p hp => (h.claimed p hp).imp_right (exists_kept hTakes.symm)⟩
  · obtain ⟨p, hp⟩ := h.slot i hi
    refine ⟨p, hp.slot, hp.head_le, hp.earlier, ?_⟩
    rcases hp.state with ⟨hEq, hLow, hHigh, hOwner⟩ | ⟨hEq, hBelow, hItem, hOwner⟩
    · exact Or.inl ⟨hEq, hLow, hHigh, fun hBelow => exists_kept hFills.symm (hOwner hBelow)⟩
    · exact Or.inr ⟨hEq, hBelow, hItem, fun hBelow => exists_kept hTakes.symm (hOwner hBelow)⟩
  · exact ⟨hlt, hSequence, hValue, List.mem_append_right _ (List.mem_singleton_self _)⟩
  · intro t' _ hOld
    exact hOld.mono (Nat.le_refl _) (Nat.le_refl _) (fun _ _ hj => hj)
      (fun _ hj => List.mem_append_left _ hj) (fun _ _ _ _ hEq => hEq) (fun _ _ => ⟨rfl, rfl⟩)
      (fun _ _ _ hEq => hEq) (fun _ _ => rfl)
  · intro r hr
    obtain ⟨hBelow, hItem, hCopied⟩ := h.popped r hr
    exact ⟨hBelow, hItem, List.mem_append_left _ hCopied⟩

/-- The slot is free for the next round, and no other one changes. -/
theorem slot_release (h : Inv c s) (hc : 2 ≤ c) (hAt : s.threads t = .popRelease pos item)
    {i : Nat} (hi : i < c) : ∃ p, SlotAt c (s.release c t pos item) i p := by
  have hFills : (s.threads t).fills = none := by rw [hAt]; rfl
  have hTakes : (s.threads t).takes = some pos := by rw [hAt]; rfl
  obtain ⟨hlt, hSequence⟩ := h.takes_lt hTakes
  obtain ⟨p₀, hp₀⟩ := h.slot (pos % c) (Nat.mod_lt _ (by omega))
  obtain ⟨rfl, -, -, -⟩ := hp₀.ready hc hSequence
  have hPopped : (s.popped ++ [(p₀, item)]).map Prod.fst = s.popped.map Prod.fst ++ [p₀] :=
    List.map_append
  by_cases hSlot : i = p₀ % c
  · subst hSlot
    have hRound := hp₀.head_le
    have hTailLe := h.tail_le
    refine ⟨p₀ + c, Nat.add_mod_right .., show s.head ≤ p₀ + c + c by omega,
      fun q hq hMod => ?_, Or.inl ⟨Function.update_self .., show s.tail ≤ p₀ + c by omega,
        show p₀ + c < s.tail + c by omega, fun (hBelow : p₀ + c < s.head) => ?_⟩⟩
    · show q ∈ (s.popped ++ [(p₀, item)]).map Prod.fst
      rw [hPopped]
      rcases Nat.lt_or_eq_of_le (le_of_mod_eq hMod hq) with hEarlier | rfl
      · exact List.mem_append_left _ (hp₀.earlier q hEarlier hMod)
      · exact List.mem_append_right _ (List.mem_singleton_self _)
    · omega
  · obtain ⟨p, hp⟩ := h.slot i hi
    have hSame : Function.update s.sequences (p₀ % c) (p₀ + c) i = s.sequences i :=
      Function.update_of_ne hSlot _ _
    refine ⟨p, hp.slot, hp.head_le, fun q hq hMod => ?_, ?_⟩
    · show q ∈ (s.popped ++ [(p₀, item)]).map Prod.fst
      rw [hPopped]
      exact List.mem_append_left _ (hp.earlier q hq hMod)
    rcases hp.state with ⟨hEq, hLow, hHigh, hOwner⟩ | ⟨hEq, hBelow, hValue, hOwner⟩
    · refine Or.inl ⟨hSame.trans hEq, hLow, hHigh, fun hBelow => ?_⟩
      exact exists_kept hFills.symm (hOwner hBelow)
    · refine Or.inr ⟨hSame.trans hEq, hBelow, hValue, fun hBelow => ?_⟩
      refine exists_update (hOwner hBelow) ?_
      rw [hTakes]
      intro hPos
      obtain rfl : p₀ = p := Option.some.inj hPos
      exact hSlot hp.slot.symm

/-- No other thread has the slot. -/
theorem thread_release (h : Inv c s) (hc : 2 ≤ c) (hAt : s.threads t = .popRelease pos item)
    (t' : Nat) (hne : t' ≠ t) (hOld : ThreadOk c s (s.threads t')) :
    ThreadOk c (s.release c t pos item) (s.threads t') := by
  have hTakes : (s.threads t).takes = some pos := by rw [hAt]; rfl
  obtain ⟨hlt, hSequence⟩ := h.takes_lt hTakes
  refine hOld.mono (Nat.le_refl _) (Nat.le_refl _) (fun _ _ hj => hj) (fun _ hj => hj)
    (fun _ pos' _ _ hSequence' => ?_) (fun pos' hFills' => ⟨?_, rfl⟩)
    (fun pos' _ hTail hSequence' => ?_) (fun pos' hTakes' => ?_)
  · refine (Function.update_of_ne ?_ _ _).trans hSequence'
    intro hSlot
    rw [hSlot, hSequence] at hSequence'
    subst hSequence'
    exact succ_mod_ne hc hSlot
  · refine Function.update_of_ne ?_ _ _
    intro hSlot
    have hSequence' := (h.fills_lt hFills').2
    rw [hSlot, hSequence] at hSequence'
    subst hSequence'
    exact succ_mod_ne hc hSlot
  · refine (Function.update_of_ne ?_ _ _).trans hSequence'
    intro hSlot
    rw [hSlot, hSequence] at hSequence'
    omega
  · refine Function.update_of_ne ?_ _ _
    intro hSlot
    have hSequence' := (h.takes_lt hTakes').2
    rw [hSlot, hSequence] at hSequence'
    obtain rfl : pos = pos' := Nat.succ.inj hSequence'
    exact hne (h.takes_inj t' t pos hTakes' hTakes)

/-- A pop has given its slot back. -/
theorem release (h : Inv c s) (hc : 2 ≤ c) (hAt : s.threads t = .popRelease pos item) :
    Inv c (s.release c t pos item) := by
  have hFills : (s.threads t).fills = none := by rw [hAt]; rfl
  have hTakes : (s.threads t).takes = some pos := by rw [hAt]; rfl
  have hOk := h.thread t
  rw [hAt] at hOk
  obtain ⟨hlt, hSequence, hItem, hCopied⟩ := hOk
  have hPopped : (s.popped ++ [(pos, item)]).map Prod.fst = s.popped.map Prod.fst ++ [pos] :=
    List.map_append
  refine ⟨h.pushed, h.tail_le, h.head_le, fun i hi => h.slot_release hc hAt hi,
    threads_update trivial (h.thread_release hc hAt) h, inj_kept h.fills_inj hFills.symm,
    inj_update h.takes_inj nofun, fun r hr => ?_, fun t' p hp => ?_, ?_, fun p hp => ?_⟩
  · rcases List.mem_append.mp hr with hOld | hNew
    · exact h.popped r hOld
    · rw [List.mem_singleton.mp hNew]
      exact ⟨hlt, hItem, hCopied⟩
  · show p ∉ (s.popped ++ [(pos, item)]).map Prod.fst
    rcases of_update hp with ⟨-, hNew⟩ | ⟨hne, hOld⟩
    · cases hNew
    · rw [hPopped]
      intro hIn
      rcases List.mem_append.mp hIn with hMem | hSame
      · exact h.not_popped t' p hOld hMem
      · obtain rfl : p = pos := List.mem_singleton.mp hSame
        exact hne (h.takes_inj t' t p hOld hTakes)
  · show ((s.popped ++ [(pos, item)]).map Prod.fst).Nodup
    rw [hPopped]
    refine h.once.append (List.nodup_singleton _) fun p hp hSame => ?_
    obtain rfl : p = pos := List.mem_singleton.mp hSame
    exact h.not_popped t p hTakes hp
  · show p ∈ (s.popped ++ [(pos, item)]).map Prod.fst ∨ _
    rw [hPopped]
    rcases h.claimed p hp with hMem | hOwner
    · exact Or.inl (List.mem_append_left _ hMem)
    · by_cases hEq : p = pos
      · exact Or.inl (List.mem_append_right _ (List.mem_singleton.mpr hEq))
      · refine Or.inr (exists_update hOwner ?_)
        rw [hTakes]
        exact fun hSame => hEq (Option.some.inj hSame).symm

/-- One step of any thread. -/
theorem step {s' : State T} {e : Event T} (h : Inv c s) (hc : 2 ≤ c) (hSize : c < 2 ^ 16)
    (hBound : s.head < 2 ^ 63) (hStep : Step c s e s') : Inv c s' := by
  have hTail := h.tail_le
  have hSequence (pos : Nat) : s.sequences (pos % c) < 2 ^ 64 := by
    have hLe := h.sequence_le (Nat.mod_lt pos (show 0 < c by omega))
    omega
  cases hStep with
  | callPush item hAt => exact h.goto (by rw [hAt]; rfl) (by rw [hAt]; rfl) rfl rfl trivial
  | loadHead hAt => exact h.goto (by rw [hAt]; rfl) (by rw [hAt]; rfl) rfl rfl (Nat.le_refl _)
  | @pushFree t pos item hAt hDifference =>
      have hOk := h.thread t
      rw [hAt] at hOk
      have hLe : pos ≤ s.head := hOk
      have hEq := eq_of_difference (hSequence pos) (by omega) hDifference
      exact h.goto (by rw [hAt]; rfl) (by rw [hAt]; rfl) rfl rfl ⟨hLe, fun _ => hEq⟩
  | pushFull hAt hDifference =>
      exact h.goto (by rw [hAt]; rfl) (by rw [hAt]; rfl) rfl rfl trivial
  | pushRetry hAt hDifference =>
      exact h.goto (by rw [hAt]; rfl) (by rw [hAt]; rfl) rfl rfl trivial
  | claimHead hAt hHead => exact h.claimHead hc hAt hHead
  | missHead hAt => exact h.goto (by rw [hAt]; rfl) (by rw [hAt]; rfl) rfl rfl (Nat.le_refl _)
  | write hAt => exact h.write hc hAt
  | publish hAt => exact h.publish hc hAt
  | callPop hAt => exact h.goto (by rw [hAt]; rfl) (by rw [hAt]; rfl) rfl rfl trivial
  | loadTail hAt => exact h.goto (by rw [hAt]; rfl) (by rw [hAt]; rfl) rfl rfl (Nat.le_refl _)
  | @popReady t pos hAt hDifference =>
      have hOk := h.thread t
      rw [hAt] at hOk
      have hLe : pos ≤ s.tail := hOk
      have hEq := eq_of_difference (hSequence pos) (by omega) hDifference
      exact h.goto (by rw [hAt]; rfl) (by rw [hAt]; rfl) rfl rfl ⟨hLe, fun _ => hEq⟩
  | popEmpty hAt hDifference =>
      exact h.goto (by rw [hAt]; rfl) (by rw [hAt]; rfl) rfl rfl trivial
  | popRetry hAt hDifference =>
      exact h.goto (by rw [hAt]; rfl) (by rw [hAt]; rfl) rfl rfl trivial
  | claimTail hAt hTail => exact h.claimTail hc hAt hTail
  | missTail hAt => exact h.goto (by rw [hAt]; rfl) (by rw [hAt]; rfl) rfl rfl (Nat.le_refl _)
  | copy hAt => exact h.copy hc hAt
  | release hAt => exact h.release hc hAt

theorem fifo (h : Inv c s) (hc : 2 ≤ c) : Fifo c s where
  pushed := h.pushed
  returned := fun r hr => (h.popped r hr).2.1
  claimed := by
    intro p
    refine ⟨h.claimed p, ?_⟩
    rintro (hPopped | ⟨t, ht⟩)
    · obtain ⟨r, hr, rfl⟩ := List.mem_map.mp hPopped
      exact (h.popped r hr).1
    · exact (h.takes_lt ht).1
  once := ⟨h.once, h.takes_inj, h.not_popped⟩
  notOverwritten := by
    intro t item pos hAt q hq hMod
    have hFills : (s.threads t).fills = some pos := by rw [hAt]; rfl
    obtain ⟨p, hp⟩ := h.slot (pos % c) (Nat.mod_lt _ (by omega))
    obtain ⟨rfl, -⟩ := hp.free hc (h.fills_lt hFills).2
    obtain ⟨r, hr, rfl⟩ := List.mem_map.mp (hp.earlier q hq hMod)
    exact (h.popped r hr).2.2
  atMost := ⟨h.tail_le, h.head_le⟩

end Inv

/-! ## A call that runs alone -/

/-- What a thread inside a call does next. -/
theorem internal_cases {c t : Nat} {s s' : State T} (h : Step c s (.internal t) s') :
    match s.threads t with
    | .pushLoad item => s' = s.goto t (.pushSequence item s.head)
    | .pushSequence item pos =>
        (difference (s.sequences (pos % c)) pos = 0 ∧ s' = s.goto t (.pushExchange item pos)) ∨
        (0 < difference (s.sequences (pos % c)) pos ∧ s' = s.goto t (.pushLoad item))
    | .pushExchange item pos => (s.head = pos ∧ s' = s.claimHead t item pos) ∨
        s' = s.goto t (.pushSequence item s.head)
    | .pushWrite item pos => s' = s.write c t item pos
    | .popLoad => s' = s.goto t (.popSequence s.tail)
    | .popSequence pos =>
        (difference (s.sequences (pos % c)) (pos + 1) = 0 ∧ s' = s.goto t (.popExchange pos)) ∨
        (0 < difference (s.sequences (pos % c)) (pos + 1) ∧ s' = s.goto t .popLoad)
    | .popExchange pos => (s.tail = pos ∧ s' = s.claimTail t pos) ∨
        s' = s.goto t (.popSequence s.tail)
    | .popCopy pos => s' = s.copy c t pos
    | _ => False := by
  cases h with
  | loadHead hAt => rw [hAt]
  | pushFree hAt hDifference => rw [hAt]; exact Or.inl ⟨hDifference, rfl⟩
  | pushRetry hAt hDifference => rw [hAt]; exact Or.inr ⟨hDifference, rfl⟩
  | claimHead hAt hHead => rw [hAt]; exact Or.inl ⟨hHead, rfl⟩
  | missHead hAt => rw [hAt]; exact Or.inr rfl
  | write hAt => rw [hAt]
  | loadTail hAt => rw [hAt]
  | popReady hAt hDifference => rw [hAt]; exact Or.inl ⟨hDifference, rfl⟩
  | popRetry hAt hDifference => rw [hAt]; exact Or.inr ⟨hDifference, rfl⟩
  | claimTail hAt hTail => rw [hAt]; exact Or.inl ⟨hTail, rfl⟩
  | missTail hAt => rw [hAt]; exact Or.inr rfl
  | copy hAt => rw [hAt]

theorem returnPush_cases {c t : Nat} {s s' : State T} {result : Bool}
    (h : Step c s (.returnPush t result) s') :
    match s.threads t with
    | .pushSequence _ pos => result = false ∧ difference (s.sequences (pos % c)) pos < 0 ∧
        s' = s.goto t .idle
    | .pushPublish pos => result = true ∧ s' = s.publish c t pos
    | _ => False := by
  cases h with
  | pushFull hAt hDifference => rw [hAt]; exact ⟨rfl, hDifference, rfl⟩
  | publish hAt => rw [hAt]; exact ⟨rfl, rfl⟩

theorem returnPop_cases {c t : Nat} {s s' : State T} {result : Option T}
    (h : Step c s (.returnPop t result) s') :
    match s.threads t with
    | .popSequence pos => result = none ∧ difference (s.sequences (pos % c)) (pos + 1) < 0 ∧
        s' = s.goto t .idle
    | .popRelease pos item => result = some item ∧ s' = s.release c t pos item
    | _ => False := by
  cases h with
  | popEmpty hAt hDifference => rw [hAt]; exact ⟨rfl, hDifference, rfl⟩
  | release hAt => rw [hAt]; exact ⟨rfl, rfl⟩

namespace Inv

section Quiet

variable {c t : Nat} {s : State T} {item : T} (h : Inv c s) (hc : 2 ≤ c) (hSize : c < 2 ^ 16)
  (hQuiet : ∀ t, s.threads t = .idle)

include h hc hQuiet in
/-- The slot at the head is free, or the queue is full and the slot has its first value. -/
theorem quiet_head : (s.sequences (s.head % c) = s.head ∧ s.head < s.tail + c) ∨
    (s.sequences (s.head % c) + c = s.head + 1 ∧ s.head = s.tail + c) := by
  have hHead := h.head_le
  have hTail := h.tail_le
  obtain ⟨p, hp⟩ := h.slot (s.head % c) (Nat.mod_lt _ (by omega))
  have hRound := hp.head_le
  rcases hp.state with ⟨hEq, hLow, hHigh, hOwner⟩ | ⟨hEq, hlt, -, hOwner⟩
  · have hge : s.head ≤ p := by
      by_contra hBelow
      obtain ⟨t, ht⟩ := hOwner (not_le.mp hBelow)
      rw [hQuiet t] at ht
      cases ht
    have hLe := le_of_mod_eq hp.slot (by omega)
    exact Or.inl ⟨by omega, by omega⟩
  · have hge : s.tail ≤ p := by
      by_contra hBelow
      obtain ⟨t, ht⟩ := hOwner (not_le.mp hBelow)
      rw [hQuiet t] at ht
      cases ht
    have hNext : p + c ≤ s.head := by
      by_contra hBelow
      have hLe := le_of_mod_eq hp.slot.symm (not_le.mp hBelow)
      omega
    exact Or.inr ⟨by omega, by omega⟩

include h hc hQuiet in
/-- The slot at the tail has a value, or the queue is empty. -/
theorem quiet_tail : (s.sequences (s.tail % c) = s.tail + 1 ∧ s.tail < s.head ∧
      s.pushed[s.tail]? = some (s.values (s.tail % c))) ∨
    (s.sequences (s.tail % c) = s.tail ∧ s.tail = s.head) := by
  have hHead := h.head_le
  have hTail := h.tail_le
  obtain ⟨p, hp⟩ := h.slot (s.tail % c) (Nat.mod_lt _ (by omega))
  rcases hp.state with ⟨hEq, hLow, hHigh, hOwner⟩ | ⟨hEq, hlt, hValue, hOwner⟩
  · have hge : s.head ≤ p := by
      by_contra hBelow
      obtain ⟨t, ht⟩ := hOwner (not_le.mp hBelow)
      rw [hQuiet t] at ht
      cases ht
    have hLe := le_of_mod_eq hp.slot hHigh
    exact Or.inr ⟨by omega, by omega⟩
  · have hge : s.tail ≤ p := by
      by_contra hBelow
      obtain ⟨t, ht⟩ := hOwner (not_le.mp hBelow)
      rw [hQuiet t] at ht
      cases ht
    have hLe := le_of_mod_eq hp.slot (by omega)
    obtain rfl : p = s.tail := by omega
    exact Or.inl ⟨hEq, hlt, hValue⟩

include h hc hSize hQuiet in
theorem difference_head : (difference (s.sequences (s.head % c)) s.head = 0 ∧ s.head < s.tail + c) ∨
    (difference (s.sequences (s.head % c)) s.head < 0 ∧ s.head = s.tail + c) := by
  rcases h.quiet_head hc hQuiet with ⟨hEq, hRoom⟩ | ⟨hEq, hFull⟩
  · rw [difference_eq (by omega) (by omega)]
    exact Or.inl ⟨by omega, hRoom⟩
  · rw [difference_eq (by omega) (by omega)]
    exact Or.inr ⟨by omega, hFull⟩

include h hc hQuiet in
theorem difference_tail :
    (difference (s.sequences (s.tail % c)) (s.tail + 1) = 0 ∧ s.tail < s.head) ∨
    (difference (s.sequences (s.tail % c)) (s.tail + 1) < 0 ∧ s.tail = s.head) := by
  have hTail := h.tail_le
  rcases h.quiet_tail hc hQuiet with ⟨hEq, hlt, -⟩ | ⟨hEq, hEmpty⟩
  · rw [difference_eq (by omega) (by omega)]
    exact Or.inl ⟨by omega, hlt⟩
  · rw [difference_eq (by omega) (by omega)]
    exact Or.inr ⟨by omega, hEmpty⟩

end Quiet

end Inv

@[simp] theorem State.goto_threads (s : State T) (t : Nat) (control : Control T) :
    (s.goto t control).threads t = control := Function.update_self ..

@[simp] theorem State.goto_goto (s : State T) (t : Nat) (control control' : Control T) :
    (s.goto t control).goto t control' = s.goto t control' := by
  simp [State.goto]

@[simp] theorem State.goto_head (s : State T) (t : Nat) (control : Control T) :
    (s.goto t control).head = s.head := rfl

@[simp] theorem State.goto_tail (s : State T) (t : Nat) (control : Control T) :
    (s.goto t control).tail = s.tail := rfl

@[simp] theorem State.goto_sequences (s : State T) (t : Nat) (control : Control T) :
    (s.goto t control).sequences = s.sequences := rfl

@[simp] theorem State.goto_claimHead (s : State T) (t pos : Nat) (control : Control T) (item : T) :
    (s.goto t control).claimHead t item pos = s.claimHead t item pos := by
  simp [State.goto, State.claimHead]

@[simp] theorem State.goto_claimTail (s : State T) (t pos : Nat) (control : Control T) :
    (s.goto t control).claimTail t pos = s.claimTail t pos := by
  simp [State.goto, State.claimTail]

@[simp] theorem State.claimHead_threads (s : State T) (t pos : Nat) (item : T) :
    (s.claimHead t item pos).threads t = .pushWrite item pos := Function.update_self ..

@[simp] theorem State.write_threads (c : Nat) (s : State T) (t pos : Nat) (item : T) :
    (s.write c t item pos).threads t = .pushPublish pos := Function.update_self ..

@[simp] theorem State.claimTail_threads (s : State T) (t pos : Nat) :
    (s.claimTail t pos).threads t = .popCopy pos := Function.update_self ..

@[simp] theorem State.copy_threads (c : Nat) (s : State T) (t pos : Nat) :
    (s.copy c t pos).threads t = .popRelease pos (s.values (pos % c)) := Function.update_self ..

/-- Where a push that runs alone can be. -/
inductive Pushing (c : Nat) (s : State T) (t : Nat) (item : T) : State T → Prop where
  | load : Pushing c s t item (s.goto t (.pushLoad item))
  | sequence : Pushing c s t item (s.goto t (.pushSequence item s.head))
  | exchange (hRoom : s.head < s.tail + c) :
      Pushing c s t item (s.goto t (.pushExchange item s.head))
  | write (hRoom : s.head < s.tail + c) : Pushing c s t item (s.claimHead t item s.head)
  | publish (hRoom : s.head < s.tail + c) :
      Pushing c s t item ((s.claimHead t item s.head).write c t item s.head)

/-- Where a pop that runs alone can be. -/
inductive Popping (c : Nat) (s : State T) (t : Nat) : State T → Prop where
  | load : Popping c s t (s.goto t .popLoad)
  | sequence : Popping c s t (s.goto t (.popSequence s.tail))
  | exchange (hSome : s.tail < s.head) : Popping c s t (s.goto t (.popExchange s.tail))
  | copy (hSome : s.tail < s.head) : Popping c s t (s.claimTail t s.tail)
  | release (hSome : s.tail < s.head) : Popping c s t ((s.claimTail t s.tail).copy c t s.tail)

namespace Inv

section Quiet

variable {c t : Nat} {s mid : State T} {item : T} (h : Inv c s) (hc : 2 ≤ c) (hSize : c < 2 ^ 16)
  (hQuiet : ∀ t, s.threads t = .idle)

include h hc hSize hQuiet in
theorem pushing_step {mid' : State T} (hMid : Pushing c s t item mid)
    (hStep : Step c mid (.internal t) mid') : Pushing c s t item mid' := by
  have hCases := internal_cases hStep
  cases hMid with
  | load =>
      obtain rfl : mid' = _ := by simpa using hCases
      exact .sequence
  | sequence =>
      simp only [State.goto_threads, State.goto_sequences, State.goto_goto] at hCases
      rcases hCases with ⟨hZero, rfl⟩ | ⟨-, rfl⟩
      · rcases h.difference_head hc hSize hQuiet with ⟨-, hRoom⟩ | ⟨hNegative, -⟩
        · exact .exchange hRoom
        · omega
      · exact .load
  | exchange hRoom =>
      simp only [State.goto_threads, State.goto_goto, State.goto_head, State.goto_claimHead,
        true_and] at hCases
      rcases hCases with rfl | rfl
      · exact .write hRoom
      · exact .sequence
  | write hRoom =>
      obtain rfl : mid' = _ := by simpa using hCases
      exact .publish hRoom
  | publish hRoom => exact absurd hCases (by simp)

include h hc hQuiet in
theorem popping_step {mid' : State T} (hMid : Popping c s t mid)
    (hStep : Step c mid (.internal t) mid') : Popping c s t mid' := by
  have hCases := internal_cases hStep
  cases hMid with
  | load =>
      obtain rfl : mid' = _ := by simpa using hCases
      exact .sequence
  | sequence =>
      simp only [State.goto_threads, State.goto_sequences, State.goto_goto] at hCases
      rcases hCases with ⟨hZero, rfl⟩ | ⟨-, rfl⟩
      · rcases h.difference_tail hc hQuiet with ⟨-, hSome⟩ | ⟨hNegative, -⟩
        · exact .exchange hSome
        · omega
      · exact .load
  | exchange hSome =>
      simp only [State.goto_threads, State.goto_goto, State.goto_tail, State.goto_claimTail,
        true_and] at hCases
      rcases hCases with rfl | rfl
      · exact .copy hSome
      · exact .sequence
  | copy hSome =>
      obtain rfl : mid' = _ := by simpa using hCases
      exact .release hSome
  | release hSome => exact absurd hCases (by simp)

include h in
theorem contents_length : s.contents.length + s.tail = s.head := by
  have hTail := h.tail_le
  rw [State.contents, List.length_drop, h.pushed]
  omega

include h hc hSize hQuiet in
theorem push_sequential {es : List (Event T)} {result : Bool} {fin : State T}
    (hRun : Run (Guarded (Step c) (Own t)) (s.goto t (.pushLoad item)) es mid)
    (hReturn : Step c mid (.returnPush t result) fin) :
    (result = false ↔ s.contents.length = c) ∧
      fin.contents = if result then s.contents ++ [item] else s.contents := by
  have hMid : Pushing c s t item mid := by
    refine hRun.invariant (P := Pushing c s t item) .load ?_
    rintro e mid fin hMid ⟨rfl, hStep⟩
    exact h.pushing_step hc hSize hQuiet hMid hStep
  have hLength := h.contents_length
  have hCases := returnPush_cases hReturn
  cases hMid with
  | load => exact absurd hCases (by simp)
  | sequence =>
      simp only [State.goto_threads, State.goto_sequences, State.goto_goto] at hCases
      obtain ⟨rfl, hNegative, rfl⟩ := hCases
      rcases h.difference_head hc hSize hQuiet with ⟨hZero, -⟩ | ⟨-, hFull⟩
      · omega
      · refine ⟨iff_of_true rfl (by omega), ?_⟩
        rw [if_neg Bool.false_ne_true]
        rfl
  | exchange hRoom => exact absurd hCases (by simp)
  | write hRoom => exact absurd hCases (by simp)
  | publish hRoom =>
      simp only [State.write_threads] at hCases
      obtain ⟨rfl, rfl⟩ := hCases
      refine ⟨iff_of_false (by decide) (by omega), ?_⟩
      show (s.pushed ++ [item]).drop s.tail = s.pushed.drop s.tail ++ [item]
      have hTail := h.tail_le
      have hPushed := h.pushed
      exact List.drop_append_of_le_length (by omega)

include h hc hQuiet in
theorem pop_sequential {es : List (Event T)} {result : Option T} {fin : State T}
    (hRun : Run (Guarded (Step c) (Own t)) (s.goto t .popLoad) es mid)
    (hReturn : Step c mid (.returnPop t result) fin) :
    (result = none ↔ s.contents = []) ∧ result = s.contents.head? ∧
      fin.contents = s.contents.tail := by
  have hMid : Popping c s t mid := by
    refine hRun.invariant (P := Popping c s t) .load ?_
    rintro e mid fin hMid ⟨rfl, hStep⟩
    exact h.popping_step hc hQuiet hMid hStep
  have hLength := h.contents_length
  have hResult : result = s.contents.head? ∧ fin.contents = s.contents.tail := by
    have hCases := returnPop_cases hReturn
    cases hMid with
    | load => exact absurd hCases (by simp)
    | sequence =>
        simp only [State.goto_threads, State.goto_sequences, State.goto_goto] at hCases
        obtain ⟨rfl, hNegative, rfl⟩ := hCases
        rcases h.difference_tail hc hQuiet with ⟨hZero, -⟩ | ⟨-, hEmpty⟩
        · omega
        · have hNil : s.contents = [] := List.eq_nil_of_length_eq_zero (by omega)
          refine ⟨by rw [hNil]; rfl, ?_⟩
          show s.contents = _
          rw [hNil]
          rfl
    | exchange hSome => exact absurd hCases (by simp)
    | copy hSome => exact absurd hCases (by simp)
    | release hSome =>
        simp only [State.copy_threads] at hCases
        obtain ⟨rfl, rfl⟩ := hCases
        refine ⟨?_, ?_⟩
        · show some (s.values (s.tail % c)) = _
          rw [State.contents, List.head?_drop]
          rcases h.quiet_tail hc hQuiet with ⟨-, -, hValue⟩ | ⟨-, hEmpty⟩
          · exact hValue.symm
          · omega
        · show s.pushed.drop (s.tail + 1) = (s.pushed.drop s.tail).tail
          rw [List.tail_drop]
  refine ⟨?_, hResult⟩
  rw [hResult.1, List.head?_eq_none_iff]

include h hc hSize hQuiet in
theorem push_returns (item : T) : ∃ es mid result fin,
    Run (Guarded (Step c) (Own t)) (s.goto t (.pushLoad item)) es mid ∧
    Step c mid (.returnPush t result) fin := by
  have hLoad : Run (Guarded (Step c) (Own t)) (s.goto t (.pushLoad item)) [.internal t]
      (s.goto t (.pushSequence item s.head)) :=
    Run.single ⟨rfl, by simpa using Step.loadHead (c := c) (s.goto_threads t (.pushLoad item))⟩
  rcases h.difference_head hc hSize hQuiet with ⟨hZero, -⟩ | ⟨hNegative, -⟩
  · have hFree := Step.pushFree (c := c) (s.goto_threads t (.pushSequence item s.head)) hZero
    have hClaim := Step.claimHead (c := c) (s.goto_threads t (.pushExchange item s.head)) rfl
    rw [State.goto_goto] at hFree
    rw [State.goto_claimHead] at hClaim
    have hWrite := Step.write (c := c) (s.claimHead_threads t s.head item)
    have hRun := ((hLoad.snoc ⟨rfl, hFree⟩).snoc ⟨rfl, hClaim⟩).snoc ⟨rfl, hWrite⟩
    exact ⟨_, _, _, _, hRun, Step.publish (State.write_threads ..)⟩
  · exact ⟨_, _, _, _, hLoad, Step.pushFull (s.goto_threads t _) hNegative⟩

include h hc hQuiet in
theorem pop_returns : ∃ es mid result fin,
    Run (Guarded (Step c) (Own t)) (s.goto t .popLoad) es mid ∧
    Step c mid (.returnPop t result) fin := by
  have hLoad : Run (Guarded (Step c) (Own t)) (s.goto t .popLoad) [.internal t]
      (s.goto t (.popSequence s.tail)) :=
    Run.single ⟨rfl, by simpa using Step.loadTail (c := c) (s.goto_threads t .popLoad)⟩
  rcases h.difference_tail hc hQuiet with ⟨hZero, -⟩ | ⟨hNegative, -⟩
  · have hReady := Step.popReady (c := c) (s.goto_threads t (.popSequence s.tail)) hZero
    have hClaim := Step.claimTail (c := c) (s.goto_threads t (.popExchange s.tail)) rfl
    rw [State.goto_goto] at hReady
    rw [State.goto_claimTail] at hClaim
    have hCopy := Step.copy (c := c) (s.claimTail_threads t s.tail)
    have hRun := ((hLoad.snoc ⟨rfl, hReady⟩).snoc ⟨rfl, hClaim⟩).snoc ⟨rfl, hCopy⟩
    exact ⟨_, _, _, _, hRun, Step.release (State.copy_threads ..)⟩
  · exact ⟨_, _, _, _, hLoad, Step.popEmpty (s.goto_threads t _) hNegative⟩

include h hc hSize hQuiet in
theorem sequential : Sequential c s where
  push := fun _ _ _ _ _ _ hRun hReturn =>
    h.push_sequential hc hSize hQuiet hRun hReturn
  push_returns := fun _ item => h.push_returns hc hSize hQuiet item
  pop := fun _ _ _ _ _ hRun hReturn => h.pop_sequential hc hQuiet hRun hReturn
  pop_returns := fun _ => h.pop_returns hc hQuiet

end Quiet

end Inv

/-! ## Every run -/

/-- A push that finds its slot free comes to its claim. -/
theorem claim_run {c t : Nat} {s : State T} (item : T) (hIdle : s.threads t = .idle)
    (hBound : s.head < 2 ^ 63) (hZero : difference (s.sequences (s.head % c)) s.head = 0) :
    Run (Guarded (Step c) Bounded) s [.call t, .internal t, .internal t, .internal t]
      (s.claimHead t item s.head) := by
  have hLoad := Step.loadHead (c := c) (s.goto_threads t (.pushLoad item))
  have hFree := Step.pushFree (c := c) (s.goto_threads t (.pushSequence item s.head)) hZero
  have hClaim := Step.claimHead (c := c) (s.goto_threads t (.pushExchange item s.head)) rfl
  rw [State.goto_goto] at hLoad hFree
  rw [State.goto_claimHead] at hClaim
  have hCalled : Run (Guarded (Step c) Bounded) s [.call t] (s.goto t (.pushLoad item)) :=
    Run.single ⟨hBound, Step.callPush item hIdle⟩
  have hLoaded := hCalled.snoc ⟨hBound, hLoad⟩
  have hFound := hLoaded.snoc ⟨hBound, hFree⟩
  exact hFound.snoc ⟨hBound, hClaim⟩

/-- With one slot, a second push claims the slot while the value of the first one is there. -/
theorem two_pushes (zero item item' : T) : ∃ es s,
    Run (Guarded (Step 1) Bounded) (State.initial zero) es s ∧ s.head = 2 ∧ s.tail = 0 ∧
      s.copied = [] ∧ s.threads 0 = .pushWrite item' 1 := by
  have hFirst := claim_run (c := 1) (t := 0) (s := State.initial zero) item rfl
    (show 0 < 2 ^ 63 by decide) (show difference 0 0 = 0 by decide)
  have hWrite := Step.write (c := 1) ((State.initial zero).claimHead_threads 0 0 item)
  have hPublish := Step.publish (c := 1)
    (((State.initial zero).claimHead 0 item 0).write_threads 1 0 0 item)
  have hPushed := (hFirst.snoc ⟨show 1 < 2 ^ 63 by decide, hWrite⟩).snoc
    ⟨show 1 < 2 ^ 63 by decide, hPublish⟩
  have hSecond := claim_run (c := 1) (t := 0)
    (s := (((State.initial zero).claimHead 0 item 0).write 1 0 item 0).publish 1 0 0) item'
    rfl (show 1 < 2 ^ 63 by decide)
    (by simp [State.publish, State.write, State.claimHead, State.initial, difference])
  exact ⟨_, _, hPushed.append hSecond, rfl, rfl, rfl, State.claimHead_threads ..⟩

theorem not_refines_one (zero : T) : ¬ Refines zero 1 := by
  intro h
  obtain ⟨es, s, hRun, hHead, hTail, -⟩ := two_pushes zero zero zero
  have hAtMost := (h es s hRun).1.atMost.2
  omega

/-- A queue that the constructor accepts refines a bounded FIFO exactly if it has more than
one slot. -/
theorem refines_iff (zero : T) (c : Nat) (hPos : 1 ≤ c) (hSize : c < 2 ^ 16) :
    Refines zero c ↔ 2 ≤ c := by
  constructor
  · intro h
    by_contra hOne
    obtain rfl : c = 1 := by omega
    exact not_refines_one zero h
  · intro hc es s hRun
    have hInv : Inv c s := by
      refine hRun.invariant (P := Inv c) (Inv.initial zero) ?_
      rintro e mid fin hMid ⟨hBound, hStep⟩
      exact hMid.step hc hSize hBound hStep
    exact ⟨hInv.fifo hc, hInv.sequential hc hSize⟩

/-- A queue with 4 slots. -/
theorem refines_four : 1 ≤ 4 ∧ 4 < 2 ^ 16 ∧ Refines (0 : Nat) 4 :=
  ⟨by decide, by decide, (refines_iff 0 4 (by decide) (by decide)).mpr (by decide)⟩

/-- Two values are pushed to a queue with one slot, and the second takes the place of the
first, which nobody has copied out. -/
theorem not_refines_one_slot : ¬ Refines (0 : Nat) 1 ∧ ∃ es s,
    Run (Guarded (Step 1) Bounded) (State.initial (0 : Nat)) es s ∧ s.head = 2 ∧ s.tail = 0 ∧
      s.copied = [] ∧ s.threads 0 = .pushWrite 6 1 :=
  ⟨not_refines_one 0, two_pushes 0 5 6⟩

end MxTasking.Util.BoundMPMCQueue
