import MxTasking.Verified.Counting
import MxTasking.Verified.TransitionSystem
import Mathlib.Data.Nat.Bitwise

/-!
# The reader-writer spinlock

`rw_spinlock.h`: one signed word of 32 bits.  Bit 0 is set while a writer holds the lock, bit 1
while an upgrader does, and each reader adds 4.  A reader adds first and looks afterwards; when it
finds a writer or an upgrader it takes its addition back.  A thread that fails to become the
upgrader cannot take the bit back that it has set: whoever keeps it out clears that bit.

Every atomic access to the word is a step.  The loops of `lock()`, `lock_shared()` and
`lock_upgrade()` are any number of failed tries.

## Main results

* `Inv.step` — the word counts the readers, and the flags are those of the thread that owns it.
* `excludes_iff` — the lock excludes in every run exactly if there are no more than `2 ^ 30`
  threads.
* `available_of_run` — a try succeeds when no other thread stands against it.
-/

namespace MxTasking.Tasking.RWSpinLock

open MxTasking.Verified

/-! ## The program -/

/-- `bits_`. -/
abbrev Bits := BitVec 32

/-- `READER`. -/
def reader : Bits := 4

/-- `UPGRADED`. -/
def upgraded : Bits := 2

/-- `WRITER`. -/
def writer : Bits := 1

/-- Where a thread is. -/
inductive Place where
  | outside
  /-- In `try_lock_shared()`, in front of the subtraction. -/
  | backingOff
  | shared
  | upgrade
  | exclusive
  /-- In `unlock_and_lock_shared()`, in front of `unlock()`. -/
  | downgrading
  /-- In `unlock_and_lock_upgrade()`, in front of the subtraction. -/
  | converting
  deriving DecidableEq, Repr

/-- The atomic accesses. -/
inductive Access where
  | tryLock
  | unlock
  | tryLockShared
  | takeBack
  | unlockShared
  | addReader
  | tryLockUpgrade
  | unlockUpgrade
  | tryUnlockUpgradeAndLock
  | unlockUpgradeAndLockShared
  | setUpgraded
  | subtractWriter
  deriving DecidableEq, Repr

/-- What an access makes of the word, and where the thread is afterwards; `none` for an access
the thread does not make where it is. -/
def Access.perform : Access → Place → Bits → Option (Place × Bits)
  | .tryLock, .outside, bits =>
      some (if bits = 0 then (.exclusive, writer) else (.outside, bits))
  | .unlock, .exclusive, bits => some (.outside, bits &&& ~~~(writer ||| upgraded))
  | .tryLockShared, .outside, bits =>
      some (if bits &&& (writer ||| upgraded) = 0 then .shared else .backingOff, bits + reader)
  | .takeBack, .backingOff, bits => some (.outside, bits - reader)
  | .unlockShared, .shared, bits => some (.outside, bits - reader)
  -- `unlock_and_lock_shared()`
  | .addReader, .exclusive, bits => some (.downgrading, bits + reader)
  | .unlock, .downgrading, bits => some (.shared, bits &&& ~~~(writer ||| upgraded))
  | .tryLockUpgrade, .outside, bits =>
      some (if bits &&& (upgraded ||| writer) = 0 then .upgrade else .outside, bits ||| upgraded)
  | .unlockUpgrade, .upgrade, bits => some (.outside, bits - upgraded)
  | .tryUnlockUpgradeAndLock, .upgrade, bits =>
      some (if bits = upgraded then (.exclusive, writer) else (.upgrade, bits))
  | .unlockUpgradeAndLockShared, .upgrade, bits => some (.shared, bits + (reader - upgraded))
  -- `unlock_and_lock_upgrade()`
  | .setUpgraded, .exclusive, bits => some (.converting, bits ||| upgraded)
  | .subtractWriter, .converting, bits => some (.upgrade, bits - writer)
  | _, _, _ => none

section System

variable {ι : Type*}

/-- The word and the threads. -/
structure State (ι : Type*) where
  bits : Bits
  places : ι → Place

def State.initial : State ι := ⟨0, fun _ => .outside⟩

/-- A thread makes an access. -/
inductive Step [DecidableEq ι] : State ι → ι × Access → State ι → Prop where
  | access {s : State ι} {i : ι} {a : Access} {p : Place} {b : Bits} :
      a.perform (s.places i) s.bits = some (p, b) →
      Step s (i, a) ⟨b, Function.update s.places i p⟩

/-- A writer is alone, and there is one upgrader at most. -/
structure State.Excludes (s : State ι) : Prop where
  writer : ∀ i j, i ≠ j → s.places i = .exclusive →
    s.places j = .outside ∨ s.places j = .backingOff
  upgrader : ∀ i j, s.places i = .upgrade → s.places j = .upgrade → i = j

/-- The access would take the thread to `place`. -/
def State.Reaches (s : State ι) (i : ι) (access : Access) (place : Place) : Prop :=
  ∃ bits, access.perform (s.places i) s.bits = some (place, bits)

/-- Every other thread is outside. -/
def State.Alone (s : State ι) (i : ι) : Prop := ∀ j, j ≠ i → s.places j = .outside

/-- The thread is the writer or the upgrader. -/
def Place.owns : Place → Bool
  | .upgrade | .exclusive | .downgrading | .converting => true
  | _ => false

/-- Nobody is the writer or the upgrader. -/
def State.Unowned (s : State ι) : Prop := ∀ j, (s.places j).owns = false

end System

/-! ## The word -/

/-- `n` readers and the two flags. -/
def word (n : Nat) (upgraded writer : Bool) : Bits :=
  BitVec.ofNat 32 (4 * n + (2 * upgraded.toNat + writer.toNat))

section Word

variable {n : Nat} {u w : Bool}

theorem word_toNat (n : Nat) (u w : Bool) :
    (word n u w).toNat = 4 * (n % 2 ^ 30) + (2 * u.toNat + w.toNat) := by
  have hu := Bool.toNat_le u
  have hw := Bool.toNat_le w
  rw [word, BitVec.toNat_ofNat]
  omega

/-- The two flags of the word. -/
theorem word_flags (n : Nat) (u w : Bool) :
    (word n u w &&& (writer ||| upgraded)).toNat = 2 * u.toNat + w.toNat := by
  have hu := Bool.toNat_le u
  have hw := Bool.toNat_le w
  rw [BitVec.toNat_and, word_toNat]
  show _ &&& (2 ^ 2 - 1) = _
  rw [Nat.and_two_pow_sub_one_eq_mod]
  omega

theorem word_flags_zero : word n u w &&& (writer ||| upgraded) = 0 ↔ u = false ∧ w = false := by
  rw [← BitVec.toNat_inj, word_flags]
  cases u <;> cases w <;> simp

theorem word_add_reader (n : Nat) (u w : Bool) : word n u w + reader = word (n + 1) u w := by
  have hu := Bool.toNat_le u
  have hw := Bool.toNat_le w
  apply BitVec.eq_of_toNat_eq
  rw [BitVec.toNat_add, word_toNat, word_toNat]
  show (_ + 4) % _ = _
  omega

theorem word_sub_reader (n : Nat) (u w : Bool) : word (n + 1) u w - reader = word n u w := by
  rw [← word_add_reader, BitVec.add_sub_cancel]

theorem word_add_upgraded (n : Nat) (w : Bool) : word n false w + upgraded = word n true w := by
  have hw := Bool.toNat_le w
  apply BitVec.eq_of_toNat_eq
  rw [BitVec.toNat_add, word_toNat, word_toNat]
  show (_ + 2) % _ = 4 * (n % 2 ^ 30) + (2 * 1 + w.toNat)
  rw [Bool.toNat_false]
  omega

theorem word_sub_upgraded (n : Nat) (w : Bool) : word n true w - upgraded = word n false w := by
  rw [← word_add_upgraded, BitVec.add_sub_cancel]

theorem word_sub_writer (n : Nat) (u : Bool) : word n u true - writer = word n u false := by
  have hAdd : word n u false + writer = word n u true := by
    have hu := Bool.toNat_le u
    apply BitVec.eq_of_toNat_eq
    rw [BitVec.toNat_add, word_toNat, word_toNat]
    show (_ + 1) % _ = 4 * (n % 2 ^ 30) + (2 * u.toNat + 1)
    rw [Bool.toNat_false]
    omega
  rw [← hAdd, BitVec.add_sub_cancel]

/-- From upgrader to reader. -/
theorem word_upgraded_to_reader (n : Nat) (w : Bool) :
    word n true w + (reader - upgraded) = word (n + 1) false w := by
  rw [BitVec.sub_eq_add_neg, ← BitVec.add_assoc, word_add_reader, ← BitVec.sub_eq_add_neg,
    word_sub_upgraded]

/-- Setting the bit of the upgrader, whether it is set or not. -/
theorem word_or_upgraded (n : Nat) (u w : Bool) : word n u w ||| upgraded = word n true w := by
  have hOr : word n false w ||| upgraded = word n true w := by
    rw [← word_add_upgraded, BitVec.add_eq_or_of_and_eq_zero]
    have hw := Bool.toNat_le w
    apply BitVec.eq_of_toNat_eq
    rw [BitVec.toNat_and, word_toNat, Bool.toNat_false]
    show _ &&& 2 ^ 1 = 0
    rw [Nat.and_two_pow, Nat.testBit_eq_decide_div_mod_eq, decide_eq_false (by omega)]
    rfl
  cases u with
  | false => exact hOr
  | true => rw [← hOr, BitVec.or_assoc, BitVec.or_self]

/-- Clearing both flags. -/
theorem word_clear (n : Nat) (u w : Bool) :
    word n u w &&& ~~~(writer ||| upgraded) = word n false false := by
  have hSplit : (word n u w &&& ~~~(writer ||| upgraded)) +
      (word n u w &&& (writer ||| upgraded)) = word n u w := by
    rw [BitVec.add_eq_or_of_and_eq_zero, ← BitVec.and_or_distrib_left]
    · rw [show ~~~(writer ||| upgraded) ||| (writer ||| upgraded) = BitVec.allOnes 32 from rfl,
        BitVec.and_allOnes]
    · rw [show (word n u w &&& ~~~(writer ||| upgraded)) &&&
          (word n u w &&& (writer ||| upgraded)) =
          (word n u w &&& word n u w) &&& (~~~(writer ||| upgraded) &&& (writer ||| upgraded))
          by ac_rfl,
        show ~~~(writer ||| upgraded) &&& (writer ||| upgraded) = 0 from rfl]
      exact BitVec.and_zero
  have hNat := congrArg BitVec.toNat hSplit
  have hu := Bool.toNat_le u
  have hw := Bool.toNat_le w
  have hLt : (word n u w &&& ~~~(writer ||| upgraded)).toNat < 2 ^ 32 := BitVec.isLt _
  apply BitVec.eq_of_toNat_eq
  rw [BitVec.toNat_add, word_flags, word_toNat] at hNat
  rw [word_toNat, Bool.toNat_false]
  omega

/-- No other word looks like that of a lone upgrader or of a free lock. -/
theorem word_eq_iff {u' w' : Bool} (hn : n < 2 ^ 30) :
    word n u w = word 0 u' w' ↔ n = 0 ∧ u = u' ∧ w = w' := by
  rw [← BitVec.toNat_inj, word_toNat, word_toNat]
  cases u <;> cases w <;> cases u' <;> cases w' <;> simp <;> omega

end Word

/-! ## The invariant -/

namespace Place

/-- The thread has added 4 to the word. -/
def reads : Place → Bool
  | .backingOff | .shared | .downgrading => true
  | _ => false

/-- The thread is the writer. -/
def writes : Place → Bool
  | .exclusive | .downgrading | .converting => true
  | _ => false

/-- The flags while the owner is there, or while nobody owns the lock.  Beside a writer the bit of
the upgrader may be set, by threads that have failed to become the upgrader. -/
def Shows : Place → Bool → Bool → Prop
  | .upgrade, u, w => u = true ∧ w = false
  | .exclusive, _, w => w = true
  | .downgrading, _, w => w = true
  | .converting, u, w => u = true ∧ w = true
  | _, u, w => u = false ∧ w = false

variable {place : Place}

theorem not_writes_of_not_owns (h : place.owns = false) : place.writes = false := by
  revert h
  cases place <;> decide

/-- The owner is seen in the flags. -/
theorem not_owns_of_shows (h : place.Shows false false) : place.owns = false := by
  revert h
  cases place <;> simp [Shows, owns]

theorem eq_outside (hReads : place.reads = false) (hOwns : place.owns = false) :
    place = .outside := by
  revert hReads hOwns
  cases place <;> decide

theorem not_writes_of_shows {u : Bool} (h : place.Shows u false) : place.writes = false := by
  revert h
  cases place <;> simp [Shows, writes]

end Place

section Invariant

variable {ι : Type*} [Fintype ι] {s s' : State ι} {owner : Option ι} {u w : Bool} {i : ι}

/-- The word counts the readers and shows the flags of the owner, and nobody reads beside a
writer. -/
structure Inv (s : State ι) (owner : Option ι) (u w : Bool) : Prop where
  bits : s.bits = word (number Place.reads s.places) u w
  owns : ∀ i, (s.places i).owns = true ↔ owner = some i
  flags : (owner.elim .outside s.places).Shows u w
  apart : ∀ i j, (s.places i).writes = true → s.places j ≠ .shared

namespace Inv

theorem initial : Inv (State.initial : State ι) none false false where
  bits := by
    rw [show number Place.reads (State.initial : State ι).places = 0 from
      number_eq_zero.mpr fun _ => rfl]
    rfl
  owns i := iff_of_false Bool.false_ne_true (Option.some_ne_none i).symm
  flags := ⟨rfl, rfl⟩
  apart _ _ hWrites := absurd hWrites Bool.false_ne_true

theorem not_owns (h : Inv s none u w) (j : ι) : (s.places j).owns = false :=
  Bool.eq_false_iff.mpr fun hOwns => Option.some_ne_none j ((h.owns j).mp hOwns).symm

theorem shows (h : Inv s (some i) u w) : (s.places i).Shows u w := h.flags

/-- Without its flag there is no writer. -/
theorem not_writes (h : Inv s owner u false) (j : ι) : (s.places j).writes = false := by
  rw [Bool.eq_false_iff]
  intro hWrites
  have hOwns : (s.places j).owns = true := by
    by_contra hNot
    rw [Place.not_writes_of_not_owns (Bool.eq_false_iff.mpr hNot)] at hWrites
    exact Bool.false_ne_true hWrites
  obtain rfl := (h.owns j).mp hOwns
  rw [Place.not_writes_of_shows h.shows] at hWrites
  exact Bool.false_ne_true hWrites

/-- Both flags are clear exactly if nobody owns the lock. -/
theorem free_iff (h : Inv s owner u w) : (u = false ∧ w = false) ↔ owner = none := by
  cases owner with
  | none => exact iff_of_true h.flags rfl
  | some j =>
      refine iff_of_false ?_ (Option.some_ne_none j)
      rintro ⟨rfl, rfl⟩
      have hOwns := (h.owns j).mpr rfl
      rw [Place.not_owns_of_shows h.shows] at hOwns
      exact Bool.false_ne_true hOwns

/-- The word without readers shows that nobody reads: 30 bits count all others. -/
theorem no_reader (h : Inv s owner u w) (hFew : Fintype.card ι ≤ 2 ^ 30)
    (hi : (s.places i).reads = false) (u' w' : Bool) (hBits : s.bits = word 0 u' w') :
    u = u' ∧ w = w' ∧ ∀ j, (s.places j).reads = false := by
  rw [h.bits, word_eq_iff (Nat.lt_of_lt_of_le (number_lt hi) hFew)] at hBits
  exact ⟨hBits.2.1, hBits.2.2, number_eq_zero.mp hBits.1⟩

theorem unowned_iff (h : Inv s owner u w) : s.Unowned ↔ owner = none := by
  constructor
  · intro hAll
    rw [Option.eq_none_iff_forall_ne_some]
    intro j hEq
    rw [← h.owns j, hAll j] at hEq
    exact Bool.false_ne_true hEq
  · rintro rfl
    exact h.not_owns

/-- The flags are clear exactly if nobody is the writer or the upgrader. -/
theorem flags_clear_iff (h : Inv s owner u w) :
    s.bits &&& (writer ||| upgraded) = 0 ↔ s.Unowned := by
  rw [h.bits, word_flags_zero, h.free_iff, h.unowned_iff]

/-- The thread at a place that owns the lock is the owner. -/
theorem owner_eq (h : Inv s owner u w) {q : Place} (hPlace : s.places i = q)
    (hOwns : q.owns = true) : owner = some i :=
  (h.owns i).mp (by rw [hPlace]; exact hOwns)

/-- Nobody else owns the lock. -/
theorem eq_owner (h : Inv s (some i) u w) (j : ι) (hOwns : (s.places j).owns = true) : j = i :=
  (Option.some.inj ((h.owns j).mp hOwns)).symm

/-- The word is that of a free lock exactly if the threads are all outside. -/
theorem zero_iff (h : Inv s owner u w) (hFew : Fintype.card ι ≤ 2 ^ 30)
    (hPlace : s.places i = .outside) : s.bits = 0 ↔ s.Alone i := by
  constructor
  · intro hBits j _
    obtain ⟨rfl, rfl, hNone⟩ := h.no_reader hFew (by rw [hPlace]; rfl) false false hBits
    obtain rfl := h.free_iff.mp ⟨rfl, rfl⟩
    exact Place.eq_outside (hNone j) (h.not_owns j)
  · intro hAlone
    have hAll : ∀ j, s.places j = .outside := fun j =>
      (em (j = i)).elim (fun hEq => hEq ▸ hPlace) (hAlone j)
    obtain rfl := h.unowned_iff.mp fun j => by rw [hAll j]; rfl
    obtain ⟨rfl, rfl⟩ := h.free_iff.mpr rfl
    rw [h.bits, number_eq_zero.mpr fun j => by rw [hAll j]; rfl]
    rfl

/-- The word is that of a lone upgrader exactly if the other threads are all outside. -/
theorem upgraded_iff (h : Inv s owner u w) (hFew : Fintype.card ι ≤ 2 ^ 30)
    (hPlace : s.places i = .upgrade) : s.bits = upgraded ↔ s.Alone i := by
  obtain rfl := h.owner_eq hPlace rfl
  constructor
  · intro hBits j hne
    obtain ⟨-, -, hNone⟩ := h.no_reader hFew (by rw [hPlace]; rfl) true false hBits
    exact Place.eq_outside (hNone j)
      (Bool.eq_false_iff.mpr fun hOwns => hne (h.eq_owner j hOwns))
  · intro hAlone
    have hShows := h.shows
    rw [hPlace] at hShows
    obtain ⟨rfl, rfl⟩ := hShows
    rw [h.bits, number_eq_zero.mpr fun j => ?_]
    · rfl
    · by_cases hj : j = i
      · subst hj
        rw [hPlace]
        rfl
      · rw [hAlone j hj]
        rfl

/-- What the invariant says about exclusion. -/
theorem excludes (h : Inv s owner u w) : s.Excludes where
  writer i j hne hi := by
    obtain rfl := h.owner_eq hi rfl
    have hShared := h.apart i j (by rw [hi]; rfl)
    have hOwns : (s.places j).owns = false :=
      Bool.eq_false_iff.mpr fun hOwns => hne (h.eq_owner j hOwns).symm
    revert hShared hOwns
    cases s.places j <;> simp [Place.owns]
  upgrader i j hi hj := by
    obtain rfl := h.owner_eq hi rfl
    exact (h.eq_owner j (by rw [hj]; rfl)).symm

variable [DecidableEq ι]

/-- One thread moves on. -/
theorem move (h : Inv s owner u w) {place : Place} {bits : Bits} {owner' : Option ι} {u' w' : Bool}
    (hBits : bits = word (number Place.reads (Function.update s.places i place)) u' w')
    (hOwns : ∀ j, (Function.update s.places i place j).owns = true ↔ owner' = some j)
    (hFlags : (owner'.elim .outside (Function.update s.places i place)).Shows u' w')
    (hWrites : place.writes = true → ∀ j, j ≠ i → s.places j ≠ .shared)
    (hShared : place = .shared → ∀ j, j ≠ i → (s.places j).writes = false) :
    Inv ⟨bits, Function.update s.places i place⟩ owner' u' w' := by
  refine ⟨hBits, hOwns, hFlags, fun j k hj hk => ?_⟩
  dsimp only at hj hk
  by_cases hji : j = i <;> by_cases hki : k = i
  · subst hji hki
    rw [Function.update_self] at hj hk
    rw [hk] at hj
    exact absurd hj (by decide)
  · subst hji
    rw [Function.update_self] at hj
    rw [Function.update_of_ne hki] at hk
    exact hWrites hj k hki hk
  · subst hki
    rw [Function.update_self] at hk
    rw [Function.update_of_ne hji, hShared hk j hji] at hj
    exact absurd hj Bool.false_ne_true
  · rw [Function.update_of_ne hji] at hj
    rw [Function.update_of_ne hki] at hk
    exact h.apart j k hj hk

/-- A thread that does not own the lock, before and after. -/
theorem stay (h : Inv s owner u w) {place : Place} {bits : Bits} {u' : Bool}
    (hWas : (s.places i).owns = false) (hIs : place.owns = false)
    (hBits : bits = word (number Place.reads (Function.update s.places i place)) u' w)
    (hFlags : (owner.elim .outside s.places).Shows u' w)
    (hShared : place = .shared → ∀ j, (s.places j).writes = false) :
    Inv ⟨bits, Function.update s.places i place⟩ owner u' w := by
  have hOther : owner ≠ some i := by
    rw [Ne, ← h.owns i, hWas]
    exact Bool.false_ne_true
  refine h.move hBits (fun j => ?_) ?_ (fun hWrites => ?_) fun hEq j _ => hShared hEq j
  · by_cases hj : j = i
    · subst hj
      rw [Function.update_self, hIs]
      exact iff_of_false Bool.false_ne_true hOther
    · rw [Function.update_of_ne hj]
      exact h.owns j
  · cases owner with
    | none => exact hFlags
    | some j =>
        show (Function.update s.places i place j).Shows u' w
        rw [Function.update_of_ne fun hEq => hOther (congrArg some hEq)]
        exact hFlags
  · rw [Place.not_writes_of_not_owns hIs] at hWrites
    exact absurd hWrites Bool.false_ne_true

/-- A thread becomes the owner, or it is the owner and stays it. -/
theorem own (h : Inv s owner u w) {place : Place} {bits : Bits} {u' w' : Bool}
    (hOwner : ∀ j, (s.places j).owns = true → j = i) (hIs : place.owns = true)
    (hBits : bits = word (number Place.reads (Function.update s.places i place)) u' w')
    (hFlags : place.Shows u' w') (hWrites : place.writes = true → ∀ j, s.places j ≠ .shared) :
    Inv ⟨bits, Function.update s.places i place⟩ (some i) u' w' := by
  refine h.move hBits (fun j => ?_) ?_ (fun hEq j _ => hWrites hEq j) fun hEq => ?_
  · by_cases hj : j = i
    · subst hj
      rw [Function.update_self]
      exact iff_of_true hIs rfl
    · rw [Function.update_of_ne hj]
      exact iff_of_false (mt (hOwner j) hj) fun hEq => hj (Option.some.inj hEq).symm
  · show (Function.update s.places i place i).Shows u' w'
    rw [Function.update_self]
    exact hFlags
  · rw [hEq] at hIs
    exact absurd hIs (by decide)

/-- The owner gives the lock up. -/
theorem give (h : Inv s (some i) u w) {place : Place} {bits : Bits} (hIs : place.owns = false)
    (hBits : bits = word (number Place.reads (Function.update s.places i place)) false false) :
    Inv ⟨bits, Function.update s.places i place⟩ none false false := by
  have hOther : ∀ j, j ≠ i → (s.places j).owns = false := by
    intro j hj
    rw [Bool.eq_false_iff, Ne, h.owns j]
    exact fun hEq => hj (Option.some.inj hEq).symm
  refine h.move hBits (fun j => ?_) ⟨rfl, rfl⟩ (fun hEq => ?_) fun _ j hj => ?_
  · refine iff_of_false ?_ (Option.some_ne_none j).symm
    by_cases hj : j = i
    · subst hj
      rw [Function.update_self, hIs]
      exact Bool.false_ne_true
    · rw [Function.update_of_ne hj, hOther j hj]
      exact Bool.false_ne_true
  · rw [Place.not_writes_of_not_owns hIs] at hEq
    exact absurd hEq Bool.false_ne_true
  · exact Place.not_writes_of_not_owns (hOther j hj)

/-- The number of readers, when a thread goes from `q` to `place`. -/
theorem number_of {q : Place} (hPlace : s.places i = q) (place : Place) :
    number Place.reads (Function.update s.places i place) + q.reads.toNat =
      number Place.reads s.places + place.reads.toNat := by
  rw [← hPlace]
  exact number_update place

/-! One lemma for each outcome of an access. -/

/-- A compare-exchange that fails. -/
theorem unchanged (h : Inv s owner u w) {q : Place} (hPlace : s.places i = q) :
    Inv ⟨s.bits, Function.update s.places i q⟩ owner u w := by
  rw [← hPlace, Function.update_eq_self]
  exact h

theorem lock (h : Inv s owner u w) (hFew : Fintype.card ι ≤ 2 ^ 30)
    (hPlace : s.places i = .outside) (hBits : s.bits = 0) :
    Inv ⟨writer, Function.update s.places i .exclusive⟩ (some i) false true := by
  obtain ⟨rfl, rfl, hNone⟩ := h.no_reader hFew (by rw [hPlace]; rfl) false false hBits
  obtain rfl := h.free_iff.mp ⟨rfl, rfl⟩
  refine h.own (fun j hj => absurd hj (by rw [h.not_owns j]; decide)) rfl ?_ rfl fun _ j hj => ?_
  · have hNumber := number_of hPlace .exclusive
    rw [number_eq_zero.mpr hNone] at hNumber
    rw [show number Place.reads (Function.update s.places i .exclusive) = 0 from hNumber]
    rfl
  · have hReads := hNone j
    rw [hj] at hReads
    exact absurd hReads (by decide)

theorem unlock (h : Inv s owner u w) (hPlace : s.places i = .exclusive) :
    Inv ⟨s.bits &&& ~~~(writer ||| upgraded), Function.update s.places i .outside⟩
      none false false := by
  obtain rfl := h.owner_eq hPlace rfl
  refine h.give rfl ?_
  rw [h.bits, word_clear]
  exact congrArg (word · false false) (number_of hPlace .outside).symm

theorem lockShared (h : Inv s owner u w) (hPlace : s.places i = .outside)
    (hBits : s.bits &&& (writer ||| upgraded) = 0) :
    Inv ⟨s.bits + reader, Function.update s.places i .shared⟩ owner u w := by
  rw [h.bits, word_flags_zero] at hBits
  obtain ⟨rfl, rfl⟩ := hBits
  refine h.stay (by rw [hPlace]; rfl) rfl ?_ h.flags fun _ => h.not_writes
  rw [h.bits, word_add_reader]
  exact congrArg (word · false false) (number_of hPlace .shared).symm

theorem backOff (h : Inv s owner u w) (hPlace : s.places i = .outside) :
    Inv ⟨s.bits + reader, Function.update s.places i .backingOff⟩ owner u w := by
  refine h.stay (by rw [hPlace]; rfl) rfl ?_ h.flags fun hEq => absurd hEq (by decide)
  rw [h.bits, word_add_reader]
  exact congrArg (word · u w) (number_of hPlace .backingOff).symm

/-- A reader leaves, or takes its addition back. -/
theorem leave (h : Inv s owner u w) {q : Place} (hPlace : s.places i = q)
    (hReads : q.reads = true) (hOwns : q.owns = false) :
    Inv ⟨s.bits - reader, Function.update s.places i .outside⟩ owner u w := by
  refine h.stay (by rw [hPlace]; exact hOwns) rfl ?_ h.flags fun hEq => absurd hEq (by decide)
  have hNumber := number_of hPlace .outside
  rw [hReads] at hNumber
  rw [h.bits, show number Place.reads s.places =
    number Place.reads (Function.update s.places i .outside) + 1 from hNumber.symm,
    word_sub_reader]

theorem addReader (h : Inv s owner u w) (hPlace : s.places i = .exclusive) :
    Inv ⟨s.bits + reader, Function.update s.places i .downgrading⟩ (some i) u w := by
  obtain rfl := h.owner_eq hPlace rfl
  have hShows := h.shows
  rw [hPlace] at hShows
  refine h.own h.eq_owner rfl ?_ hShows fun _ j => h.apart i j (by rw [hPlace]; rfl)
  rw [h.bits, word_add_reader]
  exact congrArg (word · u w) (number_of hPlace .downgrading).symm

/-- The end of `unlock_and_lock_shared()`. -/
theorem downgrade (h : Inv s owner u w) (hPlace : s.places i = .downgrading) :
    Inv ⟨s.bits &&& ~~~(writer ||| upgraded), Function.update s.places i .shared⟩
      none false false := by
  obtain rfl := h.owner_eq hPlace rfl
  refine h.give rfl ?_
  rw [h.bits, word_clear]
  exact congrArg (word · false false) (Nat.succ.inj (number_of hPlace .shared)).symm

theorem lockUpgrade (h : Inv s owner u w) (hPlace : s.places i = .outside)
    (hBits : s.bits &&& (upgraded ||| writer) = 0) :
    Inv ⟨s.bits ||| upgraded, Function.update s.places i .upgrade⟩ (some i) true false := by
  rw [BitVec.or_comm, h.bits, word_flags_zero] at hBits
  obtain ⟨rfl, rfl⟩ := hBits
  obtain rfl := h.free_iff.mp ⟨rfl, rfl⟩
  refine h.own (fun j hj => absurd hj (by rw [h.not_owns j]; decide)) rfl ?_ ⟨rfl, rfl⟩
    fun hEq => absurd hEq (by decide)
  rw [h.bits, word_or_upgraded]
  exact congrArg (word · true false) (number_of hPlace .upgrade).symm

/-- A thread that fails to become the upgrader leaves the bit behind: whoever owns the lock can
live with it. -/
theorem failUpgrade (h : Inv s owner u w) (hPlace : s.places i = .outside)
    (hBits : s.bits &&& (upgraded ||| writer) ≠ 0) :
    Inv ⟨s.bits ||| upgraded, Function.update s.places i .outside⟩ owner true w := by
  rw [BitVec.or_comm, h.bits, Ne, word_flags_zero, h.free_iff] at hBits
  refine h.stay (by rw [hPlace]; rfl) rfl ?_ ?_ fun hEq => absurd hEq (by decide)
  · rw [h.bits, word_or_upgraded]
    exact congrArg (word · true w) (number_of hPlace .outside).symm
  · obtain ⟨j, rfl⟩ := Option.ne_none_iff_exists'.mp hBits
    have hShows := h.shows
    have hOwns := (h.owns j).mpr rfl
    show (s.places j).Shows true w
    revert hShows hOwns
    cases s.places j <;> simp [Place.Shows, Place.owns]

theorem unlockUpgrade (h : Inv s owner u w) (hPlace : s.places i = .upgrade) :
    Inv ⟨s.bits - upgraded, Function.update s.places i .outside⟩ none false false := by
  obtain rfl := h.owner_eq hPlace rfl
  have hShows := h.shows
  rw [hPlace] at hShows
  obtain ⟨rfl, rfl⟩ := hShows
  refine h.give rfl ?_
  rw [h.bits, word_sub_upgraded]
  exact congrArg (word · false false) (number_of hPlace .outside).symm

/-- The upgrader becomes the writer once the last reader has left. -/
theorem upgradeToWriter (h : Inv s owner u w) (hFew : Fintype.card ι ≤ 2 ^ 30)
    (hPlace : s.places i = .upgrade) (hBits : s.bits = upgraded) :
    Inv ⟨writer, Function.update s.places i .exclusive⟩ (some i) false true := by
  obtain rfl := h.owner_eq hPlace rfl
  obtain ⟨rfl, rfl, hNone⟩ := h.no_reader hFew (by rw [hPlace]; rfl) true false hBits
  refine h.own h.eq_owner rfl ?_ rfl fun _ j hj => ?_
  · have hNumber := number_of hPlace .exclusive
    rw [number_eq_zero.mpr hNone] at hNumber
    rw [show number Place.reads (Function.update s.places i .exclusive) = 0 from hNumber]
    rfl
  · have hReads := hNone j
    rw [hj] at hReads
    exact absurd hReads (by decide)

theorem upgradeToReader (h : Inv s owner u w) (hPlace : s.places i = .upgrade) :
    Inv ⟨s.bits + (reader - upgraded), Function.update s.places i .shared⟩ none false false := by
  obtain rfl := h.owner_eq hPlace rfl
  have hShows := h.shows
  rw [hPlace] at hShows
  obtain ⟨rfl, rfl⟩ := hShows
  refine h.give rfl ?_
  rw [h.bits, word_upgraded_to_reader]
  exact congrArg (word · false false) (number_of hPlace .shared).symm

theorem setUpgraded (h : Inv s owner u w) (hPlace : s.places i = .exclusive) :
    Inv ⟨s.bits ||| upgraded, Function.update s.places i .converting⟩ (some i) true w := by
  obtain rfl := h.owner_eq hPlace rfl
  have hShows := h.shows
  rw [hPlace] at hShows
  refine h.own h.eq_owner rfl ?_ ⟨rfl, hShows⟩ fun _ j => h.apart i j (by rw [hPlace]; rfl)
  rw [h.bits, word_or_upgraded]
  exact congrArg (word · true w) (number_of hPlace .converting).symm

theorem subtractWriter (h : Inv s owner u w) (hPlace : s.places i = .converting) :
    Inv ⟨s.bits - writer, Function.update s.places i .upgrade⟩ (some i) true false := by
  obtain rfl := h.owner_eq hPlace rfl
  have hShows := h.shows
  rw [hPlace] at hShows
  obtain ⟨rfl, rfl⟩ := hShows
  refine h.own h.eq_owner rfl ?_ ⟨rfl, rfl⟩ fun hEq => absurd hEq (by decide)
  rw [h.bits, word_sub_writer]
  exact congrArg (word · true false) (number_of hPlace .upgrade).symm

theorem step {e : ι × Access} (h : Inv s owner u w) (hFew : Fintype.card ι ≤ 2 ^ 30)
    (hStep : Step s e s') : ∃ owner' u' w', Inv s' owner' u' w' := by
  cases hStep with
  | @access i access place bits hPerform =>
  revert hPerform
  generalize hPlace : s.places i = q
  generalize hBits : s.bits = b
  fun_cases Access.perform access q b with
  | case1 =>
      -- `try_lock()`
      subst hBits
      split
      · rename_i hZero
        rintro ⟨⟩
        exact ⟨_, _, _, h.lock hFew hPlace hZero⟩
      · rintro ⟨⟩
        exact ⟨_, _, _, h.unchanged hPlace⟩
  | case2 =>
      subst hBits
      rintro ⟨⟩
      exact ⟨_, _, _, h.unlock hPlace⟩
  | case3 =>
      -- `try_lock_shared()`
      subst hBits
      split
      · rename_i hFree
        rintro ⟨⟩
        exact ⟨_, _, _, h.lockShared hPlace hFree⟩
      · rintro ⟨⟩
        exact ⟨_, _, _, h.backOff hPlace⟩
  | case4 =>
      subst hBits
      rintro ⟨⟩
      exact ⟨_, _, _, h.leave hPlace rfl rfl⟩
  | case5 =>
      subst hBits
      rintro ⟨⟩
      exact ⟨_, _, _, h.leave hPlace rfl rfl⟩
  | case6 =>
      subst hBits
      rintro ⟨⟩
      exact ⟨_, _, _, h.addReader hPlace⟩
  | case7 =>
      subst hBits
      rintro ⟨⟩
      exact ⟨_, _, _, h.downgrade hPlace⟩
  | case8 =>
      -- `try_lock_upgrade()`
      subst hBits
      split
      · rename_i hFree
        rintro ⟨⟩
        exact ⟨_, _, _, h.lockUpgrade hPlace hFree⟩
      · rename_i hFree
        rintro ⟨⟩
        exact ⟨_, _, _, h.failUpgrade hPlace hFree⟩
  | case9 =>
      subst hBits
      rintro ⟨⟩
      exact ⟨_, _, _, h.unlockUpgrade hPlace⟩
  | case10 =>
      -- `try_unlock_upgrade_and_lock()`
      subst hBits
      split
      · rename_i hLone
        rintro ⟨⟩
        exact ⟨_, _, _, h.upgradeToWriter hFew hPlace hLone⟩
      · rintro ⟨⟩
        exact ⟨_, _, _, h.unchanged hPlace⟩
  | case11 =>
      subst hBits
      rintro ⟨⟩
      exact ⟨_, _, _, h.upgradeToReader hPlace⟩
  | case12 =>
      subst hBits
      rintro ⟨⟩
      exact ⟨_, _, _, h.setUpgraded hPlace⟩
  | case13 =>
      subst hBits
      rintro ⟨⟩
      exact ⟨_, _, _, h.subtractWriter hPlace⟩
  | case14 => rintro ⟨⟩

end Inv

end Invariant

/-! ## Every run -/

section Runs

variable {ι : Type*} [Fintype ι] [DecidableEq ι] {log : List (ι × Access)} {s : State ι}

theorem Inv.run (hFew : Fintype.card ι ≤ 2 ^ 30) (hRun : Run Step State.initial log s) :
    ∃ owner u w, Inv s owner u w :=
  hRun.invariant (P := fun s => ∃ owner u w, Inv s owner u w) ⟨none, false, false, Inv.initial⟩
    fun _ _ _ ⟨_, _, _, h⟩ hStep => h.step hFew hStep

/-- The first `k` threads, one after the other, become readers. -/
theorem run_readers (n : Nat) : ∀ k ≤ n, ∃ log, Run Step (State.initial : State (Fin n)) log
    ⟨word k false false, fun i => if i.val < k then .shared else .outside⟩ := by
  intro k
  induction k with
  | zero => exact fun _ => ⟨[], Run.nil⟩
  | succ k ih =>
      intro hk
      obtain ⟨log, hRun⟩ := ih (Nat.le_of_succ_le hk)
      have hStep : Step
          ⟨word k false false, fun i : Fin n => if i.val < k then .shared else .outside⟩
          (⟨k, hk⟩, .tryLockShared) _ :=
        Step.access (p := .shared) (by
          simp only [Nat.lt_irrefl, if_false, Access.perform]
          rw [if_pos (word_flags_zero.mpr ⟨rfl, rfl⟩), word_add_reader])
      refine ⟨_, (hRun.snoc hStep).cast ?_⟩
      congr 1
      funext i
      by_cases hi : i = ⟨k, hk⟩
      · subst hi
        simp
      · have hne : i.val ≠ k := fun hEq => hi (Fin.ext hEq)
        rw [Function.update_of_ne hi]
        exact if_congr (by omega) rfl rfl

/-- A writer is alone and there is one upgrader at most, in every run of `n` threads, exactly if
`n` is not above `2 ^ 30`: the word has 30 bits for the readers, and the thread that tries
to become the writer is none of them. -/
theorem excludes_iff (n : Nat) :
    (∀ log s, Run Step (State.initial : State (Fin n)) log s → s.Excludes) ↔ n ≤ 2 ^ 30 := by
  constructor
  · intro hAll
    by_contra hMany
    have hLast : 2 ^ 30 < n := Nat.lt_of_not_le hMany
    obtain ⟨log, hRun⟩ := run_readers n (2 ^ 30) (Nat.le_of_lt hLast)
    -- with `2 ^ 30` readers the word is 0 again
    have hStep : Step _ ((⟨2 ^ 30, hLast⟩ : Fin n), .tryLock) _ :=
      Step.access (p := .exclusive) (b := writer)
        (s := ⟨word (2 ^ 30) false false, fun i => if i.val < 2 ^ 30 then .shared else .outside⟩)
        (by
        simp only [Nat.lt_irrefl, if_false, Access.perform]
        rw [if_pos (show word (2 ^ 30) false false = 0 from rfl)])
    have hExcludes := hAll _ _ (hRun.snoc hStep)
    have hFirst : 0 < n := Nat.lt_of_le_of_lt (Nat.zero_le _) hLast
    have hne : (⟨2 ^ 30, hLast⟩ : Fin n) ≠ ⟨0, hFirst⟩ := by simp [Fin.ext_iff]
    have hOther := hExcludes.writer ⟨2 ^ 30, hLast⟩ ⟨0, hFirst⟩ hne (by
      dsimp only
      rw [Function.update_self])
    dsimp only at hOther
    rw [Function.update_of_ne hne.symm, if_pos (Nat.two_pow_pos 30)] at hOther
    exact absurd hOther (by decide)
  · intro hFew log s hRun
    obtain ⟨owner, u, w, h⟩ := Inv.run (by rw [Fintype.card_fin]; exact hFew) hRun
    exact h.excludes

/-- No failed try leaves anything behind that keeps a thread out.  In every run of at most `2 ^ 30`
threads, for a thread outside: it becomes the writer exactly if all others are outside, and a
reader or the upgrader exactly if there is no writer and no upgrader; and the upgrader
becomes the writer exactly if all others are outside. -/
theorem available_of_run (hFew : Fintype.card ι ≤ 2 ^ 30) (hRun : Run Step State.initial log s)
    (i : ι) :
    (s.places i = .outside → (s.Reaches i .tryLock .exclusive ↔ s.Alone i) ∧
      (s.Reaches i .tryLockShared .shared ↔ s.Unowned) ∧
      (s.Reaches i .tryLockUpgrade .upgrade ↔ s.Unowned)) ∧
    (s.places i = .upgrade → (s.Reaches i .tryUnlockUpgradeAndLock .exclusive ↔ s.Alone i)) := by
  obtain ⟨owner, u, w, h⟩ := Inv.run hFew hRun
  refine ⟨fun hPlace => ⟨?_, ?_, ?_⟩, fun hPlace => ?_⟩
  · rw [State.Reaches, hPlace, ← h.zero_iff hFew hPlace]
    by_cases hZero : s.bits = 0#32 <;> simp [Access.perform, hZero]
  · rw [State.Reaches, hPlace, ← h.flags_clear_iff]
    by_cases hFree : s.bits &&& (writer ||| upgraded) = 0 <;> simp [Access.perform, hFree]
  · rw [State.Reaches, hPlace, ← h.flags_clear_iff, BitVec.or_comm]
    by_cases hFree : s.bits &&& (upgraded ||| writer) = 0 <;> simp [Access.perform, hFree]
  · rw [State.Reaches, hPlace, ← h.upgraded_iff hFew hPlace]
    by_cases hLone : s.bits = upgraded <;> simp [Access.perform, hLone]

/-- A thread that has failed to become the upgrader beside a writer leaves its bit behind, and the
writer takes it away. -/
theorem available_of_run_stray : ∃ s : State Bool, Run Step State.initial
      [(false, .tryLock), (true, .tryLockUpgrade), (false, .unlock)] s ∧
    (s.Reaches true .tryLockShared .shared ↔ s.Unowned) ∧ s.Unowned := by
  have hLock : Step (State.initial : State Bool) (false, .tryLock) _ := .access rfl
  have hFail := (Run.single hLock).snoc (e := (true, .tryLockUpgrade)) (.access rfl)
  have hRun := hFail.snoc (e := (false, .unlock)) (.access rfl)
  exact ⟨_, hRun, ((available_of_run (by decide) hRun true).1 rfl).2.1, by
    intro j
    cases j <;> rfl⟩

end Runs

end MxTasking.Tasking.RWSpinLock
