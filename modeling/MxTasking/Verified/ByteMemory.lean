import Mathlib.Data.List.Basic
import Mathlib.Algebra.Ring.Nat

/-!
# Byte memory and lists in it

Memory is a function from addresses to bytes.  A 64-bit word at an address is the eight bytes
from it on, least significant first; reading a word back after it was written and reading words
that a write does not touch is all the program needs to know about it.

An intrusive list is a chain of addresses each of which holds the address of the next
one in its first word; the last one holds 0 (`Linked`).

## Main results

* `load64_store64`, `load64_congr` — what a word holds after a write.
* `Linked.congr` — a list only depends on the words of its own nodes.
* `Linked.unique`, `Linked.nodup` — the memory determines the list, which has no cycle.
* `Linked.of_row` — nodes that are linked in a row.
-/

namespace MxTasking.Verified.ByteMemory

/-- Bytes by their addresses. -/
abbrev Memory := Nat → UInt8

/-! ## Words -/

/-- The word at `a`. -/
def load64 (m : Memory) (a : Nat) : Nat :=
  (m a).toNat + 2 ^ 8 * (m (a + 1)).toNat + 2 ^ 16 * (m (a + 2)).toNat +
    2 ^ 24 * (m (a + 3)).toNat + 2 ^ 32 * (m (a + 4)).toNat + 2 ^ 40 * (m (a + 5)).toNat +
    2 ^ 48 * (m (a + 6)).toNat + 2 ^ 56 * (m (a + 7)).toNat

/-- `v` is written to the word at `a`. -/
def store64 (m : Memory) (a v : Nat) : Memory := fun x =>
  if a ≤ x ∧ x < a + 8 then UInt8.ofNat (v / 2 ^ (8 * (x - a)) % 2 ^ 8) else m x

variable {m m' : Memory} {a b v : Nat}

theorem store64_of_not_mem (h : b < a ∨ a + 8 ≤ b) : store64 m a v b = m b :=
  if_neg (by omega)

theorem store64_byte {i : Nat} (hi : i < 8) :
    (store64 m a v (a + i)).toNat = v / 2 ^ (8 * i) % 2 ^ 8 := by
  have hMem : a ≤ a + i ∧ a + i < a + 8 := by omega
  simp only [store64, if_pos hMem, Nat.add_sub_cancel_left, UInt8.toNat_ofNat']
  omega

theorem load64_store64 (hv : v < 2 ^ 64) : load64 (store64 m a v) a = v := by
  have h0 := store64_byte (m := m) (a := a) (v := v) (i := 0) (by omega)
  have h1 := store64_byte (m := m) (a := a) (v := v) (i := 1) (by omega)
  have h2 := store64_byte (m := m) (a := a) (v := v) (i := 2) (by omega)
  have h3 := store64_byte (m := m) (a := a) (v := v) (i := 3) (by omega)
  have h4 := store64_byte (m := m) (a := a) (v := v) (i := 4) (by omega)
  have h5 := store64_byte (m := m) (a := a) (v := v) (i := 5) (by omega)
  have h6 := store64_byte (m := m) (a := a) (v := v) (i := 6) (by omega)
  have h7 := store64_byte (m := m) (a := a) (v := v) (i := 7) (by omega)
  simp only [Nat.add_zero] at h0
  rw [load64, h0, h1, h2, h3, h4, h5, h6, h7]
  omega

/-- A word is its eight bytes. -/
theorem load64_congr (h : ∀ x, a ≤ x → x < a + 8 → m' x = m x) : load64 m' a = load64 m a := by
  simp only [load64, h a (by omega) (by omega), h (a + 1) (by omega) (by omega),
    h (a + 2) (by omega) (by omega), h (a + 3) (by omega) (by omega),
    h (a + 4) (by omega) (by omega), h (a + 5) (by omega) (by omega),
    h (a + 6) (by omega) (by omega), h (a + 7) (by omega) (by omega)]

/-- A write does not touch another word. -/
theorem load64_store64_of_disjoint (h : a + 8 ≤ b ∨ b + 8 ≤ a) :
    load64 (store64 m a v) b = load64 m b :=
  load64_congr fun x hx hlt => store64_of_not_mem (by omega)

/-! ## Lists -/

/-- From the pointer `p` the words lead through the nodes of the list to 0. -/
def Linked (m : Memory) : Nat → List Nat → Prop
  | p, [] => p = 0
  | p, x :: l => p = x ∧ x ≠ 0 ∧ Linked m (load64 m x) l

namespace Linked

variable {p : Nat} {l l' : List Nat}

/-- A list only depends on the words of its own nodes. -/
theorem congr (h : Linked m p l) (hSame : ∀ x ∈ l, load64 m' x = load64 m x) :
    Linked m' p l := by
  induction l generalizing p with
  | nil => exact h
  | cons x l ih =>
      obtain ⟨hp, hne, hRest⟩ := h
      refine ⟨hp, hne, ?_⟩
      rw [hSame x (List.mem_cons_self ..)]
      exact ih hRest fun y hy => hSame y (List.mem_cons_of_mem _ hy)

/-- The memory determines the list. -/
theorem unique (h : Linked m p l) (h' : Linked m p l') : l = l' := by
  induction l generalizing p l' with
  | nil =>
      cases l' with
      | nil => rfl
      | cons y l' => exact absurd (h'.1.symm.trans h) h'.2.1
  | cons x l ih =>
      cases l' with
      | nil => exact absurd (h.1.symm.trans h') h.2.1
      | cons y l' =>
          obtain rfl : x = y := h.1.symm.trans h'.1
          rw [ih h.2.2 h'.2.2]

/-- A pointer that is not 0 points at the first node. -/
theorem cons_of_ne_zero (h : Linked m p l) (hp : p ≠ 0) :
    ∃ rest, l = p :: rest ∧ Linked m (load64 m p) rest := by
  cases l with
  | nil => exact absurd h hp
  | cons x rest =>
      obtain ⟨rfl, _, hRest⟩ := h
      exact ⟨rest, rfl, hRest⟩

/-- What lies behind a node is a list as well. -/
theorem of_append (h : Linked m p (l ++ a :: l')) : Linked m a (a :: l') := by
  induction l generalizing p with
  | nil => exact ⟨rfl, h.2⟩
  | cons x l ih => exact ih h.2.2

/-- A list that ends has no cycle. -/
theorem nodup (h : Linked m p l) : l.Nodup := by
  induction l generalizing p with
  | nil => exact List.nodup_nil
  | cons x l ih =>
      refine List.nodup_cons.mpr ⟨fun hMem => ?_, ih h.2.2⟩
      obtain ⟨l₁, l₂, rfl⟩ := List.append_of_mem hMem
      have hAgain : Linked m x (x :: l₂) := of_append h.2.2
      -- from the same node the memory leads to one list only
      have hLength := congrArg List.length (h.2.2.unique hAgain.2.2)
      simp at hLength
      omega

/-- Nodes that are linked in a row, the last of them to 0. -/
theorem of_row (f : Nat → Nat) (count : Nat) (hne : ∀ j < count, f j ≠ 0)
    (hLoad : ∀ j < count, load64 m (f j) = if j + 1 < count then f (j + 1) else 0) (n k : Nat)
    (hk : k + n = count) :
    Linked m (if k < count then f k else 0) ((List.range' k n).map f) := by
  induction n generalizing k with
  | zero => exact if_neg (by omega)
  | succ n ih =>
      have hlt : k < count := by omega
      refine ⟨if_pos hlt, hne k hlt, ?_⟩
      rw [hLoad k hlt]
      exact ih (k + 1) (by omega)

end Linked

end MxTasking.Verified.ByteMemory
