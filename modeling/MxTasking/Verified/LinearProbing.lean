import Mathlib.Data.Finset.Card
import Mathlib.Data.Nat.Find
import Mathlib.Logic.Function.Basic

/-!
# Linear probing

A table of `N` slots, each with a key or marked empty.  A key is looked for from its home slot
on, one slot after the other and around the end, up to the first slot that has the
key or is empty (`probe`).  After `N` slots the search is back at its beginning and goes on forever,
which is `none` here.

A table that is only ever written at the slot a search has found stays `Reachable`: between
the home of a key and its slot there is no empty one.

## Main results

* `probe_isSome` — the search ends if some slot has the key or is empty.
* `Reachable.probe_eq` — the search finds the slot of a key that is there.
* `Reachable.update` — writing the key into the slot found.
* `Reachable.exists_slot` — when there is such a slot.
-/

namespace MxTasking.Verified.LinearProbing

variable {K : Type*} [DecidableEq K]

/-- The search from `index` on, through at most `fuel` slots. -/
def probe (N : Nat) (slots : Nat → K) (empty key : K) : Nat → Nat → Option Nat
  | 0, _ => none
  | fuel + 1, index =>
      if slots (index % N) ≠ key ∧ slots (index % N) ≠ empty then
        probe N slots empty key fuel (index % N + 1)
      else some (index % N)

/-- From the home of a key to its slot no slot is empty or has the same key. -/
def Reachable (N : Nat) (hash : K → Nat) (slots : Nat → K) (empty : K) : Prop :=
  ∀ i < N, slots i ≠ empty → ∃ d < N, i = (hash (slots i) + d) % N ∧
    ∀ d' < d, slots ((hash (slots i) + d') % N) ≠ slots i ∧
      slots ((hash (slots i) + d') % N) ≠ empty

section

variable {N : Nat} {slots : Nat → K} {empty key : K}

/-- The search goes through the slots one after the other. -/
theorem probe_succ (fuel index : Nat) (hne : slots (index % N) ≠ key)
    (hFull : slots (index % N) ≠ empty) :
    probe N slots empty key (fuel + 1) index = probe N slots empty key fuel (index + 1) := by
  have hMod : (index % N + 1) % N = (index + 1) % N := Nat.mod_add_mod index N 1
  rw [probe, if_pos ⟨hne, hFull⟩]
  cases fuel with
  | zero => rfl
  | succ fuel => rw [probe, probe, hMod]

/-- What the search finds. -/
theorem probe_spec (fuel index : Nat) {i : Nat} (h : probe N slots empty key fuel index = some i) :
    ∃ d < fuel, i = (index + d) % N ∧ (slots i = key ∨ slots i = empty) ∧
      ∀ d' < d, slots ((index + d') % N) ≠ key ∧ slots ((index + d') % N) ≠ empty := by
  induction fuel generalizing index with
  | zero => exact absurd h (by simp [probe])
  | succ fuel ih =>
      by_cases hCase : slots (index % N) ≠ key ∧ slots (index % N) ≠ empty
      · rw [probe_succ fuel index hCase.1 hCase.2] at h
        obtain ⟨d, hd, rfl, hFound, hBefore⟩ := ih (index + 1) h
        refine ⟨d + 1, by omega, by rw [Nat.add_assoc, Nat.add_comm 1], hFound, fun d' hd' => ?_⟩
        cases d' with
        | zero => exact hCase
        | succ d' =>
            rw [show index + (d' + 1) = index + 1 + d' by omega]
            exact hBefore d' (by omega)
      · rw [probe, if_neg hCase] at h
        obtain rfl := Option.some.inj h
        refine ⟨0, by omega, rfl, ?_, fun d' hd' => absurd hd' (Nat.not_lt_zero _)⟩
        by_contra hNot
        exact hCase ⟨fun hEq => hNot (Or.inl hEq), fun hEq => hNot (Or.inr hEq)⟩

/-- The search finds the first slot that has the key or is empty. -/
theorem probe_of_first (fuel index d : Nat) (hd : d < fuel)
    (hFound : slots ((index + d) % N) = key ∨ slots ((index + d) % N) = empty)
    (hBefore : ∀ d' < d, slots ((index + d') % N) ≠ key ∧ slots ((index + d') % N) ≠ empty) :
    probe N slots empty key fuel index = some ((index + d) % N) := by
  induction fuel generalizing index d with
  | zero => omega
  | succ fuel ih =>
      cases d with
      | zero =>
          rw [probe, if_neg]
          · rfl
          · rintro ⟨hne, hFull⟩
            exact hFound.elim hne hFull
      | succ d =>
          obtain ⟨hne, hFull⟩ := hBefore 0 (by omega)
          rw [probe_succ fuel index hne hFull, show index + (d + 1) = index + 1 + d by omega]
          refine ih (index + 1) d (by omega) ?_ fun d' hd' => ?_
          · rwa [show index + 1 + d = index + (d + 1) by omega]
          · rw [show index + 1 + d' = index + (d' + 1) by omega]
            exact hBefore (d' + 1) (by omega)

/-- Every slot is one of the `N` the search goes through. -/
theorem exists_offset {i : Nat} (hi : i < N) (index : Nat) : ∃ d < N, i = (index + d) % N := by
  refine ⟨(i + N - index % N) % N, Nat.mod_lt _ (by omega), ?_⟩
  have hlt : index % N < N := Nat.mod_lt _ (by omega)
  have hDiv := Nat.div_add_mod index N
  have hSum : index + (i + N - index % N) = i + N * (index / N + 1) := by
    rw [Nat.mul_add, Nat.mul_one]
    omega
  rw [Nat.add_mod_mod, hSum, Nat.add_mul_mod_self_left, Nat.mod_eq_of_lt hi]

/-- The search ends if some slot has the key or is empty. -/
theorem probe_isSome {i : Nat} (hi : i < N) (hSlot : slots i = key ∨ slots i = empty)
    (index : Nat) : ∃ j, probe N slots empty key N index = some j := by
  obtain ⟨d, hd, rfl⟩ := exists_offset hi index
  have hEx : ∃ d, d < N ∧ (slots ((index + d) % N) = key ∨ slots ((index + d) % N) = empty) :=
    ⟨d, hd, hSlot⟩
  classical
  obtain ⟨hlt, hFound⟩ := Nat.find_spec hEx
  refine ⟨_, probe_of_first N index (Nat.find hEx) hlt hFound fun d' hd' => ?_⟩
  have hNot := Nat.find_min hEx hd'
  exact ⟨fun hEq => hNot ⟨by omega, Or.inl hEq⟩, fun hEq => hNot ⟨by omega, Or.inr hEq⟩⟩

end

namespace Reachable

variable {N : Nat} {hash : K → Nat} {slots : Nat → K} {empty key : K}

omit [DecidableEq K] in
theorem of_empty (h : ∀ i < N, slots i = empty) : Reachable N hash slots empty :=
  fun i hi hne => absurd (h i hi) hne

/-- The search finds the slot of a key that is there. -/
theorem probe_eq (h : Reachable N hash slots empty) {i : Nat} (hi : i < N) (hKey : slots i = key)
    (hne : key ≠ empty) : probe N slots empty key N (hash key) = some i := by
  subst hKey
  obtain ⟨d, hd, hEq, hPath⟩ := h i hi hne
  have hFound : slots ((hash (slots i) + d) % N) = slots i := by rw [← hEq]
  rw [probe_of_first N (hash (slots i)) d hd (Or.inl hFound) hPath, ← hEq]

/-- A key is in one slot only. -/
theorem inj (h : Reachable N hash slots empty) {i j : Nat} (hi : i < N) (hj : j < N)
    (hEq : slots i = slots j) (hne : slots i ≠ empty) : i = j :=
  Option.some.inj ((h.probe_eq hi rfl hne).symm.trans (h.probe_eq hj hEq.symm hne))

/-- Among `N` slots with keys of `D` there is one for a further key of `D`, and one for any key if
`D` has fewer than `N` keys. -/
theorem exists_slot (h : Reachable N hash slots empty) (D : Finset K)
    (hKeys : ∀ i < N, slots i ≠ empty → slots i ∈ D)
    (hRoom : D.card < N ∨ (D.card ≤ N ∧ key ∈ D)) :
    ∃ i < N, slots i = key ∨ slots i = empty := by
  by_contra hNot
  have hFull : ∀ i < N, slots i ≠ key ∧ slots i ≠ empty := by
    intro i hi
    exact ⟨fun hEq => hNot ⟨i, hi, Or.inl hEq⟩, fun hEq => hNot ⟨i, hi, Or.inr hEq⟩⟩
  have hInjOn : Set.InjOn slots (Finset.range N) := by
    intro i hi j hj hEq
    have hi' := Finset.mem_range.mp hi
    exact h.inj hi' (Finset.mem_range.mp hj) hEq (hFull i hi').2
  -- the slots are keys of `D` other than `key`
  have hMaps : Set.MapsTo slots (Finset.range N) (D.erase key) := by
    intro i hi
    have hi' := Finset.mem_range.mp hi
    exact Finset.mem_erase.mpr ⟨(hFull i hi').1, hKeys i hi' (hFull i hi').2⟩
  have hCard := Finset.card_le_card_of_injOn slots hMaps hInjOn
  rw [Finset.card_range] at hCard
  rcases hRoom with hlt | ⟨hle, hMem⟩
  · have := Finset.card_erase_le (s := D) (a := key)
    omega
  · rw [Finset.card_erase_of_mem hMem] at hCard
    have := Finset.card_pos.mpr ⟨key, hMem⟩
    omega

/-- Writing the key into the slot found. -/
theorem update (h : Reachable N hash slots empty) {i : Nat}
    (hProbe : probe N slots empty key N (hash key) = some i) (hne : key ≠ empty) :
    Reachable N hash (Function.update slots i key) empty := by
  intro j hj hFull
  by_cases hEq : j = i
  · subst hEq
    obtain ⟨d, hd, hIndex, hFound, hBefore⟩ := probe_spec N (hash key) hProbe
    rw [Function.update_self]
    refine ⟨d, hd, hIndex, fun d' hd' => ?_⟩
    have hOther : (hash key + d') % N ≠ j := by
      intro hSame
      obtain ⟨hKey, hEmpty⟩ := hBefore d' hd'
      rw [hSame] at hKey hEmpty
      exact hFound.elim hKey hEmpty
    rw [Function.update_of_ne hOther]
    exact hBefore d' hd'
  · rw [Function.update_of_ne hEq] at hFull ⊢
    obtain ⟨d, hd, hIndex, hPath⟩ := h j hj hFull
    refine ⟨d, hd, hIndex, fun d' hd' => ?_⟩
    by_cases hSame : (hash (slots j) + d') % N = i
    · rw [hSame, Function.update_self]
      refine ⟨?_, hne⟩
      -- otherwise the search would have found slot `j`
      rintro rfl
      exact hEq (Option.some.inj ((h.probe_eq hj rfl hFull).symm.trans hProbe))
    · rw [Function.update_of_ne hSame]
      exact hPath d' hd'

end Reachable

end MxTasking.Verified.LinearProbing
