import MxTasking.Memory.AlignmentHelper
import MxTasking.Verified.LinearProbing
import MxTasking.Verified.TransitionSystem
import Mathlib.Algebra.Ring.Nat

/-!
# The hash table of the hash join

`inline_hashtable.h` with 32-bit keys and 64-bit values.  The number of slots is a power of two, and
the largest key marks an empty slot.  `insert` and `get` look for a key in the same way, and
neither of them ends when no slot has the key and none is empty; both are `none` then.

The constructor's loop counts the slots with an index of 32 bits, and does not end when there are
`2 ^ 32` slots or more.

## Main results

* `Represents.insert`, `Represents.get` — the table is the map of the keys inserted.
* `Represents.insert_isSome`, `Represents.get_isSome` — when they end.
* `usable_iff` — when a table can be made, and then it is a map.
-/

namespace MxTasking.HashJoin

open MxTasking.Memory.AlignmentHelper.SizeT (nextPowerOfTwo nextPowerOfTwo_spec)
open MxTasking.Verified (update_cases)
open MxTasking.Verified.LinearProbing

/-- `std::numeric_limits<std::uint32_t>::max()`. -/
def maxKey : UInt32 := 0xffffffff

/-- `std::numeric_limits<std::size_t>::max()`. -/
def maxValue : Nat := 2 ^ 64 - 1

/-- `InlineHashtable::Entry`. -/
structure Entry where
  key : UInt32
  value : Nat
  deriving DecidableEq, Repr

/-- `InlineHashtable` with `2 ^ bits` slots. -/
structure InlineHashtable where
  bits : Nat
  entries : Nat → Entry

namespace InlineHashtable

/-- `_slots`. -/
def slots (t : InlineHashtable) : Nat := 2 ^ t.bits

/-- What the constructor leaves when its loop ends: every entry is empty (`fill_eq`). -/
def construct (bits : Nat) : InlineHashtable := ⟨bits, fun _ => ⟨maxKey, 0⟩⟩

/-- `sizeof(InlineHashtable<std::uint32_t, std::size_t>)`. -/
def sizeofTable : Nat := 8

/-- `sizeof(Entry)`. -/
def sizeofEntry : Nat := 16

/-- `needed_bytes(slots)`. -/
def neededBytes (slots : Nat) : Nat :=
  (sizeofTable + sizeofEntry * nextPowerOfTwo slots) % 2 ^ 64

/-- `_slots` of a table in `size` bytes. -/
def slotsIn (size : Nat) : Nat := (size + (2 ^ 64 - sizeofTable)) % 2 ^ 64 / sizeofEntry

/-- The loop of the constructor, with its index of 32 bits; `none` when the fuel is used up. -/
def fill (slots : Nat) : Nat → UInt32 → (Nat → Entry) → Option (Nat → Entry)
  | 0, _, _ => none
  | fuel + 1, i, entries =>
      if i.toNat < slots then
        fill slots fuel (i + 1) (Function.update entries i.toNat ⟨maxKey, 0⟩)
      else some entries

/-- `hash(key)`. -/
def hash (key : UInt32) : Nat :=
  let key := key ^^^ (key >>> 16)
  let key := key * 0x85ebca6b
  let key := key ^^^ (key >>> 13)
  let key := key * 0xc2b2ae35
  let key := key ^^^ (key >>> 16)
  key.toNat

/-- The loop of `insert` and `get`: the first entry that has the key or is empty. -/
def find (t : InlineHashtable) (key : UInt32) : Nat → Nat → Option Nat
  | 0, _ => none
  | fuel + 1, index =>
      let index := index &&& (t.slots - 1)
      if (t.entries index).key ≠ key ∧ (t.entries index).key ≠ maxKey then
        t.find key fuel (index + 1)
      else some index

/-- `insert(key, value)`. -/
def insert (t : InlineHashtable) (key : UInt32) (value : Nat) : Option InlineHashtable :=
  (t.find key t.slots (hash key)).map fun index =>
    { t with entries := Function.update t.entries index ⟨key, value⟩ }

/-- `get(key)`. -/
def get (t : InlineHashtable) (key : UInt32) : Option Nat :=
  (t.find key t.slots (hash key)).map fun index =>
    if (t.entries index).key = key then (t.entries index).value else maxValue

/-- The keys in the slots. -/
def keys (t : InlineHashtable) : Nat → UInt32 := fun i => (t.entries i).key

theorem slots_pos (t : InlineHashtable) : 0 < t.slots := Nat.two_pow_pos t.bits

theorem find_eq_probe (t : InlineHashtable) (key : UInt32) (fuel index : Nat) :
    t.find key fuel index = probe t.slots t.keys maxKey key fuel index := by
  induction fuel generalizing index with
  | zero => rfl
  | succ fuel ih =>
      have hMask : index &&& (t.slots - 1) = index % t.slots := Nat.and_two_pow_sub_one_eq_mod ..
      rw [find, probe, hMask]
      simp only [ih]
      rfl

theorem keys_update (t : InlineHashtable) (i : Nat) (e : Entry) :
    keys { t with entries := Function.update t.entries i e } = Function.update t.keys i e.key := by
  funext j
  by_cases hEq : j = i
  · subst hEq
    simp [keys]
  · simp [keys, hEq]

/-- The table holds the map `m`, in which the largest key does not occur. -/
structure Represents (t : InlineHashtable) (m : UInt32 → Option Nat) : Prop where
  reachable : Reachable t.slots hash t.keys maxKey
  entries : ∀ key, key ≠ maxKey → ∀ value,
    m key = some value ↔ ∃ i < t.slots, t.entries i = ⟨key, value⟩
  max : m maxKey = none

namespace Represents

variable {t t' : InlineHashtable} {m : UInt32 → Option Nat} {key : UInt32} {value : Nat}

/-- A table of empty entries. -/
theorem of_empty (h : ∀ i < t.slots, t.entries i = ⟨maxKey, 0⟩) : Represents t fun _ => none := by
  refine ⟨Reachable.of_empty fun i hi => congrArg Entry.key (h i hi), fun key hne value => ?_, rfl⟩
  refine ⟨fun hValue => absurd hValue (by simp), fun ⟨i, hi, hEq⟩ => absurd ?_ hne⟩
  exact (congrArg Entry.key ((h i hi).symm.trans hEq)).symm

theorem construct (bits : Nat) : Represents (construct bits) fun _ => none :=
  of_empty fun _ _ => rfl

/-- What the loop finds for a key. -/
theorem find_spec (h : Represents t m) {i : Nat} (hFind : t.find key t.slots (hash key) = some i) :
    i < t.slots ∧ (t.keys i = key ∨ t.keys i = maxKey) ∧
      (key ≠ maxKey → t.keys i ≠ key → m key = none) := by
  rw [find_eq_probe] at hFind
  obtain ⟨d, _, rfl, hFound, _⟩ := probe_spec _ _ hFind
  refine ⟨Nat.mod_lt _ t.slots_pos, hFound, fun hne hNot => ?_⟩
  by_contra hSome
  obtain ⟨value, hValue⟩ := Option.ne_none_iff_exists'.mp hSome
  obtain ⟨j, hj, hEntry⟩ := (h.entries key hne value).mp hValue
  have hKey : t.keys j = key := congrArg Entry.key hEntry
  rw [h.reachable.probe_eq hj hKey hne] at hFind
  exact hNot (by rw [← Option.some.inj hFind]; exact hKey)

/-- A key is in the slot the loop finds. -/
theorem slot_unique (h : Represents t m) (hne : key ≠ maxKey) {i j : Nat}
    (hFind : t.find key t.slots (hash key) = some i) (hj : j < t.slots) (hKey : t.keys j = key) :
    j = i := by
  rw [find_eq_probe, h.reachable.probe_eq hj hKey hne] at hFind
  exact Option.some.inj hFind

/-- A key is inserted. -/
theorem insert (h : Represents t m) (hInsert : t.insert key value = some t') (hne : key ≠ maxKey) :
    Represents t' (Function.update m key (some value)) := by
  obtain ⟨i, hFind, rfl⟩ := Option.map_eq_some_iff.mp hInsert
  obtain ⟨hi, hFound, hNone⟩ := h.find_spec hFind
  have hKeys : keys { t with entries := Function.update t.entries i ⟨key, value⟩ } =
      Function.update t.keys i key := keys_update t i ⟨key, value⟩
  refine ⟨?_, fun key' hne' value' => ?_, ?_⟩
  · rw [hKeys]
    rw [find_eq_probe] at hFind
    exact h.reachable.update hFind hne
  · by_cases hEq : key' = key
    · subst hEq
      rw [Function.update_self]
      constructor
      · intro hValue
        obtain rfl := Option.some.inj hValue
        exact ⟨i, hi, Function.update_self ..⟩
      · rintro ⟨j, hj, hEntry⟩
        rcases update_cases hEntry with ⟨_, hNew⟩ | ⟨hOther, hOld⟩
        · rw [(Entry.mk.inj hNew).2]
        · exact absurd (h.slot_unique hne hFind hj (congrArg Entry.key hOld)) hOther
    · rw [Function.update_of_ne hEq, h.entries key' hne' value']
      constructor
      · rintro ⟨j, hj, hEntry⟩
        have hOther : j ≠ i := by
          rintro rfl
          have hKey : t.keys j = key' := congrArg Entry.key hEntry
          exact hFound.elim (fun hSame => hEq (hKey.symm.trans hSame))
            fun hMax => hne' (hKey.symm.trans hMax)
        exact ⟨j, hj, (Function.update_of_ne hOther _ _).trans hEntry⟩
      · rintro ⟨j, hj, hEntry⟩
        rcases update_cases hEntry with ⟨_, hNew⟩ | ⟨_, hOld⟩
        · exact absurd (Entry.mk.inj hNew).1 hEq
        · exact ⟨j, hj, hOld⟩
  · rw [Function.update_of_ne hne.symm]
    exact h.max

/-- The largest key is not inserted. -/
theorem insert_maxKey (h : Represents t m) (hInsert : t.insert maxKey value = some t') :
    Represents t' m := by
  obtain ⟨i, hFind, rfl⟩ := Option.map_eq_some_iff.mp hInsert
  obtain ⟨hi, hFound, _⟩ := h.find_spec hFind
  have hEmpty : t.keys i = maxKey := hFound.elim id id
  have hKeys : keys { t with entries := Function.update t.entries i ⟨maxKey, value⟩ } = t.keys := by
    rw [keys_update]
    exact (congrArg (Function.update t.keys i) hEmpty.symm).trans (Function.update_eq_self ..)
  refine ⟨by rw [hKeys]; exact h.reachable, fun key hne value' => ?_, h.max⟩
  rw [h.entries key hne value']
  constructor
  · rintro ⟨j, hj, hEntry⟩
    have hOther : j ≠ i := by
      rintro rfl
      exact hne ((congrArg Entry.key hEntry).symm.trans hEmpty)
    exact ⟨j, hj, (Function.update_of_ne hOther _ _).trans hEntry⟩
  · rintro ⟨j, hj, hEntry⟩
    rcases update_cases hEntry with ⟨_, hNew⟩ | ⟨_, hOld⟩
    · exact absurd (Entry.mk.inj hNew).1 hne
    · exact ⟨j, hj, hOld⟩

/-- A key is looked up. -/
theorem get (h : Represents t m) (hGet : t.get key = some value) (hne : key ≠ maxKey) :
    value = (m key).getD maxValue := by
  obtain ⟨i, hFind, rfl⟩ := Option.map_eq_some_iff.mp hGet
  obtain ⟨hi, hFound, hNone⟩ := h.find_spec hFind
  by_cases hKey : t.keys i = key
  · have hEntry : m key = some (t.entries i).value :=
      (h.entries key hne _).mpr ⟨i, hi, by rw [← hKey]; rfl⟩
    rw [hEntry, Option.getD_some]
    exact if_pos hKey
  · rw [hNone hne hKey, Option.getD_none]
    exact if_neg hKey

/-- There is a slot for the key. -/
theorem find_isSome (h : Represents t m) (D : Finset UInt32) (hD : ∀ key, m key ≠ none → key ∈ D)
    (hRoom : D.card < t.slots ∨ (D.card ≤ t.slots ∧ key ∈ D)) :
    ∃ i, t.find key t.slots (hash key) = some i := by
  have hKeys : ∀ j < t.slots, t.keys j ≠ maxKey → t.keys j ∈ D := by
    intro j hj hne
    refine hD _ (Option.ne_none_iff_exists'.mpr ⟨(t.entries j).value, ?_⟩)
    exact (h.entries _ hne _).mpr ⟨j, hj, rfl⟩
  obtain ⟨i, hi, hSlot⟩ := h.reachable.exists_slot D hKeys hRoom
  rw [find_eq_probe]
  exact probe_isSome hi hSlot _

theorem insert_isSome (h : Represents t m) (D : Finset UInt32) (hD : ∀ key, m key ≠ none → key ∈ D)
    (hRoom : D.card < t.slots ∨ (D.card ≤ t.slots ∧ key ∈ D)) (value : Nat) :
    ∃ t', t.insert key value = some t' := by
  obtain ⟨i, hi⟩ := h.find_isSome D hD hRoom
  exact ⟨_, Option.map_eq_some_iff.mpr ⟨i, hi, rfl⟩⟩

theorem get_isSome (h : Represents t m) (D : Finset UInt32) (hD : ∀ key, m key ≠ none → key ∈ D)
    (hRoom : D.card < t.slots ∨ (D.card ≤ t.slots ∧ key ∈ D)) :
    ∃ value, t.get key = some value := by
  obtain ⟨i, hi⟩ := h.find_isSome D hD hRoom
  exact ⟨_, Option.map_eq_some_iff.mpr ⟨i, hi, rfl⟩⟩

/-- The keys of a table need a slot each. -/
theorem card_le (h : Represents t m) (D : Finset UInt32) (hMax : maxKey ∉ D)
    (hD : ∀ key ∈ D, m key ≠ none) : D.card ≤ t.slots := by
  have hSub : D ⊆ (Finset.range t.slots).image t.keys := by
    intro key hKey
    have hne : key ≠ maxKey := by
      rintro rfl
      exact hMax hKey
    obtain ⟨value, hValue⟩ := Option.ne_none_iff_exists'.mp (hD key hKey)
    obtain ⟨i, hi, hEntry⟩ := (h.entries key hne value).mp hValue
    exact Finset.mem_image.mpr ⟨i, Finset.mem_range.mpr hi, congrArg Entry.key hEntry⟩
  calc D.card ≤ ((Finset.range t.slots).image t.keys).card := Finset.card_le_card hSub
    _ ≤ (Finset.range t.slots).card := Finset.card_image_le
    _ = t.slots := Finset.card_range _

end Represents

/-! ## The constructor -/

section Constructor

variable {slots fuel : Nat} {i : UInt32} {entries entries' : Nat → Entry}

/-- The index wraps below a number of slots that has more than 32 bits, for ever. -/
theorem fill_eq_none (h : 2 ^ 32 ≤ slots) : fill slots fuel i entries = none := by
  induction fuel generalizing i entries with
  | zero => rfl
  | succ fuel ih =>
      have hLess : i.toNat < slots := Nat.lt_of_lt_of_le i.toNat_lt h
      rw [fill, if_pos hLess, ih]

/-- Otherwise the loop ends, and all entries are empty. -/
theorem fill_eq (entries : Nat → Entry) (h : slots < 2 ^ 32) (hFuel : fuel = slots - i.toNat + 1) :
    ∃ entries', fill slots fuel i entries = some entries' ∧
      ∀ j, entries' j =
        if i.toNat ≤ j ∧ j < slots then (⟨maxKey, 0⟩ : Entry) else entries j := by
  induction fuel generalizing i entries with
  | zero => omega
  | succ fuel ih =>
      by_cases hLess : i.toNat < slots
      · have hNext : (i + 1).toNat = i.toNat + 1 := by
          rw [UInt32.toNat_add, show (1 : UInt32).toNat = 1 from rfl]
          exact Nat.mod_eq_of_lt (by omega)
        obtain ⟨entries', hFill, hEntries⟩ :=
          ih (i := i + 1) (Function.update entries i.toNat ⟨maxKey, 0⟩) (by omega)
        refine ⟨entries', by rw [fill, if_pos hLess, hFill], fun j => ?_⟩
        rw [hEntries, hNext]
        by_cases hEq : j = i.toNat
        · subst hEq
          rw [if_neg (by omega), if_pos (by omega), Function.update_self]
        · rw [Function.update_of_ne hEq]
          exact if_congr (by omega) rfl rfl
      · refine ⟨entries, by rw [fill, if_neg hLess], fun j => ?_⟩
        rw [if_neg (by omega)]

/-- The slots of a table in as many bytes as its slots need, when these can be counted. -/
theorem slotsIn_neededBytes {bits value : Nat} (h : nextPowerOfTwo value = 2 ^ bits)
    (hBits : bits < 60) : slotsIn (neededBytes value) = 2 ^ bits := by
  have hLe : 2 ^ bits ≤ 2 ^ 59 := Nat.pow_le_pow_right (by omega) (by omega)
  rw [slotsIn, neededBytes, h, sizeofTable, sizeofEntry]
  omega

end Constructor

/-! ## The table as a map -/

/-- `insert` for each pair, in this order. -/
def insertAll (t : InlineHashtable) (pairs : List (UInt32 × Nat)) : Option InlineHashtable :=
  pairs.foldlM (fun t pair => t.insert pair.1 pair.2) t

/-- The value of the last pair with the key. -/
def lastValue (pairs : List (UInt32 × Nat)) (key : UInt32) : Option Nat :=
  pairs.reverse.lookup key

/-- The table is a map as long as a slot stays empty: every `insert` and every `get` ends, `get`
gives the value inserted last, and a key has one slot. -/
def IsMap (t : InlineHashtable) : Prop :=
  ∀ pairs : List (UInt32 × Nat), (∀ pair ∈ pairs, pair.1 ≠ maxKey) →
    (pairs.map Prod.fst).toFinset.card < t.slots →
    ∃ t', t.insertAll pairs = some t' ∧
      (∀ key, key ≠ maxKey → t'.get key = some ((lastValue pairs key).getD maxValue)) ∧
      ∀ key ∈ pairs.map Prod.fst, ∃! i, i < t.slots ∧ t'.keys i = key

/-- A table for `value` slots can be made in its bytes, whatever these held before, and is a
map. -/
def Usable (value : Nat) (memory : Nat → Entry) : Prop :=
  ∃ bits fuel entries, slotsIn (neededBytes value) = 2 ^ bits ∧ 2 ^ bits = nextPowerOfTwo value ∧
    fill (2 ^ bits) fuel 0 memory = some entries ∧ IsMap ⟨bits, entries⟩

theorem insert_slots {t t' : InlineHashtable} {key : UInt32} {value : Nat}
    (h : t.insert key value = some t') : t'.slots = t.slots := by
  obtain ⟨i, _, rfl⟩ := Option.map_eq_some_iff.mp h
  rfl

theorem lastValue_concat (pairs : List (UInt32 × Nat)) (pair : UInt32 × Nat) :
    lastValue (pairs ++ [pair]) = Function.update (lastValue pairs) pair.1 (some pair.2) := by
  funext key
  rw [lastValue, List.reverse_concat, List.lookup_cons]
  by_cases hEq : key = pair.1
  · subst hEq
    rw [Function.update_self, beq_self_eq_true]
  · rw [Function.update_of_ne hEq, beq_false_of_ne hEq]
    rfl

theorem lastValue_ne_none {pairs : List (UInt32 × Nat)} {key : UInt32} :
    lastValue pairs key ≠ none ↔ key ∈ (pairs.map Prod.fst).toFinset := by
  rw [List.mem_toFinset, lastValue, Ne, List.lookup_eq_none_iff]
  simp only [List.mem_reverse, bne_iff_ne, List.mem_map, not_forall, not_not]
  constructor
  · rintro ⟨pair, hPair, hKey⟩
    exact ⟨pair, hPair, hKey.symm⟩
  · rintro ⟨pair, hPair, hKey⟩
    exact ⟨pair, hPair, hKey.symm⟩

/-- A sequence of inserts into an empty table. -/
theorem Represents.insertAll {t : InlineHashtable} (h : Represents t fun _ => none)
    (pairs : List (UInt32 × Nat)) (hKeys : ∀ pair ∈ pairs, pair.1 ≠ maxKey)
    (hRoom : (pairs.map Prod.fst).toFinset.card < t.slots) :
    ∃ t', t.insertAll pairs = some t' ∧ t'.slots = t.slots ∧ Represents t' (lastValue pairs) := by
  induction pairs using List.reverseRecOn with
  | nil => exact ⟨t, rfl, rfl, h⟩
  | append_singleton pairs pair ih =>
      have hSub : (pairs.map Prod.fst).toFinset ⊆ ((pairs ++ [pair]).map Prod.fst).toFinset := by
        intro key hKey
        rw [List.mem_toFinset, List.map_append]
        exact List.mem_append_left _ (List.mem_toFinset.mp hKey)
      have hRoom' := Nat.lt_of_le_of_lt (Finset.card_le_card hSub) hRoom
      obtain ⟨t₁, hAll, hSlots, h₁⟩ :=
        ih (fun pair hPair => hKeys pair (List.mem_append_left _ hPair)) hRoom'
      have hInserts : ∃ t₂, t₁.insert pair.1 pair.2 = some t₂ :=
        h₁.insert_isSome _ (fun _ => lastValue_ne_none.mp) (Or.inl (hSlots ▸ hRoom')) pair.2
      obtain ⟨t₂, hInsert⟩ := hInserts
      refine ⟨t₂, ?_, (insert_slots hInsert).trans hSlots, ?_⟩
      · rw [InlineHashtable.insertAll, List.foldlM_append]
        rw [InlineHashtable.insertAll] at hAll
        rw [hAll]
        simpa using hInsert
      · rw [lastValue_concat]
        exact h₁.insert hInsert (hKeys pair (by simp))

theorem isMap_of_empty {t : InlineHashtable} (h : Represents t fun _ => none) : IsMap t := by
  intro pairs hKeys hRoom
  obtain ⟨t', hAll, hSlots, h'⟩ := h.insertAll pairs hKeys hRoom
  have hRoom' : (pairs.map Prod.fst).toFinset.card < t'.slots := hSlots ▸ hRoom
  refine ⟨t', hAll, fun key hne => ?_, fun key hKey => ?_⟩
  · have hGets : ∃ value, t'.get key = some value :=
      h'.get_isSome _ (fun _ => lastValue_ne_none.mp) (Or.inl hRoom')
    obtain ⟨value, hValue⟩ := hGets
    rw [hValue, h'.get hValue hne]
  · have hne : key ≠ maxKey := by
      obtain ⟨pair, hPair, rfl⟩ := List.mem_map.mp hKey
      exact hKeys pair hPair
    have hSome := lastValue_ne_none.mpr (List.mem_toFinset.mpr hKey)
    obtain ⟨value, hValue⟩ := Option.ne_none_iff_exists'.mp hSome
    obtain ⟨i, hi, hEntry⟩ := (h'.entries key hne value).mp hValue
    have hFinds : ∃ j, t'.find key t'.slots (hash key) = some j :=
      h'.find_isSome _ (fun _ => lastValue_ne_none.mp) (Or.inl hRoom')
    obtain ⟨j, hFind⟩ := hFinds
    refine ⟨i, ⟨hSlots ▸ hi, congrArg Entry.key hEntry⟩, fun i' hi' => ?_⟩
    rw [h'.slot_unique hne hFind hi (congrArg Entry.key hEntry)]
    exact h'.slot_unique hne hFind (hSlots ▸ hi'.1) hi'.2

/-- A table for a number of slots can be made and is a map exactly when the index of the
constructor's loop can count them. -/
theorem usable_iff {value : Nat} (hPos : 1 ≤ value) (memory : Nat → Entry) :
    Usable value memory ↔ value ≤ 2 ^ 31 := by
  obtain ⟨bits, hNext, hLe, hLt⟩ := nextPowerOfTwo_spec value (Nat.pos_iff_ne_zero.mp hPos)
  constructor
  · rintro ⟨bits', fuel, entries, -, hBits, hFill, -⟩
    by_contra hLarge
    -- a power of two above 2 ^ 31 is at least 2 ^ 32
    have hLarge' : 2 ^ 31 < 2 ^ bits := by omega
    have hMany : 2 ^ 32 ≤ 2 ^ bits :=
      Nat.pow_le_pow_right (by omega) ((Nat.pow_lt_pow_iff_right (by omega)).mp hLarge')
    rw [hBits, hNext, fill_eq_none hMany] at hFill
    contradiction
  · intro hSmall
    have hFew : 2 ^ bits < 2 ^ 32 := by omega
    have hBits : bits < 32 := (Nat.pow_lt_pow_iff_right (by omega)).mp hFew
    obtain ⟨entries, hFill, hEntries⟩ := fill_eq (i := 0) memory hFew rfl
    refine ⟨bits, _, entries, ?_, hNext.symm, hFill, isMap_of_empty (Represents.of_empty ?_)⟩
    · exact slotsIn_neededBytes hNext (by omega)
    · intro i hi
      exact (hEntries i).trans (if_pos ⟨Nat.zero_le i, hi⟩)

theorem usable_three :
    1 ≤ 3 ∧ Usable 3 fun _ => ⟨7, 7⟩ :=
  ⟨by decide, (usable_iff (by decide) _).mpr (by decide)⟩

/-- The constructor of a table with `2 ^ 32` slots does not end. -/
theorem not_usable_two_pow_32 :
    nextPowerOfTwo (2 ^ 32) = 2 ^ 32 ∧ ¬ Usable (2 ^ 32) fun _ => ⟨7, 7⟩ := by
  have hNext : nextPowerOfTwo (2 ^ 32) = 2 ^ 32 := by decide +kernel
  refine ⟨hNext, ?_⟩
  rintro ⟨bits, fuel, entries, -, hBits, hFill, -⟩
  rw [hBits, hNext, fill_eq_none (Nat.le_refl _)] at hFill
  contradiction

end InlineHashtable

end MxTasking.HashJoin
