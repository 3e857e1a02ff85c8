import MxTasking.BLinkTree.Abstract

/-!
# The operations keep the abstract tree valid

One section per operation: what it leaves of a node, that the invariant
survives, what becomes of the set of posted nodes and of the contents.

## Main results

* `Valid.put`, `Valid.attach`, `Valid.split`, `Valid.grow` — the operations keep
  the invariant.
* `put_stores`, `attach_stores`, `split_stores`, `grow_stores` — of the four only `put`
  changes the contents, at one key.
* `put_posted`, `attach_posted`, `split_posted`, `grow_posted` — which nodes are posted.
-/

namespace MxTasking.BLinkTree.AbstractTree

open MxTasking.Verified.Slots

variable {K V : Type*} [LinearOrder K]
variable {a : AbstractTree K V} {p q x : Nat} {k m : K} {v : V}

/-! ## Storing a record -/

section Put

@[simp] theorem put_count : (a.put p k v).count = a.count := rfl

@[simp] theorem put_root : (a.put p k v).root = a.root := rfl

@[simp] theorem put_level : ((a.put p k v).nodes x).level = (a.nodes x).level := by
  by_cases hx : x = p <;> simp [put, hx]

@[simp] theorem put_low : ((a.put p k v).nodes x).low = (a.nodes x).low := by
  by_cases hx : x = p <;> simp [put, hx]

@[simp] theorem put_high : ((a.put p k v).nodes x).high = (a.nodes x).high := by
  by_cases hx : x = p <;> simp [put, hx]

@[simp] theorem put_right : ((a.put p k v).nodes x).right = (a.nodes x).right := by
  by_cases hx : x = p <;> simp [put, hx]

@[simp] theorem put_parent : ((a.put p k v).nodes x).parent = (a.nodes x).parent := by
  by_cases hx : x = p <;> simp [put, hx]

@[simp] theorem put_child : ((a.put p k v).nodes x).child = (a.nodes x).child := by
  by_cases hx : x = p <;> simp [put, hx]

theorem put_record_self :
    ((a.put p k v).nodes p).record = Function.update (a.nodes p).record k (some v) := by
  simp [put]

theorem put_record_of_ne (hx : x ≠ p) :
    ((a.put p k v).nodes x).record = (a.nodes x).record := by
  simp [put, hx]

theorem put_rootOnly (h : a.RootOnly) : (a.put p k v).RootOnly := by
  simpa [RootOnly] using h

theorem put_extends (a : AbstractTree K V) (p : Nat) (k : K) (v : V) :
    a.Extends (a.put p k v) :=
  ⟨le_refl _, fun _ _ => put_level, fun _ _ => put_low⟩

theorem put_posted : (a.put p k v).Posted q ↔ a.Posted q := by
  simp [Posted]

variable [BoundedOrder K]

theorem Valid.put (h : a.Valid) (hp : p < a.count) (hLeaf : (a.nodes p).level = 0)
    (hk : (a.nodes p).low ≤ k ∧ k < (a.nodes p).high) : (a.put p k v).Valid := by
  refine
    { root_lt := h.root_lt
      range := by simpa using h.range
      right_none := by simpa using h.right_none
      right_some := by simpa using h.right_some
      disjoint := by simpa using h.disjoint
      bottom := by simpa using h.bottom
      level_le := by simpa using h.level_le
      child_some := by simpa using h.child_some
      child_low := by simpa using h.child_low
      record_some := ?_
      parent_some := by simpa using h.parent_some }
  intro x hx k' v' hRec
  simp only [put_level, put_low, put_high]
  by_cases hxp : x = p
  · subst hxp
    rw [put_record_self] at hRec
    by_cases hkk : k' = k
    · subst hkk; exact ⟨hLeaf, hk⟩
    · rw [Function.update_of_ne hkk] at hRec
      exact h.record_some x hx k' v' hRec
  · rw [put_record_of_ne hxp] at hRec
    exact h.record_some x hx k' v' hRec

/-- Storing a record at the node that owns its key updates the contents at that
key. -/
theorem put_stores (h : a.Valid) (hp : p < a.count) (hLeaf : (a.nodes p).level = 0)
    (hk : (a.nodes p).low ≤ k ∧ k < (a.nodes p).high) (k' : K) (v' : V) :
    (a.put p k v).Stores k' v' ↔ (k' = k ∧ v' = v) ∨ (k' ≠ k ∧ a.Stores k' v') := by
  constructor
  · rintro ⟨x, hx, hRec⟩
    by_cases hxp : x = p
    · subst hxp
      rw [put_record_self] at hRec
      by_cases hkk : k' = k
      · subst hkk
        simp only [Function.update_self, Option.some.injEq] at hRec
        exact Or.inl ⟨rfl, hRec.symm⟩
      · rw [Function.update_of_ne hkk] at hRec
        exact Or.inr ⟨hkk, x, hx, hRec⟩
    · rw [put_record_of_ne hxp] at hRec
      obtain ⟨hLevel, hRange⟩ := h.record_some x hx k' v' hRec
      refine Or.inr ⟨fun hkk => hxp ?_, x, hx, hRec⟩
      exact h.owner_unique hx hp (hLevel.trans hLeaf.symm) (hkk ▸ hRange) hk
  · rintro (⟨rfl, rfl⟩ | ⟨hkk, x, hx, hRec⟩)
    · exact ⟨p, hp, by rw [put_record_self, Function.update_self]⟩
    · refine ⟨x, hx, ?_⟩
      by_cases hxp : x = p
      · subst hxp
        rw [put_record_self, Function.update_of_ne hkk]
        exact hRec
      · rw [put_record_of_ne hxp]
        exact hRec

end Put

/-! ## Posting a child -/

section Attach

@[simp] theorem attach_count : (a.attach p k q).count = a.count := rfl

@[simp] theorem attach_root : (a.attach p k q).root = a.root := rfl

@[simp] theorem attach_level : ((a.attach p k q).nodes x).level = (a.nodes x).level := by
  simp only [attach]; split_ifs <;> simp [*]

@[simp] theorem attach_low : ((a.attach p k q).nodes x).low = (a.nodes x).low := by
  simp only [attach]; split_ifs <;> simp [*]

@[simp] theorem attach_high : ((a.attach p k q).nodes x).high = (a.nodes x).high := by
  simp only [attach]; split_ifs <;> simp [*]

@[simp] theorem attach_right : ((a.attach p k q).nodes x).right = (a.nodes x).right := by
  simp only [attach]; split_ifs <;> simp [*]

@[simp] theorem attach_record : ((a.attach p k q).nodes x).record = (a.nodes x).record := by
  simp only [attach]; split_ifs <;> simp [*]

theorem attach_child_self :
    ((a.attach p k q).nodes p).child = Function.update (a.nodes p).child k (some q) := by
  simp [attach]

theorem attach_child_of_ne (hx : x ≠ p) :
    ((a.attach p k q).nodes x).child = (a.nodes x).child := by
  simp only [attach, hx, if_false]; split_ifs <;> simp [*]

theorem attach_parent_self (hq : q ≠ p) : ((a.attach p k q).nodes q).parent = some p := by
  simp [attach, hq]

theorem attach_parent_of_ne (hx : x ≠ q) :
    ((a.attach p k q).nodes x).parent = (a.nodes x).parent := by
  simp only [attach]; split_ifs <;> simp [*]

/-- What a node must satisfy to take `q` as its child with low bound `k`. -/
structure Fits (a : AbstractTree K V) (p : Nat) (k : K) (q : Nat) : Prop where
  lt : p < a.count
  child_lt : q < a.count
  level_eq : (a.nodes q).level + 1 = (a.nodes p).level
  low_eq : (a.nodes q).low = k
  low_le : (a.nodes p).low ≤ k
  lt_high : k < (a.nodes p).high

theorem Fits.ne (h : a.Fits p k q) : q ≠ p := by
  rintro rfl
  have := h.level_eq
  omega

/-- A child after the posting is the posted one or an old one. -/
theorem attach_child_cases {b : K} {y : Nat}
    (hChild : ((a.attach p k q).nodes x).child b = some y) :
    (x = p ∧ b = k ∧ y = q) ∨ (a.nodes x).child b = some y := by
  by_cases hxp : x = p
  · subst hxp
    rw [attach_child_self] at hChild
    by_cases hbk : b = k
    · subst hbk
      rw [Function.update_self, Option.some.injEq] at hChild
      exact Or.inl ⟨rfl, rfl, hChild.symm⟩
    · rw [Function.update_of_ne hbk] at hChild
      exact Or.inr hChild
  · rw [attach_child_of_ne hxp] at hChild
    exact Or.inr hChild

theorem attach_extends (a : AbstractTree K V) (p : Nat) (k : K) (q : Nat) :
    a.Extends (a.attach p k q) :=
  ⟨le_refl _, fun _ _ => attach_level, fun _ _ => attach_low⟩

theorem attach_rootOnly (h : a.RootOnly) (hqp : q ≠ p) (hqr : q ≠ a.root) :
    (a.attach p k q).RootOnly := by
  intro x hx
  by_cases hxq : x = q
  · subst hxq
    simpa [attach_parent_self hqp] using hqr
  · rw [attach_parent_of_ne hxq]
    exact h x hx

theorem attach_stores : (a.attach p k q).Stores m v ↔ a.Stores m v := by
  simp [Stores]

variable [BoundedOrder K]

/-- No node holds a separator with the low bound of a node that is not posted. -/
theorem Valid.child_eq_none (h : a.Valid) (hFits : a.Fits p k q) (hNew : ¬ a.Posted q) :
    (a.nodes p).child k = none := by
  cases hChild : (a.nodes p).child k with
  | none => rfl
  | some y =>
      obtain ⟨hy, hLevel, hLow, _⟩ := h.child_some p hFits.lt k y hChild
      have hEq : y = q := h.eq_of_low hy hFits.child_lt
        (by have := hFits.level_eq; omega) (hLow.trans hFits.low_eq.symm)
      exact absurd ⟨p, hFits.lt, k, hEq ▸ hChild⟩ hNew

/-- A child that is not posted starts strictly inside the node it fits into. -/
theorem Valid.low_lt_of_fits (h : a.Valid) (hFits : a.Fits p k q) (hNew : ¬ a.Posted q) :
    (a.nodes p).low < k := by
  refine lt_of_le_of_ne hFits.low_le (fun hEq => ?_)
  have hLevel := hFits.level_eq
  refine h.child_low p hFits.lt (by omega) ?_
  rw [hEq]
  exact h.child_eq_none hFits hNew

theorem Valid.attach (h : a.Valid) (hFits : a.Fits p k q) (hNew : ¬ a.Posted q) :
    (a.attach p k q).Valid := by
  refine
    { root_lt := h.root_lt
      range := by simpa using h.range
      right_none := by simpa using h.right_none
      right_some := by simpa using h.right_some
      disjoint := by simpa using h.disjoint
      bottom := by simpa using h.bottom
      level_le := by simpa using h.level_le
      child_some := ?_
      child_low := ?_
      record_some := by simpa using h.record_some
      parent_some := ?_ }
  · intro x hx b y hChild
    simp only [attach_count, attach_level, attach_low, attach_high]
    rcases attach_child_cases hChild with ⟨rfl, rfl, rfl⟩ | hOld
    · exact ⟨hFits.child_lt, hFits.level_eq, hFits.low_eq, attach_parent_self hFits.ne,
        hFits.low_le, hFits.lt_high⟩
    · -- an old child is not `q`, so its parent link is untouched
      have hyq : y ≠ q := fun hEq => hNew ⟨x, hx, b, hEq ▸ hOld⟩
      rw [attach_parent_of_ne hyq]
      exact h.child_some x hx b y hOld
  · intro x hx hLevel
    rw [attach_level] at hLevel
    rw [attach_low]
    have hOld := h.child_low x hx hLevel
    by_cases hxp : x = p
    · subst hxp
      rw [attach_child_self]
      by_cases hLow : (a.nodes x).low = k
      · simp [hLow]
      · rwa [Function.update_of_ne hLow]
    · rwa [attach_child_of_ne hxp]
  · intro x hx y hParent
    simp only [attach_count, attach_level, attach_low]
    by_cases hxq : x = q
    · subst hxq
      rw [attach_parent_self hFits.ne, Option.some.injEq] at hParent
      subst hParent
      exact ⟨hFits.lt, hFits.level_eq.symm, hFits.low_eq ▸ hFits.low_le⟩
    · rw [attach_parent_of_ne hxq] at hParent
      exact h.parent_some x hx y hParent

theorem attach_posted (h : a.Valid) (hFits : a.Fits p k q) (hNew : ¬ a.Posted q) :
    (a.attach p k q).Posted x ↔ a.Posted x ∨ x = q := by
  constructor
  · rintro ⟨y, hy, b, hChild⟩
    rcases attach_child_cases hChild with ⟨_, _, hEq⟩ | hOld
    · exact Or.inr hEq
    · exact Or.inl ⟨y, hy, b, hOld⟩
  · rintro (⟨y, hy, b, hChild⟩ | rfl)
    · refine ⟨y, hy, b, ?_⟩
      by_cases hyp : y = p
      · subst hyp
        have hbk : b ≠ k := by
          rintro rfl
          rw [h.child_eq_none hFits hNew] at hChild
          exact absurd hChild (by simp)
        rwa [attach_child_self, Function.update_of_ne hbk]
      · rwa [attach_child_of_ne hyp]
    · exact ⟨p, hFits.lt, k, by rw [attach_child_self, Function.update_self]⟩

end Attach

/-! ## Splitting a node -/

section Split

@[simp] theorem split_count : (a.split p m).count = a.count + 1 := rfl

@[simp] theorem split_root : (a.split p m).root = a.root := rfl

theorem split_level (hx : x ≠ a.count) :
    ((a.split p m).nodes x).level = (a.nodes x).level := by
  simp only [split, hx, if_false]; split_ifs <;> simp [*]

theorem split_low (hx : x ≠ a.count) : ((a.split p m).nodes x).low = (a.nodes x).low := by
  simp only [split, hx, if_false]; split_ifs <;> simp [*]

theorem split_high_self : ((a.split p m).nodes p).high = m := by simp [split]

theorem split_right_self : ((a.split p m).nodes p).right = some a.count := by simp [split]

theorem split_child_self : ((a.split p m).nodes p).child = below m (a.nodes p).child := by
  simp [split]

theorem split_record_self :
    ((a.split p m).nodes p).record = below m (a.nodes p).record := by
  simp [split]

theorem split_new (hp : p < a.count) (m : K) :
    (a.split p m).nodes a.count =
      { a.nodes p with
        low := m
        child := fromOn m (a.nodes p).child
        record := fromOn m (a.nodes p).record } := by
  simp [split, Nat.ne_of_gt hp]

theorem split_other (hxp : x ≠ p) (hx : x ≠ a.count) :
    (a.split p m).nodes x =
      { a.nodes x with
        parent := if a.Moves p m x then some a.count else (a.nodes x).parent } := by
  simp only [split, hxp, hx, ↓reduceIte]
  split <;> rfl

theorem split_parent_self : ((a.split p m).nodes p).parent = (a.nodes p).parent := by
  simp [split]

/-- Every node of the tree after a split is the one split, the new one or another one. -/
private theorem split_cases (hx : x < (a.split p m).count) :
    x = p ∨ x = a.count ∨ (x ≠ p ∧ x ≠ a.count ∧ x < a.count) := by
  rw [split_count] at hx
  omega

/-- The parent link after a split of a node that does not move. -/
theorem split_parent_of_not_moves (hx : x ≠ a.count) (hMoves : ¬ a.Moves p m x) :
    ((a.split p m).nodes x).parent = (a.nodes x).parent := by
  by_cases hxp : x = p
  · subst hxp; exact split_parent_self
  · rw [split_other hxp hx, if_neg hMoves]

theorem split_extends (a : AbstractTree K V) (p : Nat) (m : K) : a.Extends (a.split p m) :=
  ⟨Nat.le_succ _, fun _ hx => split_level (Nat.ne_of_lt hx),
    fun _ hx => split_low (Nat.ne_of_lt hx)⟩

/-- A split posts nobody: in particular not the new node. -/
theorem split_posted (hp : p < a.count) :
    (a.split p m).Posted x ↔ a.Posted x := by
  constructor
  · rintro ⟨y, hy, b, hChild⟩
    rcases split_cases hy with rfl | rfl | ⟨hyp, hyn, hyc⟩
    · rw [split_child_self, below] at hChild
      split at hChild
      · exact ⟨y, hp, b, hChild⟩
      · exact absurd hChild (by simp)
    · rw [split_new hp] at hChild
      dsimp only [fromOn] at hChild
      split at hChild
      · exact absurd hChild (by simp)
      · exact ⟨p, hp, b, hChild⟩
    · rw [split_other hyp hyn] at hChild
      exact ⟨y, hyc, b, hChild⟩
  · rintro ⟨y, hy, b, hChild⟩
    by_cases hyp : y = p
    · subst hyp
      by_cases hlt : b < m
      · exact ⟨y, Nat.lt_succ_of_lt hp, b, by rw [split_child_self, below, if_pos hlt, hChild]⟩
      · refine ⟨a.count, Nat.lt_succ_self _, b, ?_⟩
        rw [split_new hp]
        dsimp only [fromOn]
        rw [if_neg hlt, hChild]
    · refine ⟨y, Nat.lt_succ_of_lt hy, b, ?_⟩
      rw [split_other hyp (Nat.ne_of_lt hy)]
      exact hChild

theorem split_stores (hp : p < a.count) : (a.split p m).Stores k v ↔ a.Stores k v := by
  constructor
  · rintro ⟨x, hx, hRec⟩
    rcases split_cases hx with rfl | rfl | ⟨hxp, hxn, hxc⟩
    · rw [split_record_self, below] at hRec
      split at hRec
      · exact ⟨x, hp, hRec⟩
      · exact absurd hRec (by simp)
    · rw [split_new hp] at hRec
      dsimp only [fromOn] at hRec
      split at hRec
      · exact absurd hRec (by simp)
      · exact ⟨p, hp, hRec⟩
    · rw [split_other hxp hxn] at hRec
      exact ⟨x, hxc, hRec⟩
  · rintro ⟨x, hx, hRec⟩
    by_cases hxp : x = p
    · subst hxp
      by_cases hlt : k < m
      · exact ⟨x, Nat.lt_succ_of_lt hp, by rw [split_record_self, below, if_pos hlt, hRec]⟩
      · refine ⟨a.count, Nat.lt_succ_self _, ?_⟩
        rw [split_new hp]
        dsimp only [fromOn]
        rw [if_neg hlt, hRec]
    · refine ⟨x, Nat.lt_succ_of_lt hx, ?_⟩
      rw [split_other hxp (Nat.ne_of_lt hx)]
      exact hRec

variable [BoundedOrder K]

/-- A moved child is a child of the split node and starts at or behind the cut. -/
theorem Valid.of_moves (h : a.Valid) (hp : p < a.count) (hMoves : a.Moves p m x) :
    m ≤ (a.nodes x).low ∧ (a.nodes p).child (a.nodes x).low = some x ∧
      (a.nodes x).level + 1 = (a.nodes p).level ∧ (a.nodes x).parent = some p := by
  unfold Moves fromOn at hMoves
  split at hMoves
  · exact absurd hMoves (by simp)
  · rename_i hge
    obtain ⟨_, hLevel, _, hParent, _⟩ := h.child_some p hp _ x hMoves
    exact ⟨not_lt.mp hge, hMoves, hLevel, hParent⟩

/-- The separators and records of the two halves are those of the split node. -/
theorem split_child_some (h : a.Valid) (hp : p < a.count) :
    ∀ x, x < (a.split p m).count → ∀ b y, ((a.split p m).nodes x).child b = some y →
      y < a.count ∧ (a.nodes y).level + 1 = ((a.split p m).nodes x).level ∧
        (a.nodes y).low = b ∧ ((a.split p m).nodes y).parent = some x ∧
        ((a.split p m).nodes x).low ≤ b ∧ b < ((a.split p m).nodes x).high := by
  intro x hx b y hChild
  rcases split_cases hx with rfl | rfl | ⟨hxp, hxn, hxc⟩
  · rw [split_child_self] at hChild
    unfold below at hChild
    split at hChild
    · rename_i hlt
      obtain ⟨hy, hLevel, hLow, hParent, hRange⟩ := h.child_some x hp b y hChild
      rw [split_parent_of_not_moves (Nat.ne_of_lt hy), split_level (Nat.ne_of_lt hp),
        split_low (Nat.ne_of_lt hp), split_high_self]
      · exact ⟨hy, hLevel, hLow, hParent, hRange.1, hlt⟩
      · intro hMoves
        exact absurd (hLow ▸ (h.of_moves hp hMoves).1) (not_le.mpr hlt)
    · exact absurd hChild (by simp)
  · rw [split_new hp] at hChild ⊢
    dsimp only at hChild ⊢
    have hMoved := hChild
    unfold fromOn at hChild
    split at hChild
    · exact absurd hChild (by simp)
    · rename_i hge
      obtain ⟨hy, hLevel, hLow, hParent, hRange⟩ := h.child_some p hp b y hChild
      have hyp : y ≠ p := by rintro rfl; omega
      have hMoves : a.Moves p m y := by unfold Moves; rw [hLow]; exact hMoved
      rw [split_other hyp (Nat.ne_of_lt hy), if_pos hMoves]
      exact ⟨hy, hLevel, hLow, rfl, not_lt.mp hge, hRange.2⟩
  · rw [split_other hxp hxn] at hChild ⊢
    dsimp only at hChild ⊢
    obtain ⟨hy, hLevel, hLow, hParent, hRange⟩ := h.child_some x hxc b y hChild
    rw [split_parent_of_not_moves (Nat.ne_of_lt hy)]
    · exact ⟨hy, hLevel, hLow, hParent, hRange⟩
    · -- a moved node is a child of `p`, not of `x`
      intro hMoves
      rw [(h.of_moves hp hMoves).2.2.2, Option.some.injEq] at hParent
      exact hxp hParent.symm

theorem split_parent_some (h : a.Valid) (hp : p < a.count) (hLow : (a.nodes p).low < m) :
    ∀ x, x < (a.split p m).count → ∀ y, ((a.split p m).nodes x).parent = some y →
      y < (a.split p m).count ∧
        ((a.split p m).nodes y).level = ((a.split p m).nodes x).level + 1 ∧
        ((a.split p m).nodes y).low ≤ ((a.split p m).nodes x).low := by
  intro x hx y hParent
  rcases split_cases hx with rfl | rfl | ⟨hxp, hxn, hxc⟩
  · rw [split_parent_self] at hParent
    obtain ⟨hy, hLevel, hyLow⟩ := h.parent_some x hp y hParent
    rw [split_level (Nat.ne_of_lt hy), split_low (Nat.ne_of_lt hy),
      split_level (Nat.ne_of_lt hp), split_low (Nat.ne_of_lt hp)]
    exact ⟨Nat.lt_succ_of_lt hy, hLevel, hyLow⟩
  · rw [split_new hp] at hParent ⊢
    dsimp only at hParent ⊢
    obtain ⟨hy, hLevel, hyLow⟩ := h.parent_some p hp y hParent
    rw [split_level (Nat.ne_of_lt hy), split_low (Nat.ne_of_lt hy)]
    exact ⟨Nat.lt_succ_of_lt hy, hLevel, le_of_lt (lt_of_le_of_lt hyLow hLow)⟩
  · rw [split_level hxn, split_low hxn]
    by_cases hMoves : a.Moves p m x
    · rw [split_other hxp hxn, if_pos hMoves, Option.some.injEq] at hParent
      subst hParent
      obtain ⟨hle, _, hLevel, _⟩ := h.of_moves hp hMoves
      rw [split_new hp]
      exact ⟨Nat.lt_succ_self _, hLevel.symm, hle⟩
    · rw [split_parent_of_not_moves hxn hMoves] at hParent
      obtain ⟨hy, hLevel, hyLow⟩ := h.parent_some x hxc y hParent
      rw [split_level (Nat.ne_of_lt hy), split_low (Nat.ne_of_lt hy)]
      exact ⟨Nat.lt_succ_of_lt hy, hLevel, hyLow⟩

theorem split_right_some (h : a.Valid) (hp : p < a.count) :
    ∀ x, x < (a.split p m).count → ∀ y, ((a.split p m).nodes x).right = some y →
      y < (a.split p m).count ∧
        ((a.split p m).nodes y).level = ((a.split p m).nodes x).level ∧
        ((a.split p m).nodes y).low = ((a.split p m).nodes x).high := by
  -- an old right link leads to an old node, which keeps its level and low bound
  have hOld : ∀ x, x < a.count → ∀ y, (a.nodes x).right = some y →
      y < (a.split p m).count ∧ ((a.split p m).nodes y).level = (a.nodes x).level ∧
        ((a.split p m).nodes y).low = (a.nodes x).high := by
    intro x hx y hRight
    obtain ⟨hy, hLevel, hyLow⟩ := h.right_some x hx y hRight
    rw [split_level (Nat.ne_of_lt hy), split_low (Nat.ne_of_lt hy)]
    exact ⟨Nat.lt_succ_of_lt hy, hLevel, hyLow⟩
  intro x hx y hRight
  rcases split_cases hx with rfl | rfl | ⟨hxp, hxn, hxc⟩
  · rw [split_right_self, Option.some.injEq] at hRight
    subst hRight
    rw [split_new hp, split_level (Nat.ne_of_lt hp), split_high_self]
    exact ⟨Nat.lt_succ_self _, rfl, rfl⟩
  · rw [split_new hp] at hRight ⊢
    exact hOld p hp y hRight
  · rw [split_other hxp hxn] at hRight ⊢
    exact hOld x hxc y hRight

theorem Valid.split (h : a.Valid) (hp : p < a.count) (hLow : (a.nodes p).low < m)
    (hHigh : m < (a.nodes p).high)
    (hChild : 0 < (a.nodes p).level → (a.nodes p).child m ≠ none) :
    (a.split p m).Valid := by
  refine
    { root_lt := Nat.lt_succ_of_lt h.root_lt
      range := ?_
      right_none := ?_
      right_some := split_right_some h hp
      disjoint := ?_
      bottom := ?_
      level_le := ?_
      child_some := ?_
      child_low := ?_
      record_some := ?_
      parent_some := split_parent_some h hp hLow }
  · intro x hx
    rcases split_cases hx with rfl | rfl | ⟨hxp, hxn, hxc⟩
    · rw [split_low (Nat.ne_of_lt hp), split_high_self]; exact hLow
    · rw [split_new hp]; exact hHigh
    · rw [split_other hxp hxn]; exact h.range x hxc
  · intro x hx hNone
    rcases split_cases hx with rfl | rfl | ⟨hxp, hxn, hxc⟩
    · rw [split_right_self] at hNone; exact absurd hNone (by simp)
    · rw [split_new hp] at hNone ⊢; exact h.right_none p hp hNone
    · rw [split_other hxp hxn] at hNone ⊢; exact h.right_none x hxc hNone
  · intro x hx y hy hLevel hne
    -- the two halves border each other; against any other node the old ranges decide
    have hOld := h.disjoint
    rcases split_cases hx with rfl | rfl | ⟨hxp, hxn, hxc⟩ <;>
      rcases split_cases hy with rfl | rfl | ⟨hyp, hyn, hyc⟩ <;>
      simp only [split_high_self, split_level, split_low, split_new, split_other, *, ne_eq,
        not_false_eq_true, not_true_eq_false, Nat.ne_of_lt hp] at hLevel hne ⊢ <;>
      grind
  · intro l hl
    rw [split_root, split_level (Nat.ne_of_lt h.root_lt)] at hl
    obtain ⟨x, hx, hLevel, hxLow⟩ := h.bottom l hl
    refine ⟨x, Nat.lt_succ_of_lt hx, ?_, ?_⟩
    · rw [split_level (Nat.ne_of_lt hx)]; exact hLevel
    · rw [split_low (Nat.ne_of_lt hx)]; exact hxLow
  · intro x hx
    rw [split_root, split_level (Nat.ne_of_lt h.root_lt)]
    rcases split_cases hx with rfl | rfl | ⟨hxp, hxn, hxc⟩
    · rw [split_level (Nat.ne_of_lt hp)]; exact h.level_le x hp
    · rw [split_new hp]; exact h.level_le p hp
    · rw [split_level hxn]; exact h.level_le x hxc
  · intro x hx b y hy
    obtain ⟨hyc, hLevel, hyLow, hRest⟩ := split_child_some h hp x hx b y hy
    rw [split_level (Nat.ne_of_lt hyc), split_low (Nat.ne_of_lt hyc)]
    exact ⟨Nat.lt_succ_of_lt hyc, hLevel, hyLow, hRest⟩
  · intro x hx hLevel
    rcases split_cases hx with rfl | rfl | ⟨hxp, hxn, hxc⟩
    · rw [split_level (Nat.ne_of_lt hp)] at hLevel
      rw [split_child_self, split_low (Nat.ne_of_lt hp), below, if_pos hLow]
      exact h.child_low x hp hLevel
    · rw [split_new hp] at hLevel ⊢
      dsimp only
      rw [fromOn, if_neg (lt_irrefl m)]
      exact hChild hLevel
    · rw [split_other hxp hxn] at hLevel ⊢
      exact h.child_low x hxc hLevel
  · intro x hx k v hRec
    rcases split_cases hx with rfl | rfl | ⟨hxp, hxn, hxc⟩
    · rw [split_record_self, below] at hRec
      split at hRec
      · rename_i hlt
        obtain ⟨hLevel, hRange⟩ := h.record_some x hp k v hRec
        rw [split_level (Nat.ne_of_lt hp), split_low (Nat.ne_of_lt hp), split_high_self]
        exact ⟨hLevel, hRange.1, hlt⟩
      · exact absurd hRec (by simp)
    · rw [split_new hp] at hRec ⊢
      dsimp only [fromOn] at hRec ⊢
      split at hRec
      · exact absurd hRec (by simp)
      · rename_i hge
        obtain ⟨hLevel, hRange⟩ := h.record_some p hp k v hRec
        exact ⟨hLevel, not_lt.mp hge, hRange.2⟩
    · rw [split_other hxp hxn] at hRec ⊢
      exact h.record_some x hxc k v hRec

/-- A split node hands its parent link to the new one; nobody else loses one. -/
theorem split_parent_none (h : a.Valid) (hp : p < a.count) (hx : x < (a.split p m).count) :
    ((a.split p m).nodes x).parent = none ↔
      if x = a.count then (a.nodes p).parent = none else (a.nodes x).parent = none := by
  rcases split_cases hx with rfl | rfl | ⟨hxp, hxn, hxc⟩
  · rw [split_parent_self, if_neg (Nat.ne_of_lt hp)]
  · rw [split_new hp, if_pos rfl]
  · rw [split_other hxp hxn, if_neg hxn]
    dsimp only
    split
    · rename_i hMoves
      rw [(h.of_moves hp hMoves).2.2.2]
      simp
    · rfl

theorem split_rootOnly (h : a.Valid) (hRoot : a.RootOnly) (hp : p < a.count)
    (hne : p ≠ a.root) : (a.split p m).RootOnly := by
  intro x hx
  rw [split_parent_none h hp hx, split_root]
  split
  · rename_i hEq
    rw [hRoot p hp, hEq]
    exact ⟨fun h' => absurd h' hne, fun h' => absurd h' (Nat.ne_of_gt h.root_lt)⟩
  · exact hRoot x (by rw [split_count] at hx; omega)

end Split

/-! ## Growing a new root -/

section Grow

variable [BoundedOrder K]

@[simp] theorem grow_count : (a.grow q m).count = a.count + 1 := rfl

@[simp] theorem grow_root : (a.grow q m).root = a.count := rfl

theorem grow_new (a : AbstractTree K V) (q : Nat) (m : K) :
    (a.grow q m).nodes a.count =
      { level := (a.nodes a.root).level + 1
        low := ⊥
        high := ⊤
        right := none
        parent := none
        child := Function.update (Function.update (fun _ => none) ⊥ (some a.root)) m (some q)
        record := fun _ => none } := by
  simp [grow]

theorem grow_other (hx : x ≠ a.count) :
    (a.grow q m).nodes x =
      { a.nodes x with
        parent := if x = a.root ∨ x = q then some a.count else (a.nodes x).parent } := by
  simp only [grow, hx, ↓reduceIte]
  split <;> rfl

theorem grow_level (hx : x ≠ a.count) :
    ((a.grow q m).nodes x).level = (a.nodes x).level := by
  rw [grow_other hx]

theorem grow_low (hx : x ≠ a.count) : ((a.grow q m).nodes x).low = (a.nodes x).low := by
  rw [grow_other hx]

/-- What holds of the root and its new sibling `q` when a root is put over them. -/
structure RootSplit (a : AbstractTree K V) (q : Nat) (m : K) : Prop where
  lt : q < a.count
  level_eq : (a.nodes q).level = (a.nodes a.root).level
  low_eq : (a.nodes q).low = m
  bot_lt : ⊥ < m
  root_low : (a.nodes a.root).low = ⊥
  parent_none : ∀ x, x < a.count → ((a.nodes x).parent = none ↔ x = a.root ∨ x = q)

/-- The children of the new root. -/
theorem grow_child_cases {b : K} {y : Nat}
    (hChild : ((a.grow q m).nodes a.count).child b = some y) :
    (b = m ∧ y = q) ∨ (b = ⊥ ∧ y = a.root) := by
  rw [grow_new] at hChild
  dsimp only at hChild
  by_cases hbm : b = m
  · subst hbm
    rw [Function.update_self, Option.some.injEq] at hChild
    exact Or.inl ⟨rfl, hChild.symm⟩
  · rw [Function.update_of_ne hbm] at hChild
    by_cases hbb : b = ⊥
    · subst hbb
      rw [Function.update_self, Option.some.injEq] at hChild
      exact Or.inr ⟨rfl, hChild.symm⟩
    · rw [Function.update_of_ne hbb] at hChild
      exact absurd hChild (by simp)

theorem Valid.grow (h : a.Valid) (hSplit : a.RootSplit q m) : (a.grow q m).Valid := by
  have hTop : m < ⊤ := lt_of_lt_of_le (hSplit.low_eq ▸ h.range q hSplit.lt) le_top
  have hCases : ∀ x, x < (a.grow q m).count → x = a.count ∨ (x ≠ a.count ∧ x < a.count) := by
    intro x hx
    rw [grow_count] at hx
    omega
  refine
    { root_lt := Nat.lt_succ_self _
      range := ?_
      right_none := ?_
      right_some := ?_
      disjoint := ?_
      bottom := ?_
      level_le := ?_
      child_some := ?_
      child_low := ?_
      record_some := ?_
      parent_some := ?_ }
  · intro x hx
    rcases hCases x hx with rfl | ⟨hxn, hxc⟩
    · rw [grow_new]; exact lt_trans hSplit.bot_lt hTop
    · rw [grow_other hxn]; exact h.range x hxc
  · intro x hx hNone
    rcases hCases x hx with rfl | ⟨hxn, hxc⟩
    · rw [grow_new]
    · rw [grow_other hxn] at hNone ⊢; exact h.right_none x hxc hNone
  · intro x hx y hRight
    rcases hCases x hx with rfl | ⟨hxn, hxc⟩
    · rw [grow_new] at hRight; exact absurd hRight (by simp)
    · rw [grow_other hxn] at hRight ⊢
      obtain ⟨hy, hLevel, hLow⟩ := h.right_some x hxc y hRight
      rw [grow_level (Nat.ne_of_lt hy), grow_low (Nat.ne_of_lt hy)]
      exact ⟨Nat.lt_succ_of_lt hy, hLevel, hLow⟩
  · -- the new root is alone on its level
    intro x hx y hy hLevel hne
    have hLe := h.level_le
    rcases hCases x hx with rfl | ⟨hxn, hxc⟩ <;> rcases hCases y hy with rfl | ⟨hyn, hyc⟩
    · exact absurd rfl hne
    · rw [grow_new, grow_level hyn] at hLevel
      have := hLe y hyc
      dsimp only at hLevel
      omega
    · rw [grow_new, grow_level hxn] at hLevel
      have := hLe x hxc
      dsimp only at hLevel
      omega
    · rw [grow_other hxn, grow_other hyn] at hLevel ⊢
      exact h.disjoint x hxc y hyc hLevel hne
  · intro l hl
    rw [grow_root, grow_new] at hl
    dsimp only at hl
    rcases Nat.lt_or_eq_of_le hl with hlt | rfl
    · obtain ⟨x, hx, hLevel, hLow⟩ := h.bottom l (by omega)
      refine ⟨x, Nat.lt_succ_of_lt hx, ?_, ?_⟩
      · rw [grow_level (Nat.ne_of_lt hx)]; exact hLevel
      · rw [grow_low (Nat.ne_of_lt hx)]; exact hLow
    · exact ⟨a.count, Nat.lt_succ_self _, by rw [grow_new], by rw [grow_new]⟩
  · intro x hx
    rw [grow_root, grow_new]
    rcases hCases x hx with rfl | ⟨hxn, hxc⟩
    · rw [grow_new]
    · rw [grow_level hxn]; exact Nat.le_succ_of_le (h.level_le x hxc)
  · intro x hx b y hChild
    rcases hCases x hx with rfl | ⟨hxn, hxc⟩
    · rcases grow_child_cases hChild with ⟨rfl, rfl⟩ | ⟨rfl, rfl⟩
      · rw [grow_new, grow_other (Nat.ne_of_lt hSplit.lt), if_pos (Or.inr rfl)]
        exact ⟨Nat.lt_succ_of_lt hSplit.lt, by rw [hSplit.level_eq], hSplit.low_eq, rfl,
          bot_le, hTop⟩
      · rw [grow_new, grow_other (Nat.ne_of_lt h.root_lt), if_pos (Or.inl rfl)]
        exact ⟨Nat.lt_succ_of_lt h.root_lt, rfl, hSplit.root_low, rfl, le_refl _,
          lt_trans hSplit.bot_lt hTop⟩
    · rw [grow_other hxn] at hChild ⊢
      obtain ⟨hy, hLevel, hLow, hParent, hRange⟩ := h.child_some x hxc b y hChild
      -- a child has a parent, the old root and `q` have none
      have hne : ¬ (y = a.root ∨ y = q) := by
        rw [← hSplit.parent_none y hy, hParent]
        simp
      rw [grow_other (Nat.ne_of_lt hy), if_neg hne]
      exact ⟨Nat.lt_succ_of_lt hy, hLevel, hLow, hParent, hRange⟩
  · intro x hx hLevel
    rcases hCases x hx with rfl | ⟨hxn, hxc⟩
    · rw [grow_new]
      dsimp only
      rw [Function.update_of_ne (ne_of_lt hSplit.bot_lt), Function.update_self]
      simp
    · rw [grow_other hxn] at hLevel ⊢
      exact h.child_low x hxc hLevel
  · intro x hx k v hRec
    rcases hCases x hx with rfl | ⟨hxn, hxc⟩
    · rw [grow_new] at hRec; exact absurd hRec (by simp)
    · rw [grow_other hxn] at hRec ⊢
      exact h.record_some x hxc k v hRec
  · intro x hx y hParent
    rcases hCases x hx with rfl | ⟨hxn, hxc⟩
    · rw [grow_new] at hParent; exact absurd hParent (by simp)
    · rw [grow_other hxn] at hParent
      rw [grow_level hxn, grow_low hxn]
      dsimp only at hParent
      split at hParent
      · rename_i hOver
        rw [Option.some.injEq] at hParent
        subst hParent
        rw [grow_new]
        refine ⟨Nat.lt_succ_self _, ?_, bot_le⟩
        rcases hOver with rfl | rfl
        · rfl
        · rw [hSplit.level_eq]
      · obtain ⟨hy, hLevel, hLow⟩ := h.parent_some x hxc y hParent
        rw [grow_level (Nat.ne_of_lt hy), grow_low (Nat.ne_of_lt hy)]
        exact ⟨Nat.lt_succ_of_lt hy, hLevel, hLow⟩

theorem grow_extends (a : AbstractTree K V) (q : Nat) (m : K) : a.Extends (a.grow q m) :=
  ⟨Nat.le_succ _, fun _ hx => grow_level (Nat.ne_of_lt hx),
    fun _ hx => grow_low (Nat.ne_of_lt hx)⟩

theorem grow_rootOnly (hSplit : a.RootSplit q m) : (a.grow q m).RootOnly := by
  intro x hx
  rw [grow_root]
  by_cases hxn : x = a.count
  · subst hxn
    rw [grow_new]
    simp
  · have hxc : x < a.count := by rw [grow_count] at hx; omega
    rw [grow_other hxn]
    dsimp only
    split
    · simp [hxn]
    · rename_i hne
      rw [hSplit.parent_none x hxc]
      exact ⟨fun h' => absurd h' hne, fun h' => absurd h' hxn⟩

/-- The new root posts the old one and its sibling. -/
theorem grow_posted (hSplit : a.RootSplit q m) :
    (a.grow q m).Posted x ↔ a.Posted x ∨ x = a.root ∨ x = q := by
  constructor
  · rintro ⟨y, hy, b, hChild⟩
    by_cases hyn : y = a.count
    · subst hyn
      rcases grow_child_cases hChild with ⟨_, hEq⟩ | ⟨_, hEq⟩
      · exact Or.inr (Or.inr hEq)
      · exact Or.inr (Or.inl hEq)
    · rw [grow_other hyn] at hChild
      exact Or.inl ⟨y, by rw [grow_count] at hy; omega, b, hChild⟩
  · rintro (⟨y, hy, b, hChild⟩ | rfl | rfl)
    · exact ⟨y, Nat.lt_succ_of_lt hy, b, by rw [grow_other (Nat.ne_of_lt hy)]; exact hChild⟩
    · refine ⟨a.count, Nat.lt_succ_self _, ⊥, ?_⟩
      rw [grow_new]
      dsimp only
      rw [Function.update_of_ne (ne_of_lt hSplit.bot_lt), Function.update_self]
    · refine ⟨a.count, Nat.lt_succ_self _, m, ?_⟩
      rw [grow_new]
      dsimp only
      rw [Function.update_self]

theorem grow_stores : (a.grow q m).Stores k v ↔ a.Stores k v := by
  constructor
  · rintro ⟨x, hx, hRec⟩
    by_cases hxn : x = a.count
    · subst hxn
      rw [grow_new] at hRec
      exact absurd hRec (by simp)
    · rw [grow_other hxn] at hRec
      exact ⟨x, by rw [grow_count] at hx; omega, hRec⟩
  · rintro ⟨x, hx, hRec⟩
    exact ⟨x, Nat.lt_succ_of_lt hx, by rw [grow_other (Nat.ne_of_lt hx)]; exact hRec⟩

end Grow

end MxTasking.BLinkTree.AbstractTree
