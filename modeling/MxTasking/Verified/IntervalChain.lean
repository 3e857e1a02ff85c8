import Mathlib.Order.BoundedOrder.Basic
import Mathlib.Data.Finset.Card
import Mathlib.Data.Finset.Filter

/-!
# Linked chains of half-open intervals

A finite set of nodes, each with a range `[low, high)` and an optional link to
a next node, tiles the key space when ranges do not overlap, a link leads to the
node that starts where this one ends, only a node that reaches the top has no
link, and some node starts at the bottom (`Tiles`).  These are conditions on
one node or one pair of nodes at a time, which is what a split preserves; what they
say together is global: following the links from the bottom node visits
every node once, in order, and each key below the top has one owner.

## Main results

* `Tiles.existsUnique_owner` — the ranges partition the keys below `⊤`.
* `Tiles.chain` — the nodes form one chain from the bottom node on.
-/

namespace MxTasking.Verified.IntervalChain

variable {ι K : Type*}

/-- Following `next` from `p` visits the nodes of the list, in this order, and
then ends. -/
inductive FollowsFrom (next : ι → Option ι) : ι → List ι → Prop where
  | last {p : ι} : next p = none → FollowsFrom next p [p]
  | link {p q : ι} {l : List ι} :
      next p = some q → FollowsFrom next q l → FollowsFrom next p (p :: l)

/-- Every node of a chain but the first is linked from another one. -/
theorem FollowsFrom.exists_link {next : ι → Option ι} {p q : ι} {l : List ι}
    (h : FollowsFrom next p l) (hq : q ∈ l) : q = p ∨ ∃ r ∈ l, next r = some q := by
  induction h with
  | last _ => exact Or.inl (List.mem_singleton.mp hq)
  | @link p r l hNext _ ih =>
      rcases List.mem_cons.mp hq with rfl | hIn
      · exact Or.inl rfl
      · rcases ih hIn with rfl | ⟨r', hr', hLink⟩
        · exact Or.inr ⟨p, List.mem_cons_self, hNext⟩
        · exact Or.inr ⟨r', List.mem_cons_of_mem p hr', hLink⟩

/-- Only the links of the nodes visited matter. -/
theorem FollowsFrom.congr {next next' : ι → Option ι} {p : ι} {l : List ι}
    (h : FollowsFrom next p l) (hEq : ∀ q ∈ l, next' q = next q) : FollowsFrom next' p l := by
  induction h with
  | last hNone => exact FollowsFrom.last ((hEq _ List.mem_cons_self).trans hNone)
  | link hNext _ ih =>
      exact FollowsFrom.link ((hEq _ List.mem_cons_self).trans hNext)
        (ih (fun q hq => hEq q (List.mem_cons_of_mem _ hq)))

/-- The nodes of `S` tile the keys below `⊤` with their ranges `[low, high)`. -/
structure Tiles [LinearOrder K] [BoundedOrder K] (S : Finset ι) (low high : ι → K)
    (next : ι → Option ι) : Prop where
  range : ∀ p ∈ S, low p < high p
  next_none : ∀ p ∈ S, next p = none → high p = ⊤
  next_some : ∀ p ∈ S, ∀ q, next p = some q → q ∈ S ∧ low q = high p
  disjoint : ∀ p ∈ S, ∀ q ∈ S, p ≠ q → high p ≤ low q ∨ high q ≤ low p
  bottom : ∃ p ∈ S, low p = ⊥

namespace Tiles

variable [LinearOrder K] [BoundedOrder K] {S : Finset ι} {low high : ι → K}
  {next : ι → Option ι}

/-- Nothing of `S` starts strictly inside the range of another node. -/
theorem high_le_of_low_lt (h : Tiles S low high next) {p q : ι} (hp : p ∈ S)
    (hq : q ∈ S) (hlt : low p < low q) : high p ≤ low q := by
  have hne : p ≠ q := fun hEq => absurd hlt (hEq ▸ lt_irrefl _)
  rcases h.disjoint p hp q hq hne with hle | hle
  · exact hle
  · exact absurd (lt_of_lt_of_le (h.range q hq) hle) (not_lt.mpr (le_of_lt hlt))

/-- A node is determined by where it starts. -/
theorem eq_of_low_eq (h : Tiles S low high next) {p q : ι} (hp : p ∈ S) (hq : q ∈ S)
    (hEq : low p = low q) : p = q := by
  by_contra hne
  rcases h.disjoint p hp q hq hne with hle | hle
  · exact absurd (lt_of_lt_of_le (h.range p hp) hle) (by rw [hEq]; exact lt_irrefl _)
  · exact absurd (lt_of_lt_of_le (h.range q hq) hle) (by rw [hEq]; exact lt_irrefl _)

/-- A key has at most one owner. -/
theorem owner_unique (h : Tiles S low high next) {p q : ι} {k : K} (hp : p ∈ S)
    (hq : q ∈ S) (hpk : low p ≤ k ∧ k < high p) (hqk : low q ≤ k ∧ k < high q) :
    p = q := by
  by_contra hne
  rcases h.disjoint p hp q hq hne with hle | hle
  · exact absurd (lt_of_lt_of_le hpk.2 hle) (not_lt.mpr hqk.1)
  · exact absurd (lt_of_lt_of_le hqk.2 hle) (not_lt.mpr hpk.1)

/-- A node without a link is the rightmost one. -/
theorem low_le_of_last (h : Tiles S low high next) {p q : ι} (hp : p ∈ S)
    (hLast : next p = none) (hq : q ∈ S) : low q ≤ low p := by
  by_contra hlt
  have hle := h.high_le_of_low_lt hp hq (not_le.mp hlt)
  rw [h.next_none p hp hLast] at hle
  exact absurd (h.range q hq) (not_lt.mpr (le_trans le_top hle))

/-- At a node without a link the chain ends. -/
theorem follows_of_last (h : Tiles S low high next) {p : ι} (hp : p ∈ S)
    (hLast : next p = none) :
    ∃ l, FollowsFrom next p l ∧ l.Nodup ∧ ∀ q, q ∈ l ↔ q ∈ S ∧ low p ≤ low q := by
  refine ⟨[p], FollowsFrom.last hLast, List.nodup_singleton p, fun q => ?_⟩
  rw [List.mem_singleton]
  constructor
  · rintro rfl
    exact ⟨hp, le_refl _⟩
  · rintro ⟨hq, hle⟩
    exact h.eq_of_low_eq hq hp (le_antisymm (h.low_le_of_last hp hLast hq) hle)

omit [BoundedOrder K] in
/-- Fewer nodes start behind the linked node than behind the node itself. -/
theorem card_behind_next {p r : ι} (hr : r ∈ S) (hpr : low p < low r) :
    (S.filter (fun q => low r < low q)).card < (S.filter (fun q => low p < low q)).card := by
  refine Finset.card_lt_card (Finset.ssubset_iff_subset_ne.mpr ⟨fun q hq => ?_, fun hEq => ?_⟩)
  · rw [Finset.mem_filter] at hq ⊢
    exact ⟨hq.1, lt_trans hpr hq.2⟩
  · have hMem : r ∈ S.filter (fun q => low p < low q) :=
      Finset.mem_filter.mpr ⟨hr, hpr⟩
    rw [← hEq, Finset.mem_filter] at hMem
    exact lt_irrefl _ hMem.2

/-- From any node the links lead through all nodes that start at or behind it.
The induction is on the number of nodes that start strictly behind `p`. -/
theorem follows (h : Tiles S low high next) :
    ∀ (m : Nat) (p : ι), p ∈ S → (S.filter (fun q => low p < low q)).card < m →
      ∃ l, FollowsFrom next p l ∧ l.Nodup ∧ ∀ q, q ∈ l ↔ q ∈ S ∧ low p ≤ low q := by
  intro m
  induction m with
  | zero => intro p _ hCard; omega
  | succ m ih =>
      intro p hp hCard
      cases hNext : next p with
      | none => exact h.follows_of_last hp hNext
      | some r =>
          obtain ⟨hr, hLow⟩ := h.next_some p hp r hNext
          have hpr : low p < low r := hLow ▸ h.range p hp
          have hLess := card_behind_next hr hpr
          obtain ⟨l, hFollows, hNodup, hMem⟩ := ih r hr (by omega)
          refine ⟨p :: l, FollowsFrom.link hNext hFollows, ?_, fun q => ?_⟩
          · refine List.nodup_cons.mpr ⟨fun hIn => ?_, hNodup⟩
            exact absurd hpr (not_lt.mpr ((hMem p).mp hIn).2)
          · rw [List.mem_cons, hMem q]
            constructor
            · rintro (rfl | ⟨hq, hle⟩)
              · exact ⟨hp, le_refl _⟩
              · exact ⟨hq, le_trans (le_of_lt hpr) hle⟩
            · rintro ⟨hq, hle⟩
              rcases eq_or_lt_of_le hle with hEq | hlt
              · exact Or.inl (h.eq_of_low_eq hq hp hEq.symm)
              · exact Or.inr ⟨hq, hLow ▸ h.high_le_of_low_lt hp hq hlt⟩

/-- The nodes form one chain: it starts at the bottom, visits every node once
and ends at the node without a link. -/
theorem chain (h : Tiles S low high next) :
    ∃ p l, low p = ⊥ ∧ FollowsFrom next p l ∧ l.Nodup ∧ ∀ q, q ∈ l ↔ q ∈ S := by
  obtain ⟨p, hp, hBot⟩ := h.bottom
  obtain ⟨l, hFollows, hNodup, hMem⟩ := h.follows _ p hp (Nat.lt_succ_self _)
  refine ⟨p, l, hBot, hFollows, hNodup, fun q => ?_⟩
  rw [hMem q, hBot]
  exact ⟨fun hq => hq.1, fun hq => ⟨hq, bot_le⟩⟩

/-- A chain visits its nodes from left to right. -/
theorem follows_ordered (h : Tiles S low high next) {p : ι} {l : List ι}
    (hFollows : FollowsFrom next p l) (hp : p ∈ S) :
    (∀ q ∈ l, low p ≤ low q) ∧ l.Pairwise (fun q r => high q ≤ low r) := by
  induction hFollows with
  | @last p _ => simp
  | @link p q l hNext _ ih =>
      obtain ⟨hq, hLow⟩ := h.next_some p hp q hNext
      obtain ⟨hFrom, hOrder⟩ := ih hq
      have hBehind : ∀ r ∈ l, high p ≤ low r := fun r hr => hLow ▸ hFrom r hr
      refine ⟨fun r hr => ?_, List.pairwise_cons.mpr ⟨hBehind, hOrder⟩⟩
      rcases List.mem_cons.mp hr with rfl | hIn
      · exact le_refl _
      · exact le_trans (h.range p hp).le (hBehind r hIn)

/-- The nodes a chain visits cover every key from its start on. -/
theorem covers (h : Tiles S low high next) {p : ι} {l : List ι}
    (hFollows : FollowsFrom next p l) (hp : p ∈ S) {k : K} (hle : low p ≤ k)
    (hTop : k < ⊤) : ∃ q ∈ S, low q ≤ k ∧ k < high q := by
  induction hFollows with
  | @last p hNone => exact ⟨p, hp, hle, h.next_none p hp hNone ▸ hTop⟩
  | @link p q l hNext _ ih =>
      obtain ⟨hq, hLow⟩ := h.next_some p hp q hNext
      by_cases hlt : k < high p
      · exact ⟨p, hp, hle, hlt⟩
      · exact ih hq (hLow ▸ not_lt.mp hlt)

/-- The ranges partition the keys below `⊤`. -/
theorem existsUnique_owner (h : Tiles S low high next) {k : K}
    (hTop : k < ⊤) : ∃! p, p ∈ S ∧ low p ≤ k ∧ k < high p := by
  obtain ⟨p, l, hBot, hFollows, _, hMem⟩ := h.chain
  have hp : p ∈ S := by
    rw [← hMem p]
    cases hFollows <;> exact List.mem_cons_self
  obtain ⟨q, hq, hRange⟩ := h.covers hFollows hp (hBot ▸ bot_le) hTop
  exact ⟨q, ⟨hq, hRange⟩, fun r hr => h.owner_unique hr.1 hq hr.2 hRange⟩

end Tiles

end MxTasking.Verified.IntervalChain
