import Mathlib.Algebra.BigOperators.Group.Multiset.Basic
import Mathlib.Data.Finset.Lattice.Fold
import Mathlib.Data.Multiset.Bind

/-!
# Visiting every node of a tree once

A finite tree, given by the list of children of each node, can be visited in many orders:
depth first, from a worklist, or by a mixture of the two.  What all of them have in common is that
a node that was found is visited later, and that its children are found then.  That is
one equation between the nodes visited and the nodes pending (`Frontier`), and the equation
alone says that no node is visited twice and, when nothing is pending, that none is missed.

## Main results

* `Frontier.visit` — what visiting one node does.
* `Frontier.nodup` — nothing is found twice.
* `Frontier.complete` — when nothing is pending, exactly the nodes of the tree were visited.
* `IsTree.preorder_eq`, `IsForest.below` — in preorder exactly what is below the root is visited.
* `IsForest.not_below_iff` — and what is missed is below a node that is the child of no node.
-/

namespace MxTasking.Verified.Traversal

variable {ι : Type*}

/-- The nodes `S` form a tree: `children` lists the children of a node, each node but the root
is the child of one node, in one place, and children are on lower levels. -/
structure IsTree (S : Finset ι) (root : ι) (children : ι → List ι) (level : ι → Nat) : Prop where
  root_mem : root ∈ S
  child_mem : ∀ p ∈ S, ∀ x ∈ children p, x ∈ S ∧ level x < level p
  nodup : ∀ p ∈ S, (children p).Nodup
  unique : ∀ p ∈ S, ∀ q ∈ S, ∀ x ∈ children p, x ∈ children q → p = q
  root_free : ∀ p ∈ S, root ∉ children p
  covered : ∀ x ∈ S, x ≠ root → ∃ p ∈ S, x ∈ children p

/-- The nodes found so far are the root and the children of the nodes visited. -/
structure Frontier (S : Finset ι) (root : ι) (children : ι → List ι)
    (visited pending : Multiset ι) : Prop where
  found : visited + pending = root ::ₘ visited.bind fun p => ↑(children p)
  mem : ∀ p ∈ visited, p ∈ S

section

variable {S : Finset ι} {root : ι} {children : ι → List ι} {level : ι → Nat}
  {visited pending : Multiset ι}

/-- Nothing but the children of `p` brings up a child of `p`. -/
theorem IsTree.count_children [DecidableEq ι] (h : IsTree S root children level) {p x : ι}
    (hp : p ∈ S) (hx : x ∈ children p) :
    ∀ m : Multiset ι, (∀ q ∈ m, q ∈ S) →
      (m.bind fun q => (children q : Multiset ι)).count x = m.count p := by
  intro m
  induction m using Multiset.induction_on with
  | empty => intro _; simp
  | cons q m ih =>
      intro hMem
      have hq := hMem q (Multiset.mem_cons_self q m)
      rw [Multiset.cons_bind, Multiset.count_add,
        ih fun y hy => hMem y (Multiset.mem_cons_of_mem hy)]
      by_cases hqp : p = q
      · subst hqp
        rw [Multiset.count_cons_self, Multiset.coe_count,
          List.count_eq_one_of_mem (h.nodup p hp) hx, Nat.add_comm]
      · have hNot : x ∉ children q := fun hxq => hqp (h.unique p hp q hq x hx hxq)
        rw [Multiset.count_cons_of_ne hqp, Multiset.coe_count, List.count_eq_zero_of_not_mem hNot,
          Nat.zero_add]

namespace Frontier

/-- At the start only the root has been found. -/
theorem initial : Frontier S root children 0 {root} :=
  ⟨by simp, fun p hp => absurd hp (Multiset.notMem_zero p)⟩

/-- Everything found is a node of the tree. -/
theorem found_mem (h : Frontier S root children visited pending)
    (hTree : IsTree S root children level) {x : ι} (hx : x ∈ visited + pending) : x ∈ S := by
  rw [h.found, Multiset.mem_cons, Multiset.mem_bind] at hx
  rcases hx with rfl | ⟨p, hp, hx⟩
  · exact hTree.root_mem
  · exact (hTree.child_mem p (h.mem p hp) x hx).1

/-- Visiting a node that is pending. -/
theorem visit {x : ι} (h : Frontier S root children visited (x ::ₘ pending)) (hx : x ∈ S) :
    Frontier S root children (x ::ₘ visited) (↑(children x) + pending) := by
  refine ⟨?_, fun p hp => ?_⟩
  · have hFound := h.found
    rw [Multiset.add_cons, ← Multiset.cons_add] at hFound
    rw [Multiset.cons_bind, add_left_comm, hFound, Multiset.add_cons]
  · rcases Multiset.mem_cons.mp hp with rfl | hp
    exacts [hx, h.mem p hp]

/-- How often a node was found: the root once, another node as often as its parent was
visited. -/
theorem count_child [DecidableEq ι] (h : Frontier S root children visited pending)
    (hTree : IsTree S root children level) {p x : ι} (hp : p ∈ S) (hx : x ∈ children p) :
    (visited + pending).count x = visited.count p := by
  have hne : x ≠ root := fun hEq => hTree.root_free p hp (hEq ▸ hx)
  rw [h.found, Multiset.count_cons_of_ne hne, hTree.count_children hp hx visited h.mem]

theorem count_root [DecidableEq ι] (h : Frontier S root children visited pending)
    (hTree : IsTree S root children level) : (visited + pending).count root = 1 := by
  have hNot : root ∉ visited.bind fun p => (children p : Multiset ι) := by
    rw [Multiset.mem_bind]
    rintro ⟨p, hp, hx⟩
    exact hTree.root_free p (h.mem p hp) hx
  rw [h.found, Multiset.count_cons_self, Multiset.count_eq_zero.mpr hNot]

end Frontier

/-- From the root down: what holds of the root and passes from a parent to its children holds of
every node.  The induction is on the distance from the highest level. -/
theorem IsTree.induction (h : IsTree S root children level) {P : ι → Prop} (hRoot : P root)
    (hChild : ∀ p ∈ S, P p → ∀ x ∈ children p, P x) {x : ι} (hx : x ∈ S) : P x := by
  have hBelow : ∀ n x, x ∈ S → S.sup level - level x < n → P x := by
    intro n
    induction n with
    | zero => intro x _ hLess; omega
    | succ n ih =>
        intro x hx hLess
        by_cases hEq : x = root
        · rw [hEq]; exact hRoot
        · obtain ⟨p, hp, hxp⟩ := h.covered x hx hEq
          have hLevel := (h.child_mem p hp x hxp).2
          have hSup : level p ≤ S.sup level := Finset.le_sup hp
          exact hChild p hp (ih p hp (by omega)) x hxp
  exact hBelow _ x hx (Nat.lt_succ_self _)

namespace Frontier

/-- Nothing is found twice. -/
theorem nodup [DecidableEq ι] (h : Frontier S root children visited pending)
    (hTree : IsTree S root children level) : (visited + pending).Nodup := by
  rw [Multiset.nodup_iff_count_le_one]
  intro x
  by_cases hx : x ∈ visited + pending
  · refine hTree.induction (P := fun x => (visited + pending).count x ≤ 1) ?_ ?_
      (h.found_mem hTree hx)
    · rw [h.count_root hTree]
    · intro p hp hCount x hxp
      rw [h.count_child hTree hp hxp]
      rw [Multiset.count_add] at hCount
      omega
  · rw [Multiset.count_eq_zero_of_notMem hx]
    exact Nat.zero_le 1

/-- When nothing is pending, the nodes visited are the nodes of the tree. -/
theorem complete [DecidableEq ι] (h : Frontier S root children visited 0)
    (hTree : IsTree S root children level) : visited = S.val := by
  have hNodup := h.nodup hTree
  rw [Multiset.add_zero] at hNodup
  refine (Multiset.Nodup.ext hNodup S.nodup).mpr fun x => ⟨h.mem x, fun hx => ?_⟩
  have hCount : visited.count x = 1 := by
    refine hTree.induction (P := fun x => visited.count x = 1) ?_ ?_ hx
    · simpa using h.count_root hTree
    · intro p hp hCount x hxp
      rw [← hCount, ← h.count_child hTree hp hxp, Multiset.add_zero]
  exact Multiset.one_le_count_iff_mem.mp (by omega)

end Frontier

/-! ## In preorder -/

/-- A node, and then what is below each of its children. -/
def preorder (children : ι → List ι) : Nat → ι → List ι
  | 0, _ => []
  | fuel + 1, p => p :: (children p).flatMap (preorder children fuel)

/-- Visiting pending nodes in preorder, with all that is below them.  The induction is on the fuel,
which the level bounds. -/
theorem Frontier.preorder (hTree : IsTree S root children level) :
    ∀ fuel p visited pending, level p < fuel → Frontier S root children visited (p ::ₘ pending) →
      Frontier S root children (↑(preorder children fuel p) + visited) pending := by
  intro fuel
  induction fuel with
  | zero => intro p _ _ hLevel; omega
  | succ fuel ih =>
      intro p visited pending hLevel h
      have hp : p ∈ S := h.found_mem hTree (by simp)
      have hBelow : ∀ l : List ι, (∀ q ∈ l, level q < fuel) → ∀ visited,
          Frontier S root children visited (↑l + pending) →
            Frontier S root children (↑(l.flatMap (Traversal.preorder children fuel)) + visited)
              pending := by
        intro l
        induction l with
        | nil => intro _ visited h; simpa using h
        | cons q l ihList =>
            intro hLevels visited h
            rw [← Multiset.cons_coe, Multiset.cons_add] at h
            have hq := ih q _ _ (hLevels q List.mem_cons_self) h
            have hRest := ihList (fun r hr => hLevels r (List.mem_cons_of_mem q hr)) _ hq
            rw [List.flatMap_cons, ← Multiset.coe_add, add_comm (Multiset.ofList _), add_assoc]
            exact hRest
      have hVisit := hBelow _ (fun q hq => by
        have := (hTree.child_mem p hp q hq).2
        omega) _ (h.visit hp)
      rw [Traversal.preorder, ← Multiset.cons_coe, Multiset.cons_add, ← Multiset.add_cons]
      exact hVisit

/-- In preorder every node of the tree comes once. -/
theorem IsTree.preorder_eq [DecidableEq ι] (hTree : IsTree S root children level) {fuel : Nat}
    (hFuel : level root < fuel) : (↑(preorder children fuel root) : Multiset ι) = S.val := by
  have hStart : Frontier S root children 0 {root} := Frontier.initial
  have hVisited := Frontier.preorder hTree fuel root 0 0 hFuel (by simpa using hStart)
  rw [Multiset.add_zero] at hVisited
  exact hVisited.complete hTree

/-! ## What is below the root -/

/-- A tree but for the nodes that are the child of no node. -/
structure IsForest (S : Finset ι) (root : ι) (children : ι → List ι) (level : ι → Nat) : Prop where
  root_mem : root ∈ S
  child_mem : ∀ p ∈ S, ∀ x ∈ children p, x ∈ S ∧ level x < level p
  nodup : ∀ p ∈ S, (children p).Nodup
  unique : ∀ p ∈ S, ∀ q ∈ S, ∀ x ∈ children p, x ∈ children q → p = q
  root_free : ∀ p ∈ S, root ∉ children p

/-- A forest without further roots is a tree. -/
theorem IsForest.isTree (h : IsForest S root children level)
    (hCovered : ∀ x ∈ S, x ≠ root → ∃ p ∈ S, x ∈ children p) : IsTree S root children level :=
  { root_mem := h.root_mem
    child_mem := h.child_mem
    nodup := h.nodup
    unique := h.unique
    root_free := h.root_free
    covered := hCovered }

/-- `x` is below `p`, or is `p`. -/
def Below (children : ι → List ι) : ι → ι → Prop := Relation.ReflTransGen fun p x => x ∈ children p

theorem IsForest.mem_of_below (h : IsForest S root children level) {p x : ι} (hp : p ∈ S)
    (hx : Below children p x) : x ∈ S := by
  induction hx with
  | refl => exact hp
  | tail _ hStep ih => exact (h.child_mem _ ih _ hStep).1

/-- The nodes below the root of a forest form a tree. -/
theorem IsForest.below (h : IsForest S root children level) :
    ∃ T : Finset ι, IsTree T root children level ∧ ∀ x, x ∈ T ↔ Below children root x := by
  classical
  have hMem : ∀ x, Below children root x → x ∈ S := fun x => h.mem_of_below h.root_mem
  have hIff : ∀ x, x ∈ S.filter (Below children root) ↔ Below children root x := fun x => by
    rw [Finset.mem_filter]
    exact ⟨fun hx => hx.2, fun hx => ⟨hMem x hx, hx⟩⟩
  refine ⟨S.filter (Below children root), ?_, hIff⟩
  exact
    { root_mem := (hIff root).mpr .refl
      child_mem := fun p hp x hx => by
        have hBelow := (hIff p).mp hp
        exact ⟨(hIff x).mpr (hBelow.tail hx), (h.child_mem p (hMem p hBelow) x hx).2⟩
      nodup := fun p hp => h.nodup p (hMem p ((hIff p).mp hp))
      unique := fun p hp q hq => h.unique p (hMem p ((hIff p).mp hp)) q (hMem q ((hIff q).mp hq))
      root_free := fun p hp => h.root_free p (hMem p ((hIff p).mp hp))
      covered := fun x hx hne => by
        rcases Relation.ReflTransGen.cases_tail ((hIff x).mp hx) with hEq | ⟨p, hp, hxp⟩
        · exact absurd hEq hne
        · exact ⟨p, (hIff p).mpr hp, hxp⟩ }

/-- Upwards every node comes to one that is the child of no node.  The induction is on the distance
from the highest level. -/
theorem IsForest.exists_top (h : IsForest S root children level) {x : ι} (hx : x ∈ S) :
    ∃ q ∈ S, (∀ p ∈ S, q ∉ children p) ∧ Below children q x := by
  have hClimb : ∀ n x, x ∈ S → S.sup level - level x < n →
      ∃ q ∈ S, (∀ p ∈ S, q ∉ children p) ∧ Below children q x := by
    intro n
    induction n with
    | zero => intro x _ hLess; omega
    | succ n ih =>
        intro x hx hLess
        by_cases hTop : ∃ p ∈ S, x ∈ children p
        · obtain ⟨p, hp, hxp⟩ := hTop
          have hLevel := (h.child_mem p hp x hxp).2
          have hSup : level p ≤ S.sup level := Finset.le_sup hp
          obtain ⟨q, hq, hFree, hBelow⟩ := ih p hp (by omega)
          exact ⟨q, hq, hFree, hBelow.tail hxp⟩
        · exact ⟨x, hx, fun p hp hxp => hTop ⟨p, hp, hxp⟩, .refl⟩
  exact hClimb _ x hx (Nat.lt_succ_self _)

/-- And to one only. -/
theorem IsForest.top_unique (h : IsForest S root children level) {q q' x : ι} (hq : q ∈ S)
    (hq' : q' ∈ S) (hFree : ∀ p ∈ S, q ∉ children p) (hFree' : ∀ p ∈ S, q' ∉ children p)
    (hx : Below children q x) (hx' : Below children q' x) : q = q' := by
  induction hx with
  | refl =>
      rcases Relation.ReflTransGen.cases_tail hx' with hEq | ⟨p, hp, hChild⟩
      · exact hEq
      · exact absurd hChild (hFree p (h.mem_of_below hq' hp))
  | @tail p x hp hChild ih =>
      have hpS := h.mem_of_below hq hp
      rcases Relation.ReflTransGen.cases_tail hx' with rfl | ⟨p', hp', hChild'⟩
      · exact absurd hChild (hFree' p hpS)
      · obtain rfl := h.unique p hpS p' (h.mem_of_below hq' hp') x hChild hChild'
        exact ih hp'

/-- What is not below the root is below another node that is the child of no node. -/
theorem IsForest.not_below_iff (h : IsForest S root children level) {x : ι} (hx : x ∈ S) :
    ¬ Below children root x ↔
      ∃ q ∈ S, q ≠ root ∧ (∀ p ∈ S, q ∉ children p) ∧ Below children q x := by
  constructor
  · intro hNot
    obtain ⟨q, hq, hFree, hBelow⟩ := h.exists_top hx
    refine ⟨q, hq, ?_, hFree, hBelow⟩
    rintro rfl
    exact hNot hBelow
  · rintro ⟨q, hq, hne, hFree, hBelow⟩ hRoot
    exact hne (h.top_unique hq h.root_mem hFree h.root_free hBelow hRoot)

end

end MxTasking.Verified.Traversal
