import Mathlib.Data.Set.Card
import MxTasking.BLinkTree.Destruction
import MxTasking.BLinkTree.NodeIterator
import MxTasking.BLinkTree.Predictions

/-!
# What the tree reports about itself

`node_statistics.h`, `print_statistics()` and the conversion to JSON of `b_link_tree.h`.  The
statistics add up what the iterator visits, which is every node.  The JSON object is written by
recursion over the separators, so it misses a node that no separator leads to yet; with
separators in flight the two differ.

The counters have 64 bits, which no tree fills; `height()` widens the 8 bits of the height.

## Main results

* `statistics_of_run` — the counters in every state of every run.
* `json_of_run` — the JSON object in every state of every run.
-/

namespace MxTasking.BLinkTree

open AbstractTree
open MxTasking.Verified.Slots
open MxTasking.Verified.Traversal

variable {K V : Type*}

/-! ## The program -/

/-- `NodeStatistics`. -/
structure NodeStatistics where
  treeHeight : Nat
  countInnerNodes : Nat := 0
  countLeafNodes : Nat := 0
  countInnerNodeKeys : Nat := 0
  countLeafNodeKeys : Nat := 0
  deriving DecidableEq, Repr

/-- `operator+=`. -/
def NodeStatistics.add (statistics : NodeStatistics) (node : Node K V) : NodeStatistics :=
  let statistics :=
    { statistics with
      countInnerNodes := statistics.countInnerNodes + node.isInner.toNat
      countLeafNodes := statistics.countLeafNodes + node.isLeaf.toNat }
  if node.isLeaf then
    { statistics with countLeafNodeKeys := statistics.countLeafNodeKeys + node.size }
  else { statistics with countInnerNodeKeys := statistics.countInnerNodeKeys + node.size }

/-- `print_statistics()`: the statistics it prints. -/
def Tree.printStatistics (t : Tree K V) (fuel : Nat) : Option NodeStatistics := do
  let nodes ← t.iterate fuel t.begin
  some (nodes.foldl (fun statistics node => statistics.add (t.nodes node))
    { treeHeight := t.height.toNat })

/-- `channel_id`, `is_leaf` and `size` of the JSON object of a node. -/
structure NodeEntry where
  channelId : Nat
  isLeaf : Bool
  size : Nat
  deriving DecidableEq, Repr

/-- The JSON object of a node, without `children` or with it. -/
inductive NodeJson where
  | object (entry : NodeEntry)
  | withChildren (entry : NodeEntry) (children : List NodeJson)

/-- What is written of a node before its children. -/
def Tree.entry (t : Tree K V) (channelId : Nat → Nat) (p : Nat) : NodeEntry :=
  ⟨channelId p, (t.nodes p).isLeaf, (t.nodes p).size⟩

/-- `node_to_json(node)`; `none` where a null pointer is dereferenced. -/
def Tree.nodeToJson (t : Tree K V) (channelId : Nat → Nat) : Nat → Ptr → Option NodeJson
  | 0, _ => none
  | _ + 1, none => none
  | fuel + 1, some node =>
      if (t.nodes node).isInner then do
        let children ← (List.range ((t.nodes node).size + 1)).mapM fun i =>
          t.nodeToJson channelId fuel ((t.nodes node).separators i)
        some (.withChildren (t.entry channelId node) children)
      else some (.object (t.entry channelId node))

/-- The objects a JSON object consists of, each before those of its children. -/
def NodeJson.entries : NodeJson → List NodeEntry
  | .object entry => [entry]
  | .withChildren entry children => entry :: children.flatMap NodeJson.entries

/-! ## The statistics -/

/-- The counters are sums over the nodes. -/
theorem foldl_add (nodes : Nat → Node K V) (visited : List Nat) :
    ∀ statistics : NodeStatistics,
      visited.foldl (fun statistics node => statistics.add (nodes node)) statistics =
        { treeHeight := statistics.treeHeight
          countInnerNodes := statistics.countInnerNodes +
            (visited.map fun p => (nodes p).isInner.toNat).sum
          countLeafNodes := statistics.countLeafNodes +
            (visited.map fun p => (nodes p).isLeaf.toNat).sum
          countInnerNodeKeys := statistics.countInnerNodeKeys +
            (visited.map fun p => if (nodes p).isLeaf then 0 else (nodes p).size).sum
          countLeafNodeKeys := statistics.countLeafNodeKeys +
            (visited.map fun p => if (nodes p).isLeaf then (nodes p).size else 0).sum } := by
  induction visited with
  | nil => intro statistics; simp
  | cons p visited ih =>
      intro statistics
      rw [List.foldl_cons, ih]
      cases hLeaf : (nodes p).isLeaf with
      | true => simp [NodeStatistics.add, hLeaf, Nat.add_assoc]
      | false => simp [NodeStatistics.add, hLeaf, Nat.add_assoc]

/-- The sums over all nodes. -/
def Tree.totals (t : Tree K V) : NodeStatistics where
  treeHeight := t.height.toNat
  countInnerNodes := ((List.range t.count).map fun p => (t.nodes p).isInner.toNat).sum
  countLeafNodes := ((List.range t.count).map fun p => (t.nodes p).isLeaf.toNat).sum
  countInnerNodeKeys :=
    ((List.range t.count).map fun p => if (t.nodes p).isLeaf then 0 else (t.nodes p).size).sum
  countLeafNodeKeys :=
    ((List.range t.count).map fun p => if (t.nodes p).isLeaf then (t.nodes p).size else 0).sum

/-- A loop that visits every node once adds up the totals. -/
theorem printStatistics_eq {t : Tree K V} {fuel : Nat} {visited : List Nat}
    (hIterate : t.iterate fuel t.begin = some visited)
    (hPerm : visited.Perm (List.range t.count)) : t.printStatistics fuel = some t.totals := by
  have hSum : ∀ f : Nat → Nat, (visited.map f).sum = ((List.range t.count).map f).sum :=
    fun f => (hPerm.map f).sum_eq
  rw [Tree.printStatistics, hIterate]
  show some (visited.foldl _ _) = _
  rw [foldl_add, hSum, hSum, hSum, hSum]
  simp only [Nat.zero_add]
  rfl

/-- The entries of the leaves are the records. -/
theorem length_recordsOf (t : Tree K V) (visited : List Nat) :
    (t.recordsOf visited).length =
      (visited.map fun p => if (t.nodes p).isLeaf then (t.nodes p).size else 0).sum := by
  induction visited with
  | nil => rfl
  | cons p visited ih =>
      rw [List.map_cons, List.sum_cons, ← ih]
      cases hLeaf : (t.nodes p).isLeaf with
      | true => simp [Tree.recordsOf, hLeaf, Node.records, firstSlots]
      | false => simp [Tree.recordsOf, hLeaf]

/-- Where every separator is set, the children are the separators. -/
theorem map_eq_map_some (separators : Nat → Ptr) (l : List Nat) :
    (∀ i ∈ l, separators i ≠ none) → l.map separators = (l.filterMap separators).map some := by
  induction l with
  | nil => intro _; rfl
  | cons i l ih =>
      intro h
      obtain ⟨q, hq⟩ := Option.ne_none_iff_exists'.mp (h i List.mem_cons_self)
      rw [List.map_cons, List.filterMap_cons_some hq, List.map_cons, hq,
        ih fun j hj => h j (List.mem_cons_of_mem i hj)]

section Trees

variable {L : Layout K V} {t : Tree K V} {a : AbstractTree K V}

/-- Every node is an inner node or a leaf. -/
theorem totals_nodes (t : Tree K V) :
    t.totals.countInnerNodes + t.totals.countLeafNodes = t.count := by
  have hOne : ∀ p, (t.nodes p).isInner.toNat + (t.nodes p).isLeaf.toNat = 1 := fun p => by
    rw [Node.isLeaf_eq_not_isInner]
    cases (t.nodes p).isInner <;> rfl
  show List.sum _ + List.sum _ = _
  rw [← List.sum_map_add]
  simp [hOne]

variable [LinearOrder K] [BoundedOrder K]

theorem Rep.separators_eq (h : Rep L t a) (hValid : a.Valid) {p : Nat} (hp : p < a.count)
    (hInner : (t.nodes p).isInner = true) :
    (List.range ((t.nodes p).size + 1)).map (t.nodes p).separators =
      (children t p).map some := by
  rw [children, if_pos hInner]
  refine map_eq_map_some _ _ fun i hi => ?_
  obtain ⟨q, hq, _⟩ := h.separator_spec hValid hp ((h.nodes p hp).isInner_iff.mp hInner)
    (Nat.lt_succ_iff.mp (List.mem_range.mp hi))
  rw [hq]
  exact Option.some_ne_none q

/-- An inner node has one child more than keys. -/
theorem Rep.children_length (h : Rep L t a) (hValid : a.Valid) {p : Nat} (hp : p < a.count) :
    (children t p).length = (t.nodes p).isInner.toNat +
      if (t.nodes p).isLeaf then 0 else (t.nodes p).size := by
  rw [Node.isLeaf_eq_not_isInner]
  cases hInner : (t.nodes p).isInner with
  | false => simp [children, hInner]
  | true =>
      have hLength := congrArg List.length (h.separators_eq hValid hp hInner)
      rw [List.length_map, List.length_map, List.length_range] at hLength
      rw [← hLength]
      simp [Nat.add_comm]

/-- The root, the separators and the nodes that are no separators yet are all nodes. -/
theorem Rep.nodes_eq (h : Rep L t a) (hValid : a.Valid) (hRootOnly : a.RootOnly)
    {carried : Multiset Nat} (hNodup : carried.Nodup) (hCarried : ∀ q, q ∈ carried ↔ a.Unposted q) :
    a.root ::ₘ (↑((List.range t.count).flatMap (children t)) + carried) =
      Multiset.range t.count := by
  have hForest := h.isForest hValid hRootOnly
  have hMem : ∀ x, x ∈ (List.range t.count).flatMap (children t) ↔ a.Posted x := by
    intro x
    rw [← h.isSeparator_iff hValid, List.mem_flatMap]
    constructor
    · rintro ⟨p, hp, hx⟩
      obtain ⟨i, hAt⟩ := (mem_children (List.mem_range.mp hp)).mp hx
      exact ⟨p, i, hAt⟩
    · rintro ⟨p, i, hAt⟩
      exact ⟨p, List.mem_range.mpr hAt.1, (mem_children hAt.1).mpr ⟨i, hAt⟩⟩
  have hPosted : ∀ x, a.Posted x → x < t.count := by
    rintro x ⟨p, hp, b, hChild⟩
    rw [h.count]
    exact (hValid.child_some p hp b x hChild).1
  have hSeparators : ((List.range t.count).flatMap (children t)).Nodup := by
    rw [List.nodup_flatMap]
    refine ⟨fun p hp => hForest.nodup p (Finset.mem_range.mpr (List.mem_range.mp hp)), ?_⟩
    refine List.Pairwise.imp_of_mem (fun {p q} hp hq hne => ?_) List.nodup_range
    rw [Function.onFun, List.disjoint_left]
    intro x hx hx'
    exact hne (hForest.unique p (Finset.mem_range.mpr (List.mem_range.mp hp)) q
      (Finset.mem_range.mpr (List.mem_range.mp hq)) x hx hx')
  have hAll : (a.root ::ₘ (↑((List.range t.count).flatMap (children t)) + carried)).Nodup := by
    rw [Multiset.nodup_cons, Multiset.nodup_add, Multiset.mem_add, Multiset.mem_coe,
      Multiset.coe_nodup, hMem, hCarried]
    refine ⟨?_, hSeparators, hNodup, Multiset.disjoint_left.mpr fun {x} hx hx' => ?_⟩
    · rintro (hRoot | hRoot)
      · exact hValid.not_posted_root hRootOnly hRoot
      · exact hRoot.2.1 rfl
    · exact ((hCarried x).mp hx').2.2 ((hMem x).mp hx)
  refine (Multiset.Nodup.ext hAll (Multiset.nodup_range _)).mpr fun x => ?_
  rw [Multiset.mem_cons, Multiset.mem_add, Multiset.mem_coe, hMem, hCarried, Multiset.mem_range]
  constructor
  · rintro (rfl | hx | hx)
    · rw [h.count]
      exact hValid.root_lt
    · exact hPosted x hx
    · rw [h.count]
      exact hx.1
  · intro hx
    by_cases hRoot : x = a.root
    · exact Or.inl hRoot
    by_cases hPost : a.Posted x
    · exact Or.inr (Or.inl hPost)
    · exact Or.inr (Or.inr ⟨by rw [← h.count]; exact hx, hRoot, hPost⟩)

/-- The loop from `begin()` to `end()` visits every node once. -/
theorem Rep.iterates (h : Rep L t a) (hValid : a.Valid) (hRootOnly : a.RootOnly) :
    ∃ visited, (∀ fuel, visited.length < fuel → t.iterate fuel t.begin = some visited) ∧
      visited.Perm (List.range t.count) ∧
      (t.recordsOf visited).Pairwise (fun x y => x.1 < y.1) := by
  obtain ⟨visited, hIterate, hMem, hOrder⟩ := h.iterates_level hValid _ a.root hValid.root_lt rfl
    (hValid.root_low hRootOnly)
  have hLt : ∀ p ∈ visited, p < a.count := fun p hp => ((hMem p).mp hp).1
  have hNodup : visited.Nodup := by
    refine hOrder.imp_of_mem fun {p q} hp _ hBefore hEq => ?_
    subst hEq
    have hRange := hValid.range p (hLt p hp)
    rcases hBefore with hLess | ⟨_, hle⟩
    · exact lt_irrefl _ hLess
    · exact absurd hRange (not_lt.mpr hle)
  refine ⟨visited, fun fuel hFuel => ?_, ?_, h.recordsOf_ascending hValid hLt hOrder⟩
  · rw [Tree.begin, h.root]
    exact hIterate fuel hFuel
  · refine (List.perm_ext_iff_of_nodup hNodup List.nodup_range).mpr fun p => ?_
    rw [hMem p, List.mem_range, h.count]
    exact ⟨fun hp => hp.1, fun hp => ⟨hp, hValid.level_le p hp⟩⟩

/-- What is in place, and what is not. -/
theorem Rep.totals_inner (h : Rep L t a) (hValid : a.Valid) (hRootOnly : a.RootOnly)
    {carried : Multiset Nat} (hNodup : carried.Nodup) (hCarried : ∀ q, q ∈ carried ↔ a.Unposted q) :
    t.totals.countInnerNodeKeys + t.totals.countInnerNodes + 1 + carried.card = t.count := by
  have hCard := congrArg Multiset.card (h.nodes_eq hValid hRootOnly hNodup hCarried)
  rw [Multiset.card_cons, Multiset.card_add, Multiset.coe_card, Multiset.card_range,
    List.length_flatMap] at hCard
  have hLengths : (List.range t.count).map (fun p => (children t p).length) =
      (List.range t.count).map fun p => (t.nodes p).isInner.toNat +
        if (t.nodes p).isLeaf then 0 else (t.nodes p).size :=
    List.map_congr_left fun p hp =>
      h.children_length hValid (by rw [← h.count]; exact List.mem_range.mp hp)
  rw [hLengths, List.sum_map_add] at hCard
  show List.sum _ + List.sum _ + 1 + _ = _
  omega

/-- What `node_to_json` writes below the root of a forest: the objects in preorder. -/
theorem Rep.nodeToJson_spec (h : Rep L t a) (hValid : a.Valid) (hRootOnly : a.RootOnly)
    (channelId : Nat → Nat) :
    ∀ fuel p, p < a.count → (a.nodes p).level < fuel →
      ∃ json, t.nodeToJson channelId fuel (some p) = some json ∧
        json.entries = (preorder (children t) fuel p).map (t.entry channelId) := by
  intro fuel
  induction fuel with
  | zero => intro p _ hLevel; omega
  | succ fuel ih =>
      intro p hp hLevel
      have hForest := h.isForest hValid hRootOnly
      unfold Tree.nodeToJson
      by_cases hInner : (t.nodes p).isInner = true
      · rw [if_pos hInner]
        have hList : ∀ l : List Nat, (∀ q ∈ l, q ∈ children t p) →
            ∃ objects, (l.map some).mapM (t.nodeToJson channelId fuel) = some objects ∧
              objects.flatMap NodeJson.entries =
                (l.flatMap (preorder (children t) fuel)).map (t.entry channelId) := by
          intro l
          induction l with
          | nil => exact fun _ => ⟨[], rfl, rfl⟩
          | cons q l ihList =>
              intro hl
              obtain ⟨hq, hqLevel⟩ := hForest.child_mem p
                (Finset.mem_range.mpr (by rw [h.count]; exact hp)) q (hl q List.mem_cons_self)
              obtain ⟨json, hJson, hEntries⟩ :=
                ih q (by rw [← h.count]; exact Finset.mem_range.mp hq) (by omega)
              obtain ⟨objects, hObjects, hFlat⟩ :=
                ihList fun r hr => hl r (List.mem_cons_of_mem q hr)
              refine ⟨json :: objects, ?_, ?_⟩
              · rw [List.map_cons, List.mapM_cons, hJson, hObjects]
                rfl
              · rw [List.flatMap_cons, hEntries, hFlat, List.flatMap_cons, List.map_append]
        obtain ⟨objects, hObjects, hFlat⟩ := hList (children t p) fun q hq => hq
        rw [← h.separators_eq hValid hp hInner, List.mapM_map] at hObjects
        refine ⟨.withChildren (t.entry channelId p) objects, ?_, ?_⟩
        · rw [show (fun i => t.nodeToJson channelId fuel ((t.nodes p).separators i)) =
            t.nodeToJson channelId fuel ∘ (t.nodes p).separators from rfl, hObjects]
          rfl
        · rw [NodeJson.entries, hFlat, preorder, List.map_cons]
      · rw [if_neg hInner]
        refine ⟨_, rfl, ?_⟩
        rw [NodeJson.entries, preorder, children, if_neg hInner]
        rfl

end Trees

/-! ## Every run -/

section Runs

variable [LinearOrder K] [BoundedOrder K]

/-- Tasks whose key is the largest value of the key type carry no separator. -/
theorem TracedInv.carried_eq {L : Layout K V} {s : TracedState K V} {a : AbstractTree K V}
    (h : TracedInv L s a) :
    carriedSeparators s.untraced.tasks = carriedSeparators s.forget.tasks := by
  have hNone : carriedSeparators
      (s.untraced.tasks.filter fun task => ¬ task.body.key < ⊤) = 0 := by
    refine Multiset.eq_zero_of_forall_notMem fun q hq => ?_
    obtain ⟨task, hTask, hCarried⟩ := (Multiset.mem_filterMap _ _).mp hq
    obtain ⟨hIn, hKey⟩ := Multiset.mem_filter.mp hTask
    obtain ⟨⟨r, own⟩, hOwn, rfl⟩ := Multiset.mem_map.mp hIn
    by_cases hRequest : own.body.IsRequest
    · rw [carried_of_isRequest _ hRequest] at hCarried
      exact absurd hCarried (by simp)
    · exact hKey (h.separators_lt r own hOwn hRequest)
  have hSplit := Multiset.filter_add_not (fun task : Task K V => task.body.key < ⊤)
    s.untraced.tasks
  calc carriedSeparators s.untraced.tasks
      = carriedSeparators (s.untraced.tasks.filter fun task => task.body.key < ⊤) +
          carriedSeparators (s.untraced.tasks.filter fun task => ¬ task.body.key < ⊤) := by
        rw [carriedSeparators, carriedSeparators, carriedSeparators, ← Multiset.filterMap_add,
          hSplit]
    _ = carriedSeparators s.forget.tasks := by rw [hNone, add_zero]; rfl

variable [Zero V]

/-- After every run: the tree in memory and the separators in flight. -/
theorem carried_of_run [Nontrivial K] {L : Layout K V} {memory : Nat → Node K V}
    {log : List (Event K V)} {s : State K V}
    (hRun : Verified.Run (Step L) (State.initial memory) log s) :
    ∃ a : AbstractTree K V, Rep L s.tree a ∧ a.Valid ∧ a.RootOnly ∧ a.Contains (mapAfter log) ∧
      (carriedSeparators s.tasks).Nodup ∧ ∀ q, q ∈ carriedSeparators s.tasks ↔ a.Unposted q := by
  obtain ⟨_, s', hRun', rfl, hMap⟩ := run_traced hRun
  obtain ⟨a, h⟩ := TracedInv.run hRun'
  rw [h.carried_eq]
  exact ⟨a, h.inv.rep, h.inv.valid, h.inv.rootOnly, hMap ▸ h.contains, h.inv.nodup, h.inv.carried⟩

/-- In every state of every run, whatever is in flight, `print_statistics()` ends: its inner and
leaf nodes are all nodes that were created, its leaf entries are the keys of the map, and its
inner entries, one more for each inner node and the root are the nodes that are in place: all but
one for each separator in flight. -/
theorem statistics_of_run [Nontrivial K] (L : Layout K V) (memory : Nat → Node K V)
    (log : List (Event K V)) (s : State K V)
    (hRun : Verified.Run (Step L) (State.initial memory) log s) :
    ∃ statistics bound, (∀ fuel, bound < fuel → s.tree.printStatistics fuel = some statistics) ∧
      statistics.treeHeight = s.tree.height.toNat ∧
      statistics.countInnerNodes + statistics.countLeafNodes = s.tree.count ∧
      statistics.countLeafNodeKeys = {k | mapAfter log k ≠ none}.ncard ∧
      statistics.countInnerNodeKeys + statistics.countInnerNodes + 1 +
        (carriedSeparators s.tasks).card = s.tree.count := by
  classical
  obtain ⟨a, hRep, hValid, hRootOnly, hContains, hNodup, hCarried⟩ := carried_of_run hRun
  obtain ⟨visited, hIterate, hPerm, hAscending⟩ := hRep.iterates hValid hRootOnly
  have hRecords : ∀ k v, (k, v) ∈ s.tree.recordsOf visited ↔ mapAfter log k = some v := by
    intro k v
    rw [hRep.mem_recordsOf_iff hValid (fun p => ?_), hContains k v]
    rw [hPerm.mem_iff, List.mem_range, hRep.count]
  refine ⟨s.tree.totals, visited.length,
    fun fuel hFuel => printStatistics_eq (hIterate fuel hFuel) hPerm, rfl, totals_nodes s.tree, ?_,
    hRep.totals_inner hValid hRootOnly hNodup hCarried⟩
  have hKeys : {k | mapAfter log k ≠ none} =
      (((s.tree.recordsOf visited).map Prod.fst).toFinset : Set K) := by
    ext k
    simp only [Set.mem_ofPred_eq, Finset.mem_coe, List.mem_toFinset, List.mem_map, Prod.exists,
      exists_and_right, exists_eq_right, hRecords, Option.ne_none_iff_exists']
  have hDistinct : ((s.tree.recordsOf visited).map Prod.fst).Nodup :=
    List.pairwise_map.mpr (hAscending.imp fun hLess => ne_of_lt hLess)
  rw [hKeys, Set.ncard_coe_finset, List.toFinset_card_of_nodup hDistinct, List.length_map,
    length_recordsOf]
  exact ((hPerm.map _).sum_eq).symm

/-- Four nodes and one separator in flight: the root, its one entry and the separator are three
nodes beside the root. -/
theorem statistics_of_run_carrying :
    ∃ log s, Verified.Run (Step Layout.smallest) (State.initial zeroMemory) log s ∧
      s.tree.count = 4 ∧ (carriedSeparators s.tasks).card = 1 ∧
      ∃ statistics fuel, s.tree.printStatistics fuel = some statistics ∧
        statistics.countInnerNodeKeys + statistics.countInnerNodes = 2 := by
  obtain ⟨statistics, bound, hPrint, _, _, _, hInner⟩ :=
    statistics_of_run _ _ _ _ run_carrying.of_guarded
  have hCount : carrying.state.tree.count = 4 := by decide
  have hCard : (carriedSeparators carrying.state.tasks).card = 1 := by decide
  exact ⟨_, _, run_carrying.of_guarded, hCount, hCard, statistics, _,
    hPrint _ (Nat.lt_succ_self bound), by omega⟩

/-- In every state of every run the recursion of `node_to_json` ends.  It writes the nodes
that are below the root, each once; what is missing are the nodes below the separators that are in
flight, so with nothing in flight all nodes are written. -/
theorem json_of_run [Nontrivial K] (L : Layout K V) (memory : Nat → Node K V)
    (log : List (Event K V)) (s : State K V) (channelId : Nat → Nat)
    (hRun : Verified.Run (Step L) (State.initial memory) log s) :
    ∃ (bound : Nat) (written : List Nat), (∀ fuel, bound < fuel →
        ∃ json, s.tree.nodeToJson channelId fuel s.tree.root = some json ∧
          json.entries.Perm (written.map (s.tree.entry channelId))) ∧
      written.Nodup ∧
      (∀ root, s.tree.root = some root → ∀ p, p ∈ written ↔ Below (children s.tree) root p) ∧
      (∀ p, p < s.tree.count →
        (p ∉ written ↔ ∃ q ∈ carriedSeparators s.tasks, Below (children s.tree) q p)) ∧
      (s.tasks = 0 → written.Perm (List.range s.tree.count)) := by
  obtain ⟨a, hRep, hValid, hRootOnly, _, _, hCarried⟩ := carried_of_run hRun
  have hForest := hRep.isForest hValid hRootOnly
  obtain ⟨below, hTree, hBelow⟩ := hForest.below
  have hPreorder : ∀ {fuel}, (a.nodes a.root).level < fuel →
      (preorder (children s.tree) fuel a.root : Multiset Nat) = below.val := fun hFuel =>
    hTree.preorder_eq hFuel
  refine ⟨(a.nodes a.root).level, below.toList, fun fuel hFuel => ?_, below.nodup_toList,
    fun root hRoot p => ?_, fun p hp => ?_, fun hTasks => ?_⟩
  · obtain ⟨json, hJson, hEntries⟩ :=
      hRep.nodeToJson_spec hValid hRootOnly channelId fuel a.root hValid.root_lt hFuel
    refine ⟨json, by rw [hRep.root, hJson], ?_⟩
    rw [hEntries]
    refine List.Perm.map _ (Multiset.coe_eq_coe.mp ?_)
    rw [hPreorder hFuel, Finset.coe_toList]
  · obtain rfl : a.root = root := Option.some.inj (hRep.root.symm.trans hRoot)
    rw [Finset.mem_toList, hBelow]
  · -- the other nodes that are the child of no node are in flight
    have hLoose : ∀ q, (q ∈ Finset.range s.tree.count ∧ q ≠ a.root ∧
        ∀ r ∈ Finset.range s.tree.count, q ∉ children s.tree r) ↔
          q ∈ carriedSeparators s.tasks := by
      intro q
      rw [hCarried, Unposted, ← hRep.isSeparator_iff hValid, ← hRep.count, Finset.mem_range]
      refine and_congr_right fun hq => and_congr_right fun _ => ?_
      rw [← not_exists_not]
      refine not_congr ⟨?_, ?_⟩
      · simp only [Classical.not_imp, not_not]
        rintro ⟨r, hr, hChild⟩
        obtain ⟨i, hAt⟩ := (mem_children (Finset.mem_range.mp hr)).mp hChild
        exact ⟨r, i, hAt⟩
      · simp only [Classical.not_imp, not_not]
        rintro ⟨r, i, hAt⟩
        exact ⟨r, Finset.mem_range.mpr hAt.1, (mem_children hAt.1).mpr ⟨i, hAt⟩⟩
    rw [Finset.mem_toList, hBelow, hForest.not_below_iff (Finset.mem_range.mpr hp)]
    constructor
    · rintro ⟨q, hq, hne, hFree, hDown⟩
      exact ⟨q, (hLoose q).mp ⟨hq, hne, hFree⟩, hDown⟩
    · rintro ⟨q, hq, hDown⟩
      obtain ⟨hIn, hne, hFree⟩ := (hLoose q).mpr hq
      exact ⟨q, hIn, hne, hFree, hDown⟩
  · have hPosted : ∀ q, ¬ a.Unposted q := fun q hq => by
      have hIn := (hCarried q).mpr hq
      rw [hTasks] at hIn
      exact absurd hIn (Multiset.notMem_zero q)
    have hAll := (hRep.isTree hValid hRootOnly hPosted).preorder_eq
      (Nat.lt_succ_self (a.nodes a.root).level)
    rw [hPreorder (Nat.lt_succ_self _)] at hAll
    refine Multiset.coe_eq_coe.mp ?_
    rw [Finset.coe_toList, hAll]
    rfl

/-- While the separator for the last leaf is in flight, the other three nodes are written. -/
theorem json_of_run_carrying :
    ∃ log s, Verified.Run (Step Layout.smallest) (State.initial zeroMemory) log s ∧
      s.tree.count = 4 ∧ carriedSeparators s.tasks = {3} ∧ ∃ written : List Nat,
        (∃ fuel json, s.tree.nodeToJson id fuel s.tree.root = some json ∧
          json.entries.Perm (written.map (s.tree.entry id))) ∧
        3 ∉ written ∧ ∀ p < 3, p ∈ written := by
  have hCount : carrying.state.tree.count = 4 := by decide
  have hCarried : carriedSeparators carrying.state.tasks = {3} := by decide
  have hLeaf : children carrying.state.tree 3 = [] := by decide
  obtain ⟨bound, written, hJson, _, _, hMissing, _⟩ :=
    json_of_run _ _ _ _ id run_carrying.of_guarded
  refine ⟨_, _, run_carrying.of_guarded, hCount, hCarried, written,
    ⟨_, hJson _ (Nat.lt_succ_self bound)⟩, ?_, fun p hp => ?_⟩
  · exact (hMissing 3 (by omega)).mpr ⟨3, by rw [hCarried]; exact Multiset.mem_singleton_self 3,
      .refl⟩
  · by_contra hNot
    obtain ⟨q, hq, hBelow⟩ := (hMissing p (by omega)).mp hNot
    rw [hCarried, Multiset.mem_singleton] at hq
    subst hq
    rcases Relation.ReflTransGen.cases_head hBelow with rfl | ⟨r, hChild, _⟩
    · exact absurd hp (Nat.lt_irrefl _)
    · rw [hLeaf] at hChild
      exact absurd hChild List.not_mem_nil

end Runs

end MxTasking.BLinkTree
