import MxTasking.BLinkTree.Answers
import MxTasking.BLinkTree.Splits
import MxTasking.Verified.Counting

/-!
# The usage the tree predicts

`channel_occupancy.h`, `Builder::schedule` and the predictions of the tree.  Every node is
placed on a channel when it is created, and the channel counts what is predicted for its nodes:
the root is used excessively, other inner nodes often, other leaves normally.  A new root
takes the excessive prediction of the old one back, possibly many splits after it was made.

A counter has 64 bits.  No tree has that many nodes, so adding to one does not wrap around;
subtracting from 0 does.

## Main results

* `Tally.predict`, `Tally.modify` — the counters are numbers of nodes.
* `execute_outline` — what an execution does to the nodes, the root and the predictions.
* `predictions_of_run` — the counters in every state of every run.
-/

namespace MxTasking.BLinkTree

open MxTasking.Tasking (AccessFrequency)

/-! ## The program -/

/-- `ChannelOccupancy`: `_predicted_usage_counter`. -/
abbrev ChannelOccupancy := AccessFrequency → Nat

namespace ChannelOccupancy

/-- `predict(predicted_usage)`. -/
def predict (o : ChannelOccupancy) (usage : AccessFrequency) : ChannelOccupancy :=
  Function.update o usage (o usage + 1)

/-- `revoke(predicted_usage)`: `fetch_sub(1)`. -/
def revoke (o : ChannelOccupancy) (usage : AccessFrequency) : ChannelOccupancy :=
  Function.update o usage (if o usage = 0 then 2 ^ 64 - 1 else o usage - 1)

end ChannelOccupancy

/-- What `Builder::schedule` finds when it places a node: all resources share the counter, and
other resources are predicted to be used excessively as well. -/
structure Placement where
  roundRobinChannelId : Nat
  /-- The counter when it is fetched a second time. -/
  nextChannelId : Nat
  hasExcessiveUsagePrediction : Nat → Bool

/-- `Builder::schedule(hint)` for a hint without a channel: the channel of the resource. -/
def schedule (countChannels : Nat) (isExclusive : Bool) (placement : Placement) : Nat :=
  let channelId := placement.roundRobinChannelId % countChannels
  if 2 < countChannels ∧ isExclusive ∧ placement.hasExcessiveUsagePrediction channelId then
    placement.nextChannelId % countChannels
  else channelId

/-- The occupancies of the channels after a prediction; `channelId` is the channel of a node. -/
def Prediction.apply (channelId : Nat → Nat) (o : Nat → ChannelOccupancy) :
    Prediction → Nat → ChannelOccupancy
  | .predict node usage =>
      Function.update o (channelId node) ((o (channelId node)).predict usage)
  | .modify node old new =>
      Function.update o (channelId node) (((o (channelId node)).revoke old).predict new)

/-- The occupancies after the predictions of a log. -/
def occupancyAfter (channelId : Nat → Nat) (log : List Prediction) : Nat → ChannelOccupancy :=
  log.foldl (Prediction.apply channelId) (fun _ _ => 0)

/-- No prediction of the log was revoked from a counter that was 0. -/
def NoUnderflow (channelId : Nat → Nat) (log : List Prediction) : Prop :=
  ∀ earlier node old new, earlier ++ [.modify node old new] <+: log →
    occupancyAfter channelId earlier (channelId node) old ≠ 0

/-- The predictions the channels have to know of: the counters of the channel of the root,
and for each channel how many inner nodes and leaves there are. -/
structure Tree.Predicted {K V : Type*} (t : Tree K V) (channelId : Nat → Nat) (root : Nat) :
    Prop where
  is_root : t.root = some root
  lt : root < t.count
  excessive : ∀ channel, occupancyAfter channelId t.predictions channel .excessive =
    if channel = channelId root then 1 else 0
  high : ∀ channel, occupancyAfter channelId t.predictions channel .high =
    Nat.count (fun p => p ≠ root ∧ (t.nodes p).isInner = true ∧ channelId p = channel) t.count
  normal : ∀ channel, occupancyAfter channelId t.predictions channel .normal =
    Nat.count (fun p => p ≠ root ∧ (t.nodes p).isLeaf = true ∧ channelId p = channel) t.count
  unused : ∀ channel, occupancyAfter channelId t.predictions channel .unused = 0
  revoked : NoUnderflow channelId t.predictions

/-! ## The counters as numbers of nodes -/

section Tally

/-- One prediction more. -/
theorem apply_predict (channelId : Nat → Nat) (o : Nat → ChannelOccupancy) (p channel : Nat)
    (u v : AccessFrequency) :
    Prediction.apply channelId o (.predict p u) channel v =
      o channel v + if channelId p = channel ∧ u = v then 1 else 0 := by
  rw [Prediction.apply, ChannelOccupancy.predict]
  by_cases hChannel : channelId p = channel
  · subst hChannel
    rw [Function.update_self]
    by_cases hUsage : u = v
    · subst hUsage
      simp
    · rw [Function.update_of_ne (Ne.symm hUsage), if_neg (fun hBoth => hUsage hBoth.2)]
      rfl
  · rw [Function.update_of_ne (Ne.symm hChannel), if_neg (fun hBoth => hChannel hBoth.1)]
    rfl

/-- One prediction in place of another. -/
theorem apply_modify (channelId : Nat → Nat) (o : Nat → ChannelOccupancy) (p channel : Nat)
    (old new v : AccessFrequency) (hPos : o (channelId p) old ≠ 0) :
    Prediction.apply channelId o (.modify p old new) channel v +
        (if channelId p = channel ∧ old = v then 1 else 0) =
      o channel v + if channelId p = channel ∧ new = v then 1 else 0 := by
  rw [Prediction.apply, ChannelOccupancy.predict, ChannelOccupancy.revoke]
  by_cases hChannel : channelId p = channel
  · subst hChannel
    rw [Function.update_self, if_neg hPos]
    by_cases hNew : new = v <;> by_cases hOld : old = v
    · subst hNew
      subst hOld
      simp only [Function.update_self, and_self, if_true]
      omega
    · subst hNew
      simp [Ne.symm hOld, hOld]
    · subst hOld
      simp only [Function.update_of_ne (Ne.symm hNew), Function.update_self, and_self, if_true,
        hNew, and_false, if_false]
      omega
    · simp [Function.update_of_ne (Ne.symm hNew), Function.update_of_ne (Ne.symm hOld), hNew, hOld]
  · rw [Function.update_of_ne (Ne.symm hChannel), if_neg (fun hBoth => hChannel hBoth.1),
      if_neg (fun hBoth => hChannel hBoth.1)]

/-- Every node below `count` has one prediction in force, `usage`, and the counters say how many
there are. -/
def Tally (channelId : Nat → Nat) (o : Nat → ChannelOccupancy) (count : Nat)
    (usage : Nat → AccessFrequency) : Prop :=
  ∀ channel u, o channel u = Nat.count (fun p => channelId p = channel ∧ usage p = u) count

variable {channelId : Nat → Nat} {o : Nat → ChannelOccupancy} {count p : Nat}
  {usage usage' : Nat → AccessFrequency} {old new u : AccessFrequency}

theorem Tally.congr (h : Tally channelId o count usage) (hSame : ∀ p < count, usage' p = usage p) :
    Tally channelId o count usage' := by
  intro channel u
  rw [h channel u]
  apply Verified.count_congr
  intro p hp
  rw [hSame p hp]

/-- A new node is predicted. -/
theorem Tally.predict (h : Tally channelId o count usage)
    (hSame : ∀ p < count, usage' p = usage p) (hNew : usage' count = u) :
    Tally channelId (Prediction.apply channelId o (.predict count u)) (count + 1) usage' := by
  intro channel v
  rw [apply_predict, Nat.count_succ, hNew, ← h.congr hSame channel v]

/-- The prediction of a node is modified; it is one of those that are counted. -/
theorem Tally.modify (h : Tally channelId o count usage) (hp : p < count) (hOld : usage p = old)
    (usage' : Nat → AccessFrequency) (hSame : ∀ q < count, q ≠ p → usage' q = usage q)
    (hNew : usage' p = new) :
    o (channelId p) old ≠ 0 ∧
      Tally channelId (Prediction.apply channelId o (.modify p old new)) count usage' := by
  have hPos : o (channelId p) old ≠ 0 := by
    rw [h (channelId p) old, Nat.count_ne_iff_exists]
    exact ⟨p, hp, rfl, hOld⟩
  refine ⟨hPos, fun channel v => ?_⟩
  have hApply := apply_modify channelId o p channel old new v hPos
  have hChange := Verified.count_change (P := fun q => channelId q = channel ∧ usage q = v)
    (Q := fun q => channelId q = channel ∧ usage' q = v) hp
    (fun q hq hne => by rw [hSame q hq hne])
  rw [← h channel v, hOld, hNew] at hChange
  omega

theorem occupancyAfter_snoc (channelId : Nat → Nat) (log : List Prediction) (e : Prediction) :
    occupancyAfter channelId (log ++ [e]) = Prediction.apply channelId
      (occupancyAfter channelId log) e := by
  rw [occupancyAfter, List.foldl_append]
  rfl

theorem NoUnderflow.predict {log : List Prediction} (h : NoUnderflow channelId log) (p : Nat)
    (u : AccessFrequency) : NoUnderflow channelId (log ++ [.predict p u]) := by
  intro earlier node old new hPrefix
  rw [List.prefix_concat_iff] at hPrefix
  cases hPrefix with
  | inl hEq => exact absurd (List.append_inj' hEq rfl).2 (by simp)
  | inr hOld => exact h earlier node old new hOld

theorem NoUnderflow.modify {log : List Prediction} (h : NoUnderflow channelId log)
    (hPos : occupancyAfter channelId log (channelId p) old ≠ 0) (new : AccessFrequency) :
    NoUnderflow channelId (log ++ [.modify p old new]) := by
  intro earlier node old' new' hPrefix
  rw [List.prefix_concat_iff] at hPrefix
  cases hPrefix with
  | inl hEq =>
      obtain ⟨rfl, hLast⟩ := List.append_inj' hEq rfl
      simp only [List.cons.injEq, Prediction.modify.injEq, and_true] at hLast
      obtain ⟨rfl, rfl, -⟩ := hLast
      exact hPos
  | inr hOld => exact h earlier node old' new' hOld

end Tally

/-! ## What an execution does to the nodes, the root and the predictions -/

variable {K V : Type*}

/-- What is predicted for a node. -/
def Tree.usage (t : Tree K V) (root p : Nat) : AccessFrequency :=
  predictAccessFrequency (t.nodes p).isInner (p = root)

/-- The ledger of the predictions: one in force for each node, and none was revoked that was not
in force. -/
structure Tree.Ledger (t : Tree K V) (channelId : Nat → Nat) (root : Nat) : Prop where
  is_root : t.root = some root
  lt : root < t.count
  tally : Tally channelId (occupancyAfter channelId t.predictions) t.count (t.usage root)
  revoked : NoUnderflow channelId t.predictions

/-- Neither nodes nor predictions are added, and inner nodes stay inner nodes. -/
structure Tree.SameOutline (t t' : Tree K V) : Prop where
  count : t'.count = t.count
  root : t'.root = t.root
  predictions : t'.predictions = t.predictions
  kind : ∀ q, (t'.nodes q).isInner = (t.nodes q).isInner

/-- A node of the kind of `p` is added, and is not the root. -/
structure Tree.SplitOutline (t t' : Tree K V) (p : Nat) : Prop where
  count : t'.count = t.count + 1
  root : t'.root = t.root
  predictions : t'.predictions = t.predictions ++
    [.predict t.count (predictAccessFrequency (t.nodes p).isInner false)]
  kind : ∀ q, q ≠ t.count → (t'.nodes q).isInner = (t.nodes q).isInner
  new : (t'.nodes t.count).isInner = (t.nodes p).isInner

/-- An inner node is added and is the root in place of `left`. -/
structure Tree.GrowOutline (t t' : Tree K V) (left : Nat) : Prop where
  count : t'.count = t.count + 1
  root : t'.root = some t.count
  predictions : t'.predictions = t.predictions ++
    [.modify left (predictAccessFrequency (t.nodes left).isInner true)
      (predictAccessFrequency (t.nodes left).isInner false)] ++ [.predict t.count .excessive]
  kind : ∀ q, q ≠ t.count → (t'.nodes q).isInner = (t.nodes q).isInner
  new : (t'.nodes t.count).isInner = true

namespace Tree.Ledger

variable {t t' : Tree K V} {channelId : Nat → Nat} {root p : Nat}

theorem same (h : t.Ledger channelId root) (hOut : t.SameOutline t') :
    t'.Ledger channelId root := by
  refine ⟨hOut.root.trans h.is_root, by rw [hOut.count]; exact h.lt, ?_, ?_⟩
  · rw [hOut.predictions, hOut.count]
    refine h.tally.congr fun q _ => ?_
    rw [usage, usage, hOut.kind q]
  · rw [hOut.predictions]
    exact h.revoked

theorem split (h : t.Ledger channelId root) (hOut : t.SplitOutline t' p) :
    t'.Ledger channelId root := by
  have hLt := h.lt
  refine ⟨hOut.root.trans h.is_root, by rw [hOut.count]; omega, ?_, ?_⟩
  · rw [hOut.predictions, hOut.count, occupancyAfter_snoc]
    refine h.tally.predict (fun q hq => ?_) ?_
    · rw [usage, usage, hOut.kind q (Nat.ne_of_lt hq)]
    · rw [usage, hOut.new, decide_eq_false (Nat.ne_of_gt hLt)]
  · rw [hOut.predictions]
    exact h.revoked.predict _ _

theorem grow (h : t.Ledger channelId root) (hOut : t.GrowOutline t' root) :
    t'.Ledger channelId t.count := by
  have hLt := h.lt
  have hUsage : t.usage root root = predictAccessFrequency (t.nodes root).isInner true := by
    rw [usage, decide_eq_true rfl]
  -- first the old root gets the usage of its kind, then the new one is counted
  obtain ⟨hPos, hModify⟩ := h.tally.modify hLt hUsage (t.usage t.count)
    (fun q hq hne => by
      rw [usage, usage, decide_eq_false (Nat.ne_of_lt hq), decide_eq_false hne])
    (by rw [usage, decide_eq_false (Nat.ne_of_lt hLt)])
  refine ⟨hOut.root, by rw [hOut.count]; exact Nat.lt_succ_self _, ?_, ?_⟩
  · rw [hOut.predictions, hOut.count, occupancyAfter_snoc, occupancyAfter_snoc]
    refine hModify.predict (fun q hq => ?_) ?_
    · rw [usage, usage, hOut.kind q (Nat.ne_of_lt hq)]
    · rw [usage, decide_eq_true rfl]
      rfl
  · rw [hOut.predictions]
    exact (h.revoked.modify hPos _).predict _ _

end Tree.Ledger

section Outlines

variable {L : Layout K V} {t t' : Tree K V} {p : Nat} {key : K} {value : V}

theorem Node.isInner_congr {n n' : Node K V} (h : n'.nodeType = n.nodeType) :
    n'.isInner = n.isInner := by
  rw [Node.isInner, Node.isInner, h]

theorem Node.isLeaf_eq_not_isInner (n : Node K V) : n.isLeaf = !n.isInner := by
  cases hType : n.nodeType <;> simp [Node.isLeaf, Node.isInner, hType]

namespace Tree

theorem SameOutline.refl (t : Tree K V) : t.SameOutline t := ⟨rfl, rfl, rfl, fun _ => rfl⟩

theorem setParent_predictions (t : Tree K V) (node parent : Ptr) :
    (t.setParent node parent).predictions = t.predictions := by
  cases node <;> rfl

theorem SameOutline.write {n : Node K V} (h : n.nodeType = (t.nodes p).nodeType) :
    t.SameOutline (t.write p n) := by
  refine ⟨rfl, rfl, rfl, fun q => ?_⟩
  by_cases hEq : q = p
  · subst hEq
    rw [write_self]
    exact Node.isInner_congr h
  · rw [write_of_ne _ _ hEq]

theorem SameOutline.setParent (h : t.SameOutline t') (node parent : Ptr) :
    t.SameOutline (t'.setParent node parent) := by
  refine ⟨by rw [setParent_count]; exact h.count, by rw [setParent_root]; exact h.root,
    (setParent_predictions t' node parent).trans h.predictions, fun q => ?_⟩
  · rw [← h.kind q]
    by_cases hNode : node = some q
    · rw [hNode, setParent_self]
      rfl
    · rw [setParent_of_ne _ _ hNode]

theorem adopt_predictions (t : Tree K V) (n : Node K V) (q : Nat) :
    (t.adopt n q).predictions = t.predictions := by
  unfold adopt
  induction List.range (n.size + 1) generalizing t with
  | nil => rfl
  | cons i rest ih =>
      rw [List.foldl_cons, ih, setParent_predictions]

end Tree

variable [LinearOrder K] [BoundedOrder K]

namespace Tree

theorem createInnerNode_predictions (t : Tree K V) (isBranch : Bool) (parent : Ptr)
    (isRoot : Bool) : (t.createInnerNode isBranch parent isRoot).1.predictions =
      t.predictions ++ [.predict t.count (predictAccessFrequency true isRoot)] := by
  cases isBranch <;> rfl

/-- A new leaf is predicted to be used normally. -/
theorem splitLeaf_outline (hp : p < t.count) (hLeaf : (t.nodes p).isLeaf = true) (key : K)
    (value : V) : t.SplitOutline (t.splitLeaf L p key value).1 p ∧
      ((t.splitLeaf L p key value).1.nodes p).parent = (t.nodes p).parent := by
  have hType : (t.nodes p).nodeType = .leaf := by simpa [Node.isLeaf] using hLeaf
  have hKind : (t.nodes p).isInner = false := by simp [Node.isInner, hType]
  obtain ⟨_, hAt, hOthers⟩ := t.splitLeaf_splitAt (L := L) (Nat.ne_of_lt hp) hType key value
  obtain ⟨hLeft, hRight⟩ := Node.distributeLeaf_header (L := L)
    (n := { t.nodes p with rightSibling := some t.count }) hLeaf key value (t.freshSibling p)
  refine ⟨⟨hAt.count, hAt.root, ?_, fun q hq => ?_, ?_⟩, ?_⟩
  · rw [hKind]
    rfl
  · by_cases hEq : q = p
    · subst hEq
      rw [hAt.left]
      exact Node.isInner_congr hLeft.nodeType
    · rw [hOthers q hEq hq]
  · rw [hAt.right]
    exact Node.isInner_congr hRight.nodeType
  · rw [hAt.left]
    exact hLeft.parent

/-- A new inner node is predicted to be used often. -/
theorem splitInner_outline {separator : Nat} (hp : p < t.count)
    (hInner : (t.nodes p).isInner = true) (hSeparator : separator < t.count)
    (hSelf : separator ≠ p) (key : K) :
    t.SplitOutline (t.splitInner L p key (some separator)).1 p := by
  have hType : (t.nodes p).nodeType ≠ .leaf := by
    intro hLeaf
    simp [Node.isInner, hLeaf] at hInner
  have hNotLeaf : (t.nodes p).isLeaf = false := by simpa [Node.isLeaf] using hType
  obtain ⟨t₃, hResult, hAt, hOthers⟩ := t.splitInner_parts (L := L) (Nat.ne_of_lt hp) hType key
    (some separator) (by simpa using Nat.ne_of_lt hSeparator) (by simpa using hSelf)
  obtain ⟨hLeft, hRight⟩ := Node.distributeInner_header (L := L) hNotLeaf key (some separator)
    ({ t.freshSibling p with rightSibling := none } : Node K V)
  have hAdopt : ∀ n q, ((t₃.adopt n t.count).nodes q).isInner = (t₃.nodes q).isInner := by
    intro n q
    obtain ⟨parent, hEq⟩ := t₃.adopt_fields n t.count q
    rw [hEq]
    rfl
  have hPredictions : (t.splitInner L p key (some separator)).1.predictions = t.predictions ++
      [.predict t.count (predictAccessFrequency (t.nodes p).isInner false)] := by
    rw [hInner, ← createInnerNode_predictions t (t.nodes p).isBranch (t.nodes p).parent]
    simp only [splitInner, adopt_predictions, Tree.write]
    split
    · rw [setParent_predictions]
    · rfl
  refine ⟨?_, ?_, hPredictions, fun q hq => ?_, ?_⟩
  · rw [hResult, (t₃.adopt_frame _ _).1, hAt.count]
  · rw [hResult, (t₃.adopt_frame _ _).2.1, hAt.root]
  · rw [hResult, hAdopt]
    by_cases hEq : q = p
    · subst hEq
      rw [hAt.left]
      exact Node.isInner_congr hLeft.nodeType
    · rw [hOthers q hEq hq]
      split <;> rfl
  · rw [hResult, hAdopt, hAt.right]
    exact Node.isInner_congr hRight.nodeType

/-- The old root gives its excessive prediction to the new one. -/
theorem createNewRoot_outline {right : Nat} (hp : p < t.count) (hRight : right < t.count) :
    t.GrowOutline (t.createNewRoot p (some right) key) p := by
  obtain ⟨hCount, hRoot, _, hNew, hOthers⟩ :=
    t.createNewRoot_nodes p right (Nat.ne_of_lt hp) (Nat.ne_of_lt hRight) key
  refine ⟨hCount, hRoot, ?_, fun q hq => ?_, ?_⟩
  · simp only [createNewRoot, createInnerNode, createNode, Tree.write, setParent_predictions]
    rfl
  · rw [hOthers q hq]
    split <;> rfl
  · rw [hNew]
    cases hLeaf : (t.nodes p).isLeaf <;>
      simp [Node.insertSeparator, Node.setSeparator, Node.isInner]

/-- What one execution does: nothing, a split, or a split of a node without a parent and a
new root over it. -/
def ExecuteOutline (t t' : Tree K V) : Prop :=
  t.SameOutline t' ∨ (∃ p, t.SplitOutline t' p) ∨
    ∃ p t₁, p < t.count ∧ (t.nodes p).parent = none ∧ t.SplitOutline t₁ p ∧ t₁.GrowOutline t' p

/-- A root that was split, with the new node at `t.count`. -/
theorem ExecuteOutline.grow {t₁ : Tree K V} (hp : p < t.count)
    (hParent : (t.nodes p).parent = none) (hSplit : t.SplitOutline t₁ p) (key : K) :
    t.ExecuteOutline (t₁.createNewRoot p (some t.count) key) := by
  have hCount := hSplit.count
  exact Or.inr (Or.inr ⟨p, t₁, hp, hParent, hSplit,
    createNewRoot_outline (by omega) (by omega)⟩)

end Tree

variable {a : AbstractTree K V} {task : Task K V} (coreId : Nat)

theorem insertValueExecute_outline (hp : p < t.count) :
    t.ExecuteOutline (insertValueExecute L coreId t task key value p).tree := by
  unfold insertValueExecute
  by_cases hle : (t.nodes p).highKey ≤ key
  · rw [if_pos hle]
    exact Or.inl (.refl t)
  by_cases hInner : (t.nodes p).isInner = true
  · rw [if_neg hle, if_pos hInner]
    exact Or.inl (.refl t)
  have hLeaf := Node.isLeaf_of_not_isInner hInner
  rw [if_neg hle, if_neg hInner]
  by_cases hReads : ((t.nodes p).isLeaf && task.isReadonly) = true
  · rw [if_pos hReads]
    exact Or.inl (.refl t)
  rw [if_neg hReads]
  dsimp only
  split
  · exact Or.inl (.refl t)
  split
  · exact Or.inl (.write rfl)
  obtain ⟨hSplit, hParent⟩ := Tree.splitLeaf_outline (L := L) hp hLeaf key value
  split
  · exact Or.inr (Or.inl ⟨p, hSplit⟩)
  · rename_i hNone
    exact .grow hp (hParent.symm.trans hNone) hSplit _

/-- The split of an inner node leaves its parent link alone. -/
theorem Rep.splitInner_parent {q : Nat} (hRep : Rep L t a) (hValid : a.Valid)
    (hFits : a.Fits p key q) (hNew : ¬ a.Posted q) (hFull : (t.nodes p).size = L.maxKeys) :
    ((t.splitInner L p key (some q)).1.nodes p).parent = (t.nodes p).parent := by
  obtain ⟨t', m, hRet, _, _, _, hRep'⟩ := hRep.splitInner hValid hFits hNew hFull
  rw [hRet, (hRep'.nodes p (Nat.lt_succ_of_lt hFits.lt)).parent, AbstractTree.split_parent_self,
    AbstractTree.attach_parent_of_ne (Ne.symm hFits.ne), (hRep.nodes p hFits.lt).parent]

theorem insertSeparatorExecute_outline [Zero V] {separator : Ptr} (hRep : Rep L t a)
    (hValid : a.Valid) (hTask : TaskOK a task)
    (hUnposted : ∀ q, task.carried = some q → a.Unposted q)
    (hBody : task.body = .insertSeparator key separator)
    (hAnn : task.annotatedResource = some p) :
    t.ExecuteOutline (insertSeparatorExecute L coreId t task key separator p).tree := by
  unfold insertSeparatorExecute
  by_cases hle : (t.nodes p).highKey ≤ key
  · rw [if_pos hle]
    exact Or.inl (.refl t)
  rw [if_neg hle]
  dsimp only
  by_cases hFull : (t.nodes p).full L = false
  · rw [if_pos hFull]
    left
    apply Tree.SameOutline.setParent
    exact .write rfl
  rw [if_neg hFull]
  obtain ⟨_, q, _, rfl, _⟩ := hTask.separator key separator hBody
  have hFits := hTask.fits hRep hBody hAnn hle
  have hNew := (hUnposted q (by simp [Task.carried, hBody])).2.2
  have hNode := hRep.nodes p hFits.lt
  have hPos : 0 < (a.nodes p).level := by
    have := hFits.level_eq
    omega
  have hp : p < t.count := by rw [hRep.count]; exact hFits.lt
  have hSplit := Tree.splitInner_outline (L := L) hp (hNode.isInner_iff.mpr hPos)
    (by rw [hRep.count]; exact hFits.child_lt) hFits.ne key
  have hParent := hRep.splitInner_parent hValid hFits hNew
    ((hNode.full_inner hPos).2 (by simpa using hFull))
  split
  · exact Or.inr (Or.inl ⟨p, hSplit⟩)
  · rename_i hNone
    exact .grow hp (hParent.symm.trans hNone) hSplit _

omit [BoundedOrder K] in
theorem lookupExecute_outline :
    t.ExecuteOutline (lookupExecute L coreId t task key value p).tree := by
  unfold lookupExecute
  dsimp only
  split
  · exact Or.inl (.refl t)
  split
  · exact Or.inl (.refl t)
  · exact Or.inl (.refl t)

omit [BoundedOrder K] in
theorem updateExecute_outline :
    t.ExecuteOutline (updateExecute L coreId t task key value p).tree := by
  unfold updateExecute
  dsimp only
  split
  · exact Or.inl (.refl t)
  split
  · exact Or.inl (.refl t)
  split
  · exact Or.inl (.refl t)
  split
  · exact Or.inl (.write rfl)
  · exact Or.inl (.refl t)

theorem execute_outline [Zero V] {ex : Execution K V} (hRep : Rep L t a) (hValid : a.Valid)
    (hTask : TaskOK a task) (hUnposted : ∀ q, task.carried = some q → a.Unposted q)
    (hEx : task.execute L coreId t = some ex) : t.ExecuteOutline ex.tree := by
  obtain ⟨p, hAnn, hp, _⟩ := hTask.annotated
  rw [← hRep.count] at hp
  unfold Task.execute at hEx
  rw [hAnn] at hEx
  simp only [Option.some.injEq] at hEx
  subst hEx
  cases hBody : task.body with
  | insertValue key value => exact insertValueExecute_outline coreId hp
  | insertSeparator key separator =>
      exact insertSeparatorExecute_outline coreId hRep hValid hTask hUnposted hBody hAnn
  | lookup key value core => exact lookupExecute_outline coreId
  | update key value => exact updateExecute_outline coreId

end Outlines

/-! ## Every run -/

section Runs

variable {L : Layout K V} {t t' : Tree K V} {a : AbstractTree K V} {channelId : Nat → Nat}
  {root : Nat}

/-- The counters, read off the ledger. -/
theorem Tree.Ledger.predicted (h : t.Ledger channelId root) : t.Predicted channelId root := by
  have hUsage : ∀ p u, t.usage root p = u ↔
      (if p = root then .excessive else if (t.nodes p).isInner = true then .high else .normal) =
        u := by
    intro p u
    simp [usage, predictAccessFrequency]
  refine ⟨h.is_root, h.lt, fun channel => ?_, fun channel => ?_, fun channel => ?_,
    fun channel => ?_, h.revoked⟩
  · rw [h.tally]
    have hOne := Verified.count_change (P := fun _ => False)
      (Q := fun p => channelId p = channel ∧ t.usage root p = .excessive) h.lt (fun p _ hne => by
        rw [hUsage, if_neg hne]
        split <;> simp)
    simp only [if_false, Nat.count_false, Nat.zero_add, Nat.add_zero] at hOne
    rw [hOne]
    simp only [hUsage, if_true, and_true, eq_comm]
  · rw [h.tally]
    apply Verified.count_congr
    intro p _
    rw [hUsage]
    by_cases hRoot : p = root
    · simp [hRoot]
    · simp [hRoot, and_comm]
  · rw [h.tally]
    apply Verified.count_congr
    intro p _
    rw [hUsage, Node.isLeaf_eq_not_isInner]
    by_cases hRoot : p = root
    · simp [hRoot]
    · simp [hRoot, and_comm]
  · rw [h.tally, Nat.count_iff_forall_not]
    rintro p _ ⟨_, hUnused⟩
    rw [hUsage] at hUnused
    split at hUnused
    · exact absurd hUnused (by simp)
    · split at hUnused <;> exact absurd hUnused (by simp)

variable [LinearOrder K]

/-- Only the root has no parent, so an execution that makes a new root revokes the prediction
of the old one. -/
theorem Tree.Ledger.execute (h : t.Ledger channelId root) (hRep : Rep L t a)
    (hRootOnly : a.RootOnly) (hOut : t.ExecuteOutline t') : ∃ root', t'.Ledger channelId root' := by
  rcases hOut with hSame | ⟨p, hSplit⟩ | ⟨p, t₁, hp, hParent, hSplit, hGrow⟩
  · exact ⟨root, h.same hSame⟩
  · exact ⟨root, h.split hSplit⟩
  · rw [hRep.count] at hp
    have hRoot : p = root := by
      rw [(hRep.nodes p hp).parent] at hParent
      have hIs := h.is_root
      rw [hRep.root, ← (hRootOnly p hp).mp hParent] at hIs
      exact Option.some.inj hIs
    subst hRoot
    exact ⟨t₁.count, (h.split hSplit).grow hGrow⟩

variable [BoundedOrder K]

theorem Tree.Ledger.construct (memory : Nat → Node K V) (channelId : Nat → Nat) :
    (Tree.construct memory).Ledger channelId 0 := by
  refine ⟨rfl, Nat.one_pos, ?_, ?_⟩
  · have hEmpty : Tally channelId (fun _ _ => 0) 0 fun _ => .unused := by
      intro channel u
      rw [Nat.count_zero]
    exact hEmpty.predict (fun p hp => absurd hp (Nat.not_lt_zero p)) rfl
  · have hEmpty : NoUnderflow channelId [] := by
      intro earlier node old new hPrefix
      exact absurd (List.prefix_nil.mp hPrefix) (by simp)
    exact hEmpty.predict _ _

/-- Over every run. -/
theorem ledger_of_run [Nontrivial K] [Zero V] {memory : Nat → Node K V} {log : List (Event K V)}
    {s : State K V} (hRun : Verified.Run (Step L) (State.initial memory) log s)
    (channelId : Nat → Nat) : ∃ root, s.tree.Ledger channelId root := by
  obtain ⟨_, s', hRun', rfl, _⟩ := run_traced hRun
  refine (hRun'.invariant (P := fun s => (∃ a, TracedInv L s a) ∧
    ∃ root, s.tree.Ledger channelId root) ?_ ?_).2
  · exact ⟨TracedInv.run Verified.Run.nil, 0, Tree.Ledger.construct memory channelId⟩
  · rintro e mid fin ⟨⟨a, hInv⟩, root, hLedger⟩ hStep
    refine ⟨hInv.step hStep, ?_⟩
    cases hStep with
    | spawn request isReadonly hRequest => exact ⟨root, hLedger⟩
    | @execute coreId r task rest ex hTasks hEx =>
        have hIn : (r, task) ∈ mid.tasks := by rw [hTasks]; exact Multiset.mem_cons_self _ _
        show ∃ root, ex.tree.Ledger channelId root
        by_cases hKey : task.body.key < ⊤
        · obtain ⟨hTask, hUnposted⟩ := hInv.ok hIn hKey
          exact hLedger.execute hInv.inv.rep hInv.inv.rootOnly
            (execute_outline coreId hInv.inv.rep hInv.inv.valid hTask hUnposted hEx)
        · obtain ⟨_, _, rfl⟩ := execute_top hEx (not_lt_top_iff.mp hKey)
          exact ⟨root, hLedger⟩

/-- In every state of every run, wherever the nodes are placed: the one excessive prediction is
on the channel of the root, each channel counts its other inner nodes as used often and its
other leaves as used normally, and no counter was ever decremented from 0. -/
theorem predictions_of_run [Nontrivial K] [Zero V] (L : Layout K V) (memory : Nat → Node K V)
    (log : List (Event K V)) (s : State K V)
    (hRun : Verified.Run (Step L) (State.initial memory) log s) (countChannels : Nat)
    (isExclusive : Bool) (placements : Nat → Placement) :
    ∃ root, s.tree.Predicted (fun p => schedule countChannels isExclusive (placements p)) root := by
  obtain ⟨root, hLedger⟩ := ledger_of_run hRun fun p =>
    schedule countChannels isExclusive (placements p)
  exact ⟨root, hLedger.predicted⟩

/-- After two splits of leaves and one of the root, with the nodes on four channels in turn: the
third root is node 6 on channel 2. -/
theorem predictions_of_run_threeLevels :
    ∃ log s, Verified.Run (Step Layout.smallest) (State.initial zeroMemory) log s ∧
      s.tree.count = 7 ∧
      s.tree.Predicted (fun p => schedule 4 false (⟨p, p, fun _ => true⟩ : Placement)) 6 := by
  obtain ⟨root, hPredicted⟩ := predictions_of_run Layout.smallest zeroMemory _ _
    run_threeLevels.of_guarded 4 false fun p => ⟨p, p, fun _ => true⟩
  have hSix : threeLevels.state.tree.root = some 6 := by decide
  obtain rfl : 6 = root := Option.some.inj (hSix.symm.trans hPredicted.is_root)
  exact ⟨_, _, run_threeLevels.of_guarded, by decide, hPredicted⟩

end Runs

end MxTasking.BLinkTree
