import MxTasking.BLinkTree.Node
import MxTasking.Tasking.Synchronization

/-!
# The B-link tree

`b_link_tree.h`: creation of nodes, growth of the root and the two splits.
Memory is the function from address to node; a node is created at the
next address nobody used yet, and what the memory held there before shows
through in the slots the constructor does not write.

The two splits are given in two parts: `Node.distributeInner` and
`Node.distributeLeaf` are what a split does to the contents of the node and of its new
sibling, `Tree.splitInner` and `Tree.splitLeaf` what it does to the tree.

The tree tells the runtime how often a node will be used.  These calls do
not influence the tree; they are kept as a log (`Tree.predictions`).
-/

namespace MxTasking.BLinkTree

open MxTasking.Tasking (AccessFrequency)

/-- A call that changes the predicted usage of a node: `predict` when the node is
built, `modify` for `runtime::modify_predicted_usage`. -/
inductive Prediction where
  | predict (node : Nat) (usage : AccessFrequency)
  | modify (node : Nat) (old new : AccessFrequency)
  deriving DecidableEq, Repr

/-- `predict_access_frequency(is_inner, is_root)`. -/
def predictAccessFrequency (isInner isRoot : Bool) : AccessFrequency :=
  if isRoot then .excessive else if isInner then .high else .normal

/-- The tree and the memory its nodes live in.  Nodes are at the addresses
below `count`. -/
structure Tree (K V : Type*) where
  nodes : Nat → Node K V
  count : Nat
  root : Ptr
  height : UInt8
  predictions : List Prediction

section Distribute

variable {K V : Type*} [LT K] [DecidableLT K]

/-- How `split(inner_node, key, separator)` distributes the keys and separators
of a full inner node over it and its new right sibling; the third component
is `key_up`. -/
def Node.distributeInner (L : Layout K V) (node newNode : Node K V) (key : K)
    (separator : Ptr) : Node K V × Node K V × K :=
  let leftSize := L.maxKeys / 2
  let rightSize := L.maxKeys - leftSize
  if key < node.innerKey (leftSize - 1) then
    let newNode := node.move newNode leftSize rightSize
    let newNode := newNode.setSeparator 0 (node.separators leftSize)
    let newNode := { newNode with size := rightSize }
    let node := { node with size := leftSize - 1 }
    let keyUp := node.innerKey (leftSize - 1)
    (node.insertSeparator (node.index key) separator key, newNode, keyUp)
  else if key < node.innerKey leftSize then
    let newNode := node.move newNode leftSize rightSize
    let newNode := newNode.setSeparator 0 separator
    ({ node with size := leftSize }, { newNode with size := rightSize }, key)
  else
    let newNode := node.move newNode (leftSize + 1) (rightSize - 1)
    let newNode := newNode.setSeparator 0 (node.separators (leftSize + 1))
    let node := { node with size := leftSize }
    let newNode := { newNode with size := rightSize - 1 }
    let keyUp := node.innerKey leftSize
    (node, newNode.insertSeparator (newNode.index key) separator key, keyUp)

/-- How `split(leaf_node, key, value)` distributes the records of a full leaf
over it and its new right sibling. -/
def Node.distributeLeaf (L : Layout K V) (leaf newLeaf : Node K V) (key : K)
    (value : V) : Node K V × Node K V :=
  let leftSize := L.maxItems / 2
  let rightSize := L.maxItems - leftSize
  let newLeaf := { leaf.move newLeaf leftSize rightSize with size := rightSize }
  let leaf := { leaf with size := leftSize }
  if key < newLeaf.leafKey L 0 then
    (leaf.insertValue (leaf.index key) value key, newLeaf)
  else
    (leaf, newLeaf.insertValue (newLeaf.index key) value key)

end Distribute

namespace Tree

variable {K V : Type*}

/-- Overwrites the node at an address. -/
def write (t : Tree K V) (address : Nat) (node : Node K V) : Tree K V :=
  { t with nodes := Function.update t.nodes address node }

/-- `node.get<Node>()->parent(parent)`.  Writing through a null pointer is
undefined in the source; the separators the tree writes through are never null. -/
def setParent (t : Tree K V) (node parent : Ptr) : Tree K V :=
  match node with
  | none => t
  | some address => t.write address { t.nodes address with parent := parent }

/-- `create_node(node_type, parent, is_root)`: the constructor writes the header
and leaves the arrays as the memory has them. -/
def createNode [Top K] (t : Tree K V) (nodeType : NodeType) (parent : Ptr)
    (isRoot : Bool) : Tree K V × Nat :=
  let node : Node K V :=
    { t.nodes t.count with
      nodeType := nodeType
      highKey := ⊤
      rightSibling := none
      parent := parent
      size := 0 }
  ({ t.write t.count node with
      count := t.count + 1
      predictions := t.predictions ++
        [.predict t.count (predictAccessFrequency node.isInner isRoot)] },
    t.count)

def createInnerNode [Top K] (t : Tree K V) (isBranch : Bool) (parent : Ptr)
    (isRoot : Bool) : Tree K V × Nat :=
  t.createNode (if isBranch then .branch else .inner) parent isRoot

def createLeafNode [Top K] (t : Tree K V) (parent : Ptr) : Tree K V × Nat :=
  t.createNode .leaf parent false

/-- A freshly constructed tree over arbitrary memory. -/
def construct [Top K] (memory : Nat → Node K V) : Tree K V :=
  let t : Tree K V :=
    { nodes := memory, count := 0, root := none, height := 1, predictions := [] }
  let (t, root) := t.createNode .leaf none true
  { t with root := some root }

/-- `create_new_root(left, right, key)`. -/
def createNewRoot [Top K] (t : Tree K V) (left : Nat) (right : Ptr) (key : K) :
    Tree K V :=
  let isLeftInner := (t.nodes left).isInner
  let t := { t with
    predictions := t.predictions ++ [Prediction.modify left
      (predictAccessFrequency isLeftInner true)
      (predictAccessFrequency isLeftInner false)] }
  let (t, root) := t.createInnerNode (t.nodes left).isLeaf none true
  let t := t.setParent (some left) (some root)
  let t := t.setParent right (some root)
  let t := t.write root
    (((t.nodes root).setSeparator 0 (some left)).insertSeparator 0 right key)
  { t with height := t.height + 1, root := some root }

/-- The loop at the end of an inner split: every separator of the new node gets
the new node as its parent. -/
def adopt (t : Tree K V) (newNode : Node K V) (newInnerNode : Nat) : Tree K V :=
  (List.range (newNode.size + 1)).foldl
    (fun t index => t.setParent (newNode.separators index) (some newInnerNode)) t

section Split

variable [LT K] [DecidableLT K] [Top K]

/-- `split(inner_node, key, separator)`: the new node and its low bound. -/
def splitInner (L : Layout K V) (t : Tree K V) (innerNode : Nat) (key : K)
    (separator : Ptr) : Tree K V × Nat × K :=
  let node := t.nodes innerNode
  let (t, newInnerNode) := t.createInnerNode node.isBranch node.parent false
  let newNode := { t.nodes newInnerNode with highKey := node.highKey }
  let (node', newNode, keyUp) := node.distributeInner L newNode key separator
  let t :=
    if key < node.innerKey (L.maxKeys / 2 - 1) then
      t.setParent separator (some innerNode)
    else t
  let newNode := { newNode with rightSibling := node'.rightSibling }
  let node' := { node' with rightSibling := some newInnerNode, highKey := keyUp }
  let t := (t.write innerNode node').write newInnerNode newNode
  (t.adopt newNode newInnerNode, newInnerNode, keyUp)

/-- `split(leaf_node, key, value)`: the new leaf and its low bound. -/
def splitLeaf (L : Layout K V) (t : Tree K V) (leafNode : Nat) (key : K)
    (value : V) : Tree K V × Nat × K :=
  let leaf := t.nodes leafNode
  let (t, newLeafNode) := t.createLeafNode leaf.parent
  let newLeaf := t.nodes newLeafNode
  let newLeaf :=
    if leaf.rightSibling ≠ none then { newLeaf with rightSibling := leaf.rightSibling }
    else newLeaf
  let newLeaf := { newLeaf with highKey := leaf.highKey }
  let leaf := { leaf with rightSibling := some newLeafNode }
  let (leaf, newLeaf) := leaf.distributeLeaf L newLeaf key value
  let leaf := { leaf with highKey := newLeaf.leafKey L 0 }
  let t := (t.write leafNode leaf).write newLeafNode newLeaf
  (t, newLeafNode, newLeaf.leafKey L 0)

end Split

end Tree

end MxTasking.BLinkTree
