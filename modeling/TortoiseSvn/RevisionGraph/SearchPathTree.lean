import TortoiseSvn.LogCache.TempPath
import TortoiseSvn.Lib.Chain
import TortoiseSvn.Lib.Forest

/-!
# The search tree of the revision graph

`CSearchPathTree` holds the paths that the graph builder follows. A node is active from its start
revision on; inactive nodes stand for the levels in between. The children of a node form a doubly
linked list in the order of their base path IDs.

The members of the nodes are functions of the node, and a node is in memory as soon as it is linked.

`Insert` takes an inactive child with the given path into use, and then adds another node for that
path all the same. It also takes every child that has the base of the given path for a parent of it.
-/

namespace TortoiseSvn.RevisionGraph

open TortoiseSvn.Lib TortoiseSvn.LogCache

/-- The nodes of a search tree; the root is node 0.
Source: `SearchPathTree.h` `CSearchPathTree` -/
structure CSearchPathTree where
  dictionary : CPathDictionary
  /-- The nodes that are in memory. -/
  nodes : Finset ℕ
  path : ℕ → CDictionaryBasedTempPath
  startRevision : ℕ → ℕ
  lastEntry : ℕ → Option ℕ
  parent : ℕ → Option ℕ
  firstChild : ℕ → Option ℕ
  lastChild : ℕ → Option ℕ
  previous : ℕ → Option ℕ
  next : ℕ → Option ℕ

namespace CSearchPathTree

/-- The root alone.
Source: `SearchPathTree.cpp` `CSearchPathTree::CSearchPathTree (dictionary)` -/
def init (dictionary : CPathDictionary) : CSearchPathTree where
  dictionary := dictionary
  nodes := {0}
  path _ := ⟨(0 : ℕ), []⟩
  startRevision _ := noRevision
  lastEntry _ := none
  parent _ := none
  firstChild _ := none
  lastChild _ := none
  previous _ := none
  next _ := none

/-- Source: `SearchPathTree.h` `CSearchPathTree::IsActive` -/
def isActive (t : CSearchPathTree) (n : ℕ) : Bool := t.startRevision n ≠ noRevision

/-- Source: `SearchPathTree.h` `CSearchPathTree::IsEmpty` -/
def isEmpty (t : CSearchPathTree) (n : ℕ) : Bool := !t.isActive n && (t.firstChild n).isNone

/-- Source: `SearchPathTree.h` `CSearchPathTree::SetStartRevision` -/
def setStartRevision (t : CSearchPathTree) (n revision : ℕ) : CSearchPathTree :=
  { t with startRevision := Function.update t.startRevision n revision }

/-- Source: `SearchPathTree.cpp` `CSearchPathTree::ChainEntries` -/
def chainEntries (t : CSearchPathTree) (n entry revision : ℕ) : CSearchPathTree :=
  { t with
    lastEntry := Function.update t.lastEntry n (some entry)
    startRevision := Function.update t.startRevision n (max (t.startRevision n) revision) }

/-! ### Links -/

/-- An address that is not in use. -/
def freeNode (t : CSearchPathTree) : ℕ := t.nodes.sup id + 1

/-- Put a new node between two children of its parent, or at an end of their list.
Source: `SearchPathTree.cpp` `CSearchPathTree::Link`, the assignments of all cases -/
def linkBetween (t : CSearchPathTree) (path : CDictionaryBasedTempPath) (startrev parent : ℕ)
    (previous next : Option ℕ) : CSearchPathTree :=
  let this := t.freeNode
  { t with
    nodes := insert this t.nodes
    path := Function.update t.path this path
    startRevision := Function.update t.startRevision this startrev
    lastEntry := Function.update t.lastEntry this none
    parent := Function.update t.parent this (some parent)
    firstChild := fun n =>
      if n = this then none
      else if n = parent ∧ previous = none then some this else t.firstChild n
    lastChild := fun n =>
      if n = this then none
      else if n = parent ∧ next = none then some this else t.lastChild n
    previous := fun n =>
      if n = this then previous else if next = some n then some this else t.previous n
    next := fun n =>
      if n = this then next else if previous = some n then some this else t.next n }

/-- The first node from `node` on with at least the given ID. A list that is longer than there are
nodes never ends.
Source: `SearchPathTree.cpp` `CSearchPathTree::Link`, "scan for insertion position" -/
def insertionPosition (t : CSearchPathTree) (pathID : Index) : ℕ → ℕ → Except Fault ℕ
  | 0, _ => .error .undefined
  | fuel + 1, node =>
    if (t.path node).index < pathID then
      match t.next node with
      | some next => t.insertionPosition pathID fuel next
      | none => .error .undefined
    else .ok node

/-- "insert into parent's child list ordered by pathID"
Source: `SearchPathTree.cpp` `CSearchPathTree::Link` -/
def link (t : CSearchPathTree) (path : CDictionaryBasedTempPath) (startrev parent : ℕ) :
    Except Fault CSearchPathTree :=
  match t.firstChild parent, t.lastChild parent with
  | none, _ => .ok (t.linkBetween path startrev parent none none)
  | some _, none => .error .undefined
  | some firstChild, some lastChild =>
    if (t.path lastChild).index ≤ path.index then
      .ok (t.linkBetween path startrev parent (some lastChild) none)
    else if path.index ≤ (t.path firstChild).index then
      .ok (t.linkBetween path startrev parent none (some firstChild))
    else do
      let node ← t.insertionPosition path.index (t.nodes.card + 1) firstChild
      match t.previous node with
      | some previous => .ok (t.linkBetween path startrev parent (some previous) (some node))
      | none => .error .undefined

/-- A new node, and the missing levels above it. The fuel bounds the levels.
Source: `SearchPathTree.cpp` `CSearchPathTree::CSearchPathTree (path, startrev, parent)`,
`CSearchPathTree::Link` -/
def create : ℕ → CSearchPathTree → CDictionaryBasedTempPath → ℕ → ℕ →
    Except Fault (CSearchPathTree × ℕ)
  | 0, _, _, _, _ => .error .undefined
  | fuel + 1, t, path, startrev, newParent => do
    let parentPathID ← path.parentPathID t.dictionary
    -- "ensure that for every cached path element hierarchy level there is a node"
    let (t, parent) ← if (t.path newParent).index < parentPathID then
        create fuel t ⟨parentPathID, []⟩ noRevision newParent
      else .ok (t, newParent)
    let t' ← t.link path startrev parent
    return (t', t.freeNode)

/-- A new node below a node of the tree. -/
def newNode (t : CSearchPathTree) (path : CDictionaryBasedTempPath) (startrev parent : ℕ) :
    Except Fault (CSearchPathTree × ℕ) := create (t.dictionary.size + 1) t path startrev parent

/-- Source: `SearchPathTree.cpp` `CSearchPathTree::DeLink` -/
def deLink (t : CSearchPathTree) (this parent : ℕ) : CSearchPathTree :=
  { t with
    next := fun n => if t.previous this = some n then t.next this else t.next n
    previous := fun n => if t.next this = some n then t.previous this else t.previous n
    firstChild := fun n =>
      if n = parent ∧ t.firstChild n = some this then t.next this else t.firstChild n
    lastChild := fun n =>
      if n = parent ∧ t.lastChild n = some this then t.previous this else t.lastChild n
    parent := Function.update t.parent this none }

/-- Delete a node without children.
Source: `SearchPathTree.cpp` `CSearchPathTree::~CSearchPathTree` -/
def deleteLeaf (t : CSearchPathTree) (this parent : ℕ) : CSearchPathTree :=
  { t.deLink this parent with nodes := t.nodes.erase this }

/-! ### Inserting and removing paths -/

mutual

/-- `Insert`; the fuel bounds the nodes that are looked at.
Source: `SearchPathTree.cpp` `CSearchPathTree::Insert` -/
def insertAt : ℕ → CSearchPathTree → ℕ → CDictionaryBasedTempPath → ℕ →
    Except Fault (CSearchPathTree × ℕ)
  | 0, _, _, _, _ => .error .undefined
  | fuel + 1, t, this, p, startrev =>
    -- "exact match (will happen on root node only)?"
    if t.path this = p then .ok (t.setStartRevision this startrev, this)
    else insertBelow fuel t this (t.firstChild this) p startrev

/-- "(partly or fully) overlap with an existing child?", from a child on.
Source: `SearchPathTree.cpp` `CSearchPathTree::Insert`, the loop -/
def insertBelow : ℕ → CSearchPathTree → ℕ → Option ℕ → CDictionaryBasedTempPath → ℕ →
    Except Fault (CSearchPathTree × ℕ)
  | 0, _, _, _, _, _ => .error .undefined
  | _ + 1, t, this, none, p, startrev => t.newNode p startrev this
  | fuel + 1, t, this, some child, p, startrev => do
    let commonPath ← (t.path child).getCommonRoot t.dictionary p
    if commonPath ≠ t.path this then
      if t.path child = p then
        -- "use it, if unused so far"; the loop goes on
        if t.startRevision child = noRevision then
          insertBelow fuel (t.setStartRevision child startrev) this (t.next child) p startrev
        else t.newNode p startrev this
      else insertAt fuel t child p startrev
    else insertBelow fuel t this (t.next child) p startrev

end

/-- `Insert` at the root. -/
def insert (t : CSearchPathTree) (p : CDictionaryBasedTempPath) (startrev : ℕ) :
    Except Fault (CSearchPathTree × ℕ) := insertAt (2 * t.nodes.card) t 0 p startrev

/-- Delete a node and the nodes above it as long as they are empty.
Source: `SearchPathTree.cpp` `CSearchPathTree::Remove`, the loop -/
def removeEmpty : ℕ → CSearchPathTree → ℕ → Except Fault CSearchPathTree
  | 0, _, _ => .error .undefined
  | fuel + 1, t, node =>
    if t.isEmpty node then
      match t.parent node with
      | some parent => removeEmpty fuel (t.deleteLeaf node parent) parent
      | none => .ok t
    else .ok t

/-- Source: `SearchPathTree.cpp` `CSearchPathTree::Remove` -/
def remove (t : CSearchPathTree) (this : ℕ) : Except Fault CSearchPathTree :=
  removeEmpty t.nodes.card
    { t with
      startRevision := Function.update t.startRevision this noRevision
      lastEntry := Function.update t.lastEntry this none } this

end CSearchPathTree

end TortoiseSvn.RevisionGraph
