import Algors.Lib.Transition
import Algors.Trie.Placed

/-!
# The map in memory

The operations of `TrieMap` on nodes in memory. A `&mut Node` is the place where the word of
the node is: the variable of the root, or a slot in the buffer of its parent. A walk goes
from place to place, `insert` changes the words where they are, and a removal keeps the
places that it passed, which the source does with raw pointers, and comes back to them from
the deepest on.
-/

namespace Trie

namespace Placed

variable [Target]

/-- **Where the word of a node is.** -/
inductive Place where
  | root
  | slot (p : Ptr Usize)
deriving DecidableEq

section Places

variable {T : Type}

/-- The node at a place. -/
def load : Place → Prog T Node
  | .root => fun h => do
    let w ← Raw.lift (Rust.unwrap h.root)
    return (w, h)
  | .slot p => readWord p

/-- The node at a place, after a call that changed it. -/
def store : Place → Node → Prog T Unit
  | .root, w => setRoot (some w)
  | .slot p, w => writeWord p w

end Places

/-- The source's `visited`, the deepest first. -/
abbrev Visited := List (Place × ChildPos)

namespace TrieMap

variable {T : Type} [PointerWidth] [NodeTypes T] (A : Allocator T) (depth : ℕ)

/-- `TrieMap::drop` and `TrieMap::clear`. -/
def clear : Prog T Unit := do
  let root ← getRoot
  Node.dropOption depth root
  setRoot none

/-! ## Insertion -/

/-- Splitting a node whose prefix goes on past the common part. -/
def split (cur : Place) (lcpLen : ℕ) : Prog T Unit := do
  let curNode ← load cur
  let bytes ← curNode.prefixBytes
  let splitData ← lift (Raw.lift (Rust.sliceFrom bytes lcpLen))
  let splitNode ← Node.new A splitData
  let (v, curNode) ← curNode.takeVal
  let splitNode ← splitNode.setSome v
  let bytes ← curNode.prefixBytes
  let newData ← lift (Raw.lift (Rust.sliceTo bytes lcpLen))
  let newPrefix ← newPrefix A newData
  curNode.setPfx newPrefix
  let splitNode ← Node.transferChildren A depth curNode splitNode
  let splitNodeByte ← splitNode.firstByte
  let curNode ← curNode.insertChild A (childPosFromByte splitNodeByte) splitNode
  store cur curNode

/-- A turn of the loop of `TrieMap::insert` after the split, where `loop` is the rest of
the turns. -/
def insertTurn (loop : Place → Bytes → Prog T Unit) (cur : Place) (curData : Bytes) (val : T)
    (lcpLen : ℕ) : Prog T Unit := do
  let curNode ← load cur
  if lcpLen = curData.length then do
    -- already exists. overwrite the value
    let curNode ← curNode.setVal val
    store cur curNode
  else do
    let curData ← lift (Raw.lift (Rust.sliceFrom curData lcpLen))
    let byte ← lift (Raw.lift (Rust.index curData 0))
    let childPos := childPosFromByte byte
    if ← curNode.childExists childPos then do
      let child ← curNode.getMutChildByPos childPos
      let child ← lift (Raw.lift (Rust.unwrap child))
      loop (.slot child) curData
    else do
      let newChild ← Node.new A curData
      let newChild ← newChild.setVal val
      let curNode ← curNode.insertChild A childPos newChild
      store cur curNode

/-- The loop of `TrieMap::insert`, from a node down. -/
def insertLoop (val : T) : ℕ → Place → Bytes → Prog T Unit
  | 0, _, _ => lift (.error (.panic .diverges))
  | fuel + 1, cur, curData => do
    let curNode ← load cur
    let bytes ← curNode.prefixBytes
    let lcpLen := Util.lcp bytes curData
    let len ← curNode.prefixLen
    if lcpLen < len then split A depth cur lcpLen
    insertTurn A (insertLoop val fuel) cur curData val lcpLen

/-- **`TrieMap::insert`.** With an empty key the value goes out of scope. -/
def insert (key : Bytes) (val : T) : Prog T Unit :=
  if key = [] then dispose val
  else do
    match ← getRoot with
    | none => do
      let newNode ← Node.new A key
      let newNode ← newNode.setVal val
      setRoot (some newNode)
    | some _ => insertLoop A depth val (walkBound key) .root key

/-! ## Removal -/

/-- Merging a parent with its only child, which goes out of scope. -/
def mergeChild (parent : Place) : Prog T Unit := do
  let parentNode ← load parent
  let pos ← parentNode.childPosFromIdx 0
  let child ← parentNode.removeChild pos
  let child ← lift (Raw.lift (Rust.unwrap child))
  let parentBytes ← parentNode.prefixBytes
  let childBytes ← child.prefixBytes
  let newPrefix ← fromSlices A [parentBytes, childBytes]
  parentNode.setPfx newPrefix
  let parentNode ← child.transferChildren A depth parentNode
  let (v, child) ← child.takeVal
  let parentNode ← parentNode.setSome v
  store parent parentNode
  Node.drop depth child

/-- Dropping the child at `childPos` when it is empty. -/
def removeEmpty (parent : Place) (childPos : ChildPos) : Prog T Unit := do
  let parentNode ← load parent
  let visitedChild ← parentNode.getChildByPos childPos
  let visitedChild ← lift (Raw.lift (Rust.unwrap visitedChild))
  let visitedChild ← readWord visitedChild
  let len ← visitedChild.lenChildren
  if len = 0 ∧ visitedChild.hasVal = false then do
    let removed ← parentNode.removeChild childPos
    Node.dropOption depth removed

/-- One turn of the loop of `TrieMap::compress`, which says whether the loop goes on. -/
def compressParent (parent : Place) (childPos : ChildPos) : Prog T Bool := do
  removeEmpty depth parent childPos
  let parentNode ← load parent
  let len ← parentNode.lenChildren
  if len = 1 ∧ parentNode.hasVal = false then do
    mergeChild A depth parent
    return true
  else return false

/-- The loop of `TrieMap::compress`. -/
def compressLoop : Visited → Prog T Unit
  | [] => return ()
  | (parent, childPos) :: rest => do
    if ← compressParent A depth parent childPos then compressLoop rest else return ()

/-- The root takes the place of its only child: the end of `TrieMap::compress` for such a
root. -/
def mergeRoot (root : Node) : Prog T Unit := do
  let pos ← root.childPosFromIdx 0
  let child ← root.removeChild pos
  let child ← lift (Raw.lift (Rust.unwrap child))
  let rootBytes ← root.prefixBytes
  let childBytes ← child.prefixBytes
  let newPrefix ← fromSlices A [rootBytes, childBytes]
  child.setPfx newPrefix
  -- the assignment drops the old root
  Node.drop depth root
  setRoot (some child)

/-- The end of `TrieMap::compress`. -/
def compressRoot : Prog T Unit := do
  match ← getRoot with
  | none => return ()
  | some root =>
    if root.hasVal then return ()
    else do
      let count ← root.lenChildren
      if count = 0 then do
        Node.drop depth root
        setRoot none
      else if count = 1 then mergeRoot A depth root
      else return ()

/-- **`TrieMap::compress`.** -/
def compress (visited : Visited) : Prog T Unit := do
  compressLoop A depth visited
  compressRoot A depth

/-- The rest of a turn of a walk past the prefix of `curNode`: on by `loop` to the child
that `getChild` finds, or nothing is found. -/
def goDown {α : Type} (getChild : Node → ChildPos → Prog T (Option (Ptr Usize)))
    (curNode : Node) (curData : Bytes) (lcpLen : ℕ)
    (loop : Place → Bytes → ChildPos → Prog T (Option α)) : Prog T (Option α) := do
  let curData ← lift (Raw.lift (Rust.sliceFrom curData lcpLen))
  let byte ← lift (Raw.lift (Rust.index curData 0))
  let nextPos := childPosFromByte byte
  if ← curNode.childExists nextPos then do
    let child ← getChild curNode nextPos
    let child ← lift (Raw.lift (Rust.unwrap child))
    loop (.slot child) curData nextPos
  else return none

/-- The loop of `TrieMap::remove`: the place where the key ends, and the places passed. -/
def removeLoop : ℕ → Place → Bytes → Visited → Prog T (Option (Place × Visited))
  | 0, _, _, _ => lift (.error (.panic .diverges))
  | fuel + 1, cur, curData, visited => do
    let curNode ← load cur
    let bytes ← curNode.prefixBytes
    let lcpLen := Util.lcp bytes curData
    let len ← curNode.prefixLen
    if lcpLen < len then return none
    else if lcpLen = curData.length then return some (cur, visited)
    else goDown Node.getMutChildByPos curNode curData lcpLen fun child curData nextPos =>
      removeLoop fuel child curData ((cur, nextPos) :: visited)

/-- **`TrieMap::remove`.** -/
def remove (key : Bytes) : Prog T (Option T) :=
  if key = [] then return none
  else do
    match ← getRoot with
    | none => return none
    | some _ => do
      match ← removeLoop (walkBound key) .root key [] with
      | none => return none
      | some (cur, visited) => do
        let curNode ← load cur
        let (res, curNode) ← curNode.takeVal
        store cur curNode
        -- a branching node without a value: no need to compress here
        if res.isNone then return res
        else do
          compress A depth visited
          return res

/-- The loop of `TrieMap::remove_prefix`. -/
def removePrefixLoop : ℕ → Place → Bytes → Visited → Prog T (Option (Place × Visited))
  | 0, _, _, _ => lift (.error (.panic .diverges))
  | fuel + 1, cur, remPref, visited => do
    let curNode ← load cur
    let bytes ← curNode.prefixBytes
    let lcpLen := Util.lcp bytes remPref
    if lcpLen = remPref.length then return some (cur, visited)
    else do
      let len ← curNode.prefixLen
      if lcpLen < len then return none
      else goDown Node.getMutChildByPos curNode remPref lcpLen fun child remPref nextPos =>
        removePrefixLoop fuel child remPref ((cur, nextPos) :: visited)

/-- **`TrieMap::remove_prefix`.** -/
def removePrefix (key : Bytes) : Prog T Unit :=
  if key = [] then clear depth
  else do
    match ← getRoot with
    | none => return ()
    | some _ => do
      match ← removePrefixLoop (walkBound key) .root key [] with
      | none => return ()
      | some (_, []) => clear depth
      | some (_, (termParent, childPos) :: visited) => do
        let parentNode ← load termParent
        let removed ← parentNode.removeChild childPos
        Node.dropOption depth removed
        compress A depth visited

/-! ## Lookup -/

/-- The loop of `TrieMap::get`, and of `TrieMap::get_mut` with the other way to a child: the
node where the key ends. -/
def getLoop (getChild : Node → ChildPos → Prog T (Option (Ptr Usize))) :
    ℕ → Place → Bytes → Prog T (Option Node)
  | 0, _, _ => lift (.error (.panic .diverges))
  | fuel + 1, cur, curData => do
    let curNode ← load cur
    let bytes ← curNode.prefixBytes
    let lcpLen := Util.lcp bytes curData
    let len ← curNode.prefixLen
    if lcpLen < len then return none
    else if lcpLen = curData.length then return some curNode
    else goDown getChild curNode curData lcpLen fun child curData _ =>
      getLoop getChild fuel child curData

/-- The walk of `TrieMap::get` and `TrieMap::get_mut`. -/
def find (getChild : Node → ChildPos → Prog T (Option (Ptr Usize))) (key : Bytes) :
    Prog T (Option Node) :=
  if key = [] then return none
  else do
    match ← getRoot with
    | none => return none
    | some _ => getLoop getChild (walkBound key) .root key

/-- **`TrieMap::get`**, and the value that the reference refers to. -/
def get (key : Bytes) : Prog T (Option T) := do
  match ← find Node.getChildByPos key with
  | none => return none
  | some node => node.val

/-- **`TrieMap::get_mut`**, and `mem::replace` where the reference refers to: the value that
was there is handed back, and the new one is dropped when there is none. -/
def write (key : Bytes) (val : T) : Prog T (Option T) := do
  match ← find Node.getMutChildByPos key with
  | none => do
    dispose val
    return none
  | some node =>
    if node.hasVal then do
      let v ← node.replaceVal val
      return some v
    else do
      dispose val
      return none

/-- **`TrieMap::contains`.** -/
def contains (key : Bytes) : Prog T Bool := do
  let res ← get key
  return res.isSome

/-- **`TrieMap::is_empty`.** -/
def isEmpty : Prog T Bool := do
  let root ← getRoot
  return root.isNone

/-! ## Traversal -/

/-- The loop of `TrieMap::find_prefix_node`. -/
def findPrefixLoop : ℕ → Place → Bytes → Prog T (Option (Node × ℕ))
  | 0, _, _ => lift (.error (.panic .diverges))
  | fuel + 1, cur, curData => do
    let curNode ← load cur
    let bytes ← curNode.prefixBytes
    let lcpLen := Util.lcp bytes curData
    -- prefix ends at this node, whole or in part
    if lcpLen = curData.length then return some (curNode, lcpLen)
    else do
      let len ← curNode.prefixLen
      if lcpLen < len then return none
      else goDown Node.getChildByPos curNode curData lcpLen fun child curData _ =>
        findPrefixLoop fuel child curData

/-- **`TrieMap::find_prefix_node`.** -/
def findPrefixNode (key : Bytes) : Prog T (Option (Node × ℕ)) := do
  match ← getRoot with
  | none => return none
  | some root =>
    if key = [] then return some (root, 0) else findPrefixLoop (walkBound key) .root key

section Traversal

variable {σ : Type}

/-- `Node::iter_children`. -/
def iterChildren (node : Node) : Prog T Iter :=
  if node.isLeaf then return Iter.newEmpty
  else do
    let node : InternalNode T ← node.internal
    return node.children.iter node.bitmap.lenChildren

/-- `for child in iter`, as far as the iterator goes. -/
def forEachChild (body : Node → σ → Prog T σ) : ℕ → Iter → σ → Prog T σ
  | 0, _, _ => lift (.error (.panic .diverges))
  | fuel + 1, iter, s => do
    match ← iterNext iter with
    | (none, _) => return s
    | (some p, iter) => do
      let child ← readWord p
      let s ← body child s
      forEachChild body fuel iter s

variable (f : Trie.TrieMap.SuffixRef → T → σ → σ)

/-- **`TrieMap::for_each_prefix_from_node`**, which calls itself for the children: `depth` is
how deep that may go. -/
def forEachPrefixFromNode : ℕ → Node → List Bytes → ℕ → σ → Prog T σ
  | 0, _, _, _, _ => lift (.error (.panic .diverges))
  | depth + 1, node, chunks, currentLen, s => do
    let v ← node.val
    let s := match v with
      | some value => f ⟨chunks, currentLen⟩ value s
      | none => s
    let iter ← iterChildren node
    forEachChild (fun child s => do
      let pfx ← child.prefixBytes
      forEachPrefixFromNode depth child (chunks ++ [pfx]) (currentLen + pfx.length) s)
      (iter.len + 1) iter s

/-- **`TrieMap::for_each_prefix`.** -/
def forEachPrefix (depth : ℕ) (key : Bytes) (s : σ) : Prog T σ := do
  match ← findPrefixNode key with
  | none => return s
  | some (node, offset) => do
    let bytes ← node.prefixBytes
    let first ← lift (Raw.lift (Rust.sliceFrom bytes offset))
    if first = [] then forEachPrefixFromNode f depth node [] 0 s
    else forEachPrefixFromNode f depth node [first] first.length s

end Traversal

/-! ## Runs -/

/-- One call, and what it hands back. -/
def apply : Trie.TrieMap.Op T → Prog T (Option T)
  | .insert key val => do
    insert A depth key val
    return none
  | .remove key => remove A depth key
  | .removePrefix key => do
    removePrefix A depth key
    return none
  | .clear => do
    clear depth
    return none
  | .write key val => write key val

/-- A run of calls: what each handed back. -/
def run : List (Trie.TrieMap.Op T) → Prog T (List (Option T))
  | [] => return []
  | op :: ops => do
    let res ← apply A depth op
    let rest ← run ops
    return res :: rest

end TrieMap

end Placed

end Trie
