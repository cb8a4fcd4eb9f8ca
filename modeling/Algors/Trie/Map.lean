import Algors.Trie.Node

/-!
# The trie map

The operations of `TrieMap`, as the source performs them. A walk down the
tree is a loop on a node and the key that is left; every turn of it but the
first uses up a byte of the key, so `walkBound` is a bound it does not reach,
and running past it is the fault `diverges`.

The source changes nodes in place. An insertion rewrites the path from the
root, which the recursion of `insertLoop` does on its way back. A removal
keeps the nodes it passed as raw pointers, and what it changes at the bottom
shows in all of them; here the path is a list of the nodes as they were
passed, deepest first, and each is brought up to date with the node below it
when `compress` comes back to it, or all at once by `plug` where `compress`
stops. `get_mut` hands out a reference, which is the value there together
with what the map becomes when another value is written through it.
-/

variable [Target]

namespace Trie

variable {T : Type}

/-- **The trie map.** -/
structure TrieMap (T : Type) where
  root : Option (Node T)

/-- The nodes a walk has passed and the child positions it followed, the
deepest first: the source's `visited`, whose back is the front here. -/
abbrev Visited (T : Type) := List (Node T × ChildPos)

/-- A walk takes at most one turn for each byte of the key, and one at the
root. -/
def walkBound (key : Bytes) : ℕ := key.length + 1

namespace TrieMap

/-- `TrieMap::new`. -/
def new : TrieMap T := ⟨none⟩

/-- `TrieMap::is_empty`. -/
def isEmpty (self : TrieMap T) : Bool := self.root.isNone

/-- `TrieMap::clear`. -/
def clear (_self : TrieMap T) : TrieMap T := ⟨none⟩

/-! ## Insertion -/

/-- Splitting a node whose prefix goes on past the common part: the rest of
the prefix, the value and the children move to a new node, which becomes the
only child. -/
def split (curNode : Node T) (lcpLen : ℕ) : Rust (Node T) := do
  let splitData ← Rust.sliceFrom curNode.pfx.bytes lcpLen
  let splitNode ← Node.new splitData
  let (v, curNode) := curNode.takeVal
  let splitNode := match v with
    | some v => splitNode.setVal v
    | none => splitNode
  let newData ← Rust.sliceTo curNode.pfx.bytes lcpLen
  let newPrefix ← Prefix.new newData
  let curNode := curNode.setPfx newPrefix
  let (curNode, splitNode) := curNode.transferChildren splitNode
  let splitNodeByte ← splitNode.pfx.firstByte
  curNode.insertChild (childPosFromByte splitNodeByte) splitNode

/-- The loop of `TrieMap::insert`, from a node down. -/
def insertLoop : ℕ → Node T → Bytes → T → Rust (Node T)
  | 0, _, _, _ => .error .diverges
  | fuel + 1, curNode, curData, val => do
    let lcpLen := Util.lcp curNode.pfx.bytes curData
    let curNode ← if lcpLen < curNode.pfx.len then split curNode lcpLen else .ok curNode
    if lcpLen = curData.length then
      -- already exists. overwrite the value
      .ok (curNode.setVal val)
    else do
      let curData ← Rust.sliceFrom curData lcpLen
      let byte ← Rust.index curData 0
      let childPos := childPosFromByte byte
      if curNode.childExists childPos then do
        let child ← Rust.unwrap (curNode.getChildByPos childPos)
        let child ← insertLoop fuel child curData val
        .ok (curNode.setChildByPos childPos child)
      else do
        let newChild ← Node.new curData
        curNode.insertChild childPos (newChild.setVal val)

/-- `TrieMap::insert`. -/
def insert (self : TrieMap T) (key : Bytes) (val : T) : Rust (TrieMap T) :=
  if key = [] then .ok self
  else
    match self.root with
    | none => do
      let newNode ← Node.new key
      .ok ⟨some (newNode.setVal val)⟩
    | some root => do
      let root ← insertLoop (walkBound key) root key val
      .ok ⟨some root⟩

/-! ## Removal -/

/-- The root, when the node a walk ended at has become `cur`: every node
passed with its child on the path replaced by what that is now. -/
def plug (cur : Node T) : Visited T → Node T
  | [] => cur
  | (parent, childPos) :: rest => plug (parent.setChildByPos childPos cur) rest

/-- Merging a parent with its only child: the child's prefix, children and
value go to the parent. -/
def mergeChild (parent : Node T) : Rust (Node T) := do
  let pos ← parent.childPosFromIdx 0
  let (child, parent) := parent.removeChild pos
  let child ← Rust.unwrap child
  let newPrefix ← Prefix.fromSlices [parent.pfx.bytes, child.pfx.bytes]
  let parent := parent.setPfx newPrefix
  let (child, parent) := child.transferChildren parent
  .ok (match child.takeVal.1 with
    | some v => parent.setVal v
    | none => parent)

/-- One turn of the loop of `TrieMap::compress` on the parent of a node that
has become `cur`: an empty child is removed, and a parent left with a single
child and no value takes that child in. The flag says whether the loop goes
on above. -/
def compressParent (cur parent : Node T) (childPos : ChildPos) : Rust (Node T × Bool) := do
  let parent := parent.setChildByPos childPos cur
  let visitedChild ← Rust.unwrap (parent.getChildByPos childPos)
  let parent :=
    if visitedChild.lenChildren = 0 ∧ visitedChild.hasVal = false then
      (parent.removeChild childPos).2
    else parent
  if parent.lenChildren = 1 ∧ parent.hasVal = false then do
    let parent ← mergeChild parent
    .ok (parent, true)
  else
    .ok (parent, false)

/-- The loop of `TrieMap::compress`, which breaks at the first parent that is
not merged. -/
def compressLoop (cur : Node T) : Visited T → Rust (Node T)
  | [] => .ok cur
  | (parent, childPos) :: rest => do
    let (parent, goOn) ← compressParent cur parent childPos
    if goOn then compressLoop parent rest else .ok (plug parent rest)

/-- The end of `TrieMap::compress`: a root without a value and children goes,
one with a single child is replaced by it. -/
def compressRoot (root : Node T) : Rust (Option (Node T)) :=
  if root.hasVal then .ok (some root)
  else if root.lenChildren = 0 then .ok none
  else if root.lenChildren = 1 then do
    let pos ← root.childPosFromIdx 0
    let (child, root) := root.removeChild pos
    let child ← Rust.unwrap child
    let newPrefix ← Prefix.fromSlices [root.pfx.bytes, child.pfx.bytes]
    .ok (some (child.setPfx newPrefix))
  else .ok (some root)

/-- `TrieMap::compress`, called after the node at the end of `visited` has
become `cur`. -/
def compress (cur : Node T) (visited : Visited T) : Rust (Option (Node T)) := do
  let root ← compressLoop cur visited
  compressRoot root

/-- The loop of `TrieMap::remove`: the node the key ends at, and the path to
it. -/
def removeLoop : ℕ → Node T → Bytes → Visited T → Rust (Option (Node T × Visited T))
  | 0, _, _, _ => .error .diverges
  | fuel + 1, curNode, curData, visited =>
    let lcpLen := Util.lcp curNode.pfx.bytes curData
    if lcpLen < curNode.pfx.len then .ok none
    else if lcpLen = curData.length then .ok (some (curNode, visited))
    else do
      let curData ← Rust.sliceFrom curData lcpLen
      let byte ← Rust.index curData 0
      let nextPos := childPosFromByte byte
      if curNode.childExists nextPos then do
        let child ← Rust.unwrap (curNode.getChildByPos nextPos)
        removeLoop fuel child curData ((curNode, nextPos) :: visited)
      else .ok none

/-- `TrieMap::remove`: the value that was there, and the map without it. -/
def remove (self : TrieMap T) (key : Bytes) : Rust (Option T × TrieMap T) :=
  if key = [] then .ok (none, self)
  else
    match self.root with
    | none => .ok (none, self)
    | some root => do
      match ← removeLoop (walkBound key) root key [] with
      | none => .ok (none, self)
      | some (curNode, visited) =>
        let (res, curNode) := curNode.takeVal
        -- a branching node without a value: no need to compress here
        if res.isNone then .ok (res, self)
        else do
          let root ← compress curNode visited
          .ok (res, ⟨root⟩)

/-- The loop of `TrieMap::remove_prefix`: the node inside whose prefix the
searched prefix ends, and the path to it. -/
def removePrefixLoop : ℕ → Node T → Bytes → Visited T → Rust (Option (Node T × Visited T))
  | 0, _, _, _ => .error .diverges
  | fuel + 1, curNode, remPref, visited =>
    let lcpLen := Util.lcp curNode.pfx.bytes remPref
    if lcpLen = remPref.length then .ok (some (curNode, visited))
    else if lcpLen < curNode.pfx.len then .ok none
    else do
      let remPref ← Rust.sliceFrom remPref lcpLen
      let byte ← Rust.index remPref 0
      let nextPos := childPosFromByte byte
      if curNode.childExists nextPos then do
        let child ← Rust.unwrap (curNode.getChildByPos nextPos)
        removePrefixLoop fuel child remPref ((curNode, nextPos) :: visited)
      else .ok none

/-- `TrieMap::remove_prefix`. -/
def removePrefix (self : TrieMap T) (key : Bytes) : Rust (TrieMap T) :=
  if key = [] then .ok ⟨none⟩
  else
    match self.root with
    | none => .ok self
    | some root => do
      match ← removePrefixLoop (walkBound key) root key [] with
      | none => .ok self
      | some (_, []) => .ok ⟨none⟩
      | some (_, (termParent, childPos) :: visited) => do
        let root ← compress (termParent.removeChild childPos).2 visited
        .ok ⟨root⟩

/-! ## Lookup -/

/-- The loop of `TrieMap::get`. -/
def getLoop : ℕ → Node T → Bytes → Rust (Option T)
  | 0, _, _ => .error .diverges
  | fuel + 1, curNode, curData =>
    let lcpLen := Util.lcp curNode.pfx.bytes curData
    if lcpLen < curNode.pfx.len then .ok none
    else if lcpLen = curData.length then .ok curNode.val
    else do
      let curData ← Rust.sliceFrom curData lcpLen
      let byte ← Rust.index curData 0
      let childPos := childPosFromByte byte
      if curNode.childExists childPos then do
        let child ← Rust.unwrap (curNode.getChildByPos childPos)
        getLoop fuel child curData
      else .ok none

/-- `TrieMap::get`. -/
def get (self : TrieMap T) (key : Bytes) : Rust (Option T) :=
  if key = [] then .ok none
  else
    match self.root with
    | none => .ok none
    | some root => getLoop (walkBound key) root key

/-- The loop of `TrieMap::get_mut`: the value found, and what the node
becomes when another is written through the reference. -/
def getMutLoop : ℕ → Node T → Bytes → Rust (Option (T × (T → Node T)))
  | 0, _, _ => .error .diverges
  | fuel + 1, curNode, curData =>
    let lcpLen := Util.lcp curNode.pfx.bytes curData
    if lcpLen < curNode.pfx.len then .ok none
    else if lcpLen = curData.length then .ok (curNode.val.map fun v => (v, curNode.setVal))
    else do
      let curData ← Rust.sliceFrom curData lcpLen
      let byte ← Rust.index curData 0
      let childPos := childPosFromByte byte
      if curNode.childExists childPos then do
        let child ← Rust.unwrap (curNode.getChildByPos childPos)
        let res ← getMutLoop fuel child curData
        .ok (res.map fun r => (r.1, fun v => curNode.setChildByPos childPos (r.2 v)))
      else .ok none

/-- `TrieMap::get_mut`. -/
def getMut (self : TrieMap T) (key : Bytes) : Rust (Option (T × (T → TrieMap T))) :=
  if key = [] then .ok none
  else
    match self.root with
    | none => .ok none
    | some root => do
      let res ← getMutLoop (walkBound key) root key
      .ok (res.map fun r => (r.1, fun v => ⟨some (r.2 v)⟩))

/-- `TrieMap::contains`. -/
def contains (self : TrieMap T) (key : Bytes) : Rust Bool := do
  let res ← self.get key
  .ok res.isSome

/-! ## Traversal -/

/-- The loop of `TrieMap::find_prefix_node`. -/
def findPrefixLoop : ℕ → Node T → Bytes → Rust (Option (Node T × ℕ))
  | 0, _, _ => .error .diverges
  | fuel + 1, curNode, curData =>
    let lcpLen := Util.lcp curNode.pfx.bytes curData
    -- prefix ends at this node, whole or in part
    if lcpLen = curData.length then .ok (some (curNode, lcpLen))
    else if lcpLen < curNode.pfx.len then .ok none
    else do
      let curData ← Rust.sliceFrom curData lcpLen
      let byte ← Rust.index curData 0
      let childPos := childPosFromByte byte
      if curNode.childExists childPos then do
        let child ← Rust.unwrap (curNode.getChildByPos childPos)
        findPrefixLoop fuel child curData
      else .ok none

/-- `TrieMap::find_prefix_node`: the node a prefix ends at, and the offset
inside that node's prefix where it ends. -/
def findPrefixNode (self : TrieMap T) (key : Bytes) : Rust (Option (Node T × ℕ)) :=
  match self.root with
  | none => .ok none
  | some root =>
    if key = [] then .ok (some (root, 0)) else findPrefixLoop (walkBound key) root key

/-- **The suffix a callback is shown**: the prefixes it is made of, and the
length the traversal kept. -/
structure SuffixRef where
  chunks : List Bytes
  len : ℕ
deriving DecidableEq

namespace SuffixRef

/-- `SuffixRef::is_empty`. -/
def isEmpty (self : SuffixRef) : Bool := self.len == 0

/-- `SuffixRef::to_vec`. -/
def toVec (self : SuffixRef) : Bytes := self.chunks.flatten

end SuffixRef

section

variable {σ : Type} (f : SuffixRef → T → σ → σ)

/-- The call of `f` for a node with a value; what `f` captures is its state. -/
def visit (node : Header T) (chunks : List Bytes) (currentLen : ℕ) (s : σ) : σ :=
  match node.val with
  | some value => f ⟨chunks, currentLen⟩ value s
  | none => s

mutual

/-- `TrieMap::for_each_prefix_from_node`. -/
def forEachPrefixFromNode : Node T → List Bytes → ℕ → σ → σ
  | .leaf h, chunks, currentLen, s => visit f h chunks currentLen s
  | .internal h bitmap cs, chunks, currentLen, s =>
    forEachChild cs bitmap.lenChildren chunks currentLen (visit f h chunks currentLen s)

/-- Its loop over the children, as many as the node says it has. -/
def forEachChild : List (Node T) → ℕ → List Bytes → ℕ → σ → σ
  | child :: cs, len + 1, chunks, currentLen, s =>
    forEachChild cs len chunks currentLen
      (forEachPrefixFromNode child (chunks ++ [child.pfx.bytes]) (currentLen + child.pfx.len) s)
  | _, _, _, _, s => s

end

/-- `TrieMap::for_each_prefix`. -/
def forEachPrefix (self : TrieMap T) (key : Bytes) (s : σ) : Rust σ := do
  match ← self.findPrefixNode key with
  | none => .ok s
  | some (node, offset) => do
    let first ← Rust.sliceFrom node.pfx.bytes offset
    if first = [] then .ok (forEachPrefixFromNode f node [] 0 s)
    else .ok (forEachPrefixFromNode f node [first] first.length s)

end

/-! ## Runs -/

/-- The calls that change a map; `write` is `get_mut` and an assignment
through the reference it returns. -/
inductive Op (T : Type) where
  | insert (key : Bytes) (val : T)
  | remove (key : Bytes)
  | removePrefix (key : Bytes)
  | clear
  | write (key : Bytes) (val : T)
deriving DecidableEq

/-- The key of a call. -/
def Op.key : Op T → Bytes
  | .insert key _ | .remove key | .removePrefix key | .write key _ => key
  | .clear => []

/-- One call: the value it hands back – of `remove` the value removed, of
`write` the value found – and the map after it. -/
def apply (self : TrieMap T) : Op T → Rust (Option T × TrieMap T)
  | .insert key val => do
    let m ← self.insert key val
    .ok (none, m)
  | .remove key => self.remove key
  | .removePrefix key => do
    let m ← self.removePrefix key
    .ok (none, m)
  | .clear => .ok (none, self.clear)
  | .write key val => do
    match ← self.getMut key with
    | none => .ok (none, self)
    | some (v, back) => .ok (some v, back val)

/-- A run of calls: what each handed back, and the map at the end. -/
def run (self : TrieMap T) : List (Op T) → Rust (List (Option T) × TrieMap T)
  | [] => .ok ([], self)
  | op :: ops => do
    let (res, m) ← self.apply op
    let (rest, m) ← m.run ops
    .ok (res :: rest, m)

end TrieMap

end Trie
