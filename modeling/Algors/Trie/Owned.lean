import Algors.Lib.Ownership
import Algors.Raw
import Algors.Trie.Map

/-!
# Nodes that own

The nodes of `Node` have a value or have none. The source has a slot for a value in
every header, `MaybeUninit`, and knows from a bit of the node's pointer whether
something is in it. Nodes are blocks of the allocator, a node owns the value in its
slot and the nodes in its vector of children, and all of these are moved from node to
node bit by bit; what the compiler does not see, the code has to drop and free by
itself.

Here the operations are written once more, on nodes that have a block, a tag and a
slot, with every allocation, every freeing, every reading and every dropping of a
slot where the source has it. What the source must not do is `undefined`: to read or
drop a slot in which no value is, to free a block that is not allocated, and to pass
the vector a length that is not its own.
-/

namespace Trie

namespace Owned

variable {T : Type}

/-- A program on nodes. -/
abbrev Own (T : Type) := Owning Stop T

/-- A step that neither allocates nor drops. -/
abbrev Own.lift {α : Type} (x : Rust α) : Own T α := Owning.lift (Raw.lift x)

/-- What has no meaning. -/
abbrev Own.undefined {α : Type} : Own T α := Owning.lift (.error .undefined)

theorem Own.lift_ok_bind {α β : Type} (a : α) (f : α → Own T β) : Own.lift (.ok a) >>= f = f a :=
  rfl

/-! ## The slot of a value -/

/-- **`MaybeUninit<T>`**: a value, or nothing that may be looked at. -/
inductive Slot (T : Type) where
  | vacant
  | live (v : T)
deriving DecidableEq

namespace Slot

/-- Whether there is a value. -/
def isLive : Slot T → Bool
  | vacant => false
  | live _ => true

/-- `as_ptr().read()`, which moves the value out. -/
def read : Slot T → Own T (T × Slot T)
  | vacant => Own.undefined
  | live v => pure (v, vacant)

/-- `assume_init_drop`. -/
def drop : Slot T → Own T (Slot T)
  | vacant => Own.undefined
  | live v => do
    Owning.dispose v
    return vacant

/-- `as_mut_ptr().write(val)`, which drops nothing. -/
def write (_self : Slot T) (val : T) : Slot T := live val

end Slot

/-! ## Nodes -/

/-- The fields every node starts with. -/
structure Header (T : Type) where
  pfx : Prefix
  val : Slot T
deriving DecidableEq

/-- **A node in a block**, with the bit of its pointer that says whether it has a
value. The bit for a leaf is the constructor. -/
inductive Node (T : Type) where
  | leaf (pt : ℕ) (valTag : Bool) (header : Header T)
  | internal (pt : ℕ) (valTag : Bool) (header : Header T) (bitmap : Bitmap)
      (children : List (Node T))

namespace Node

/-- The block of a node. -/
def pt : Node T → ℕ
  | leaf pt _ _ => pt
  | internal pt _ _ _ _ => pt

/-- `Node::has_val`: the tag. -/
def hasVal : Node T → Bool
  | leaf _ valTag _ => valTag
  | internal _ valTag _ _ _ => valTag

/-- The header, at the start of either kind of node. -/
def header : Node T → Header T
  | leaf _ _ h => h
  | internal _ _ h _ _ => h

/-- Writing through `as_header`, and setting or clearing the tag. -/
def setHeader (self : Node T) (valTag : Bool) (h : Header T) : Node T :=
  match self with
  | leaf pt _ _ => leaf pt valTag h
  | internal pt _ _ bitmap cs => internal pt valTag h bitmap cs

/-- `Node::prefix`. -/
def pfx (self : Node T) : Prefix := self.header.pfx

/-- Assigning `*node.prefix_mut()`. -/
def setPfx (self : Node T) (p : Prefix) : Node T :=
  self.setHeader self.hasVal { self.header with pfx := p }

/-- `Node::new_leaf`. -/
def newLeaf [Target] (data : Bytes) (val : Option T) : Own T (Node T) := do
  let pfx ← Own.lift (Prefix.new data)
  let slot := match val with
    | some v => .live v
    | none => .vacant
  let pt ← Owning.alloc
  return leaf pt val.isSome ⟨pfx, slot⟩

/-- `Node::new`. -/
def new [Target] (data : Bytes) : Own T (Node T) := newLeaf data none

/-- `Node::take_val`. -/
def takeVal (self : Node T) : Own T (Option T × Node T) :=
  if self.hasVal then do
    let (v, slot) ← self.header.val.read
    return (some v, self.setHeader false { self.header with val := slot })
  else return (none, self)

/-- `Node::set_val`. -/
def setVal (self : Node T) (val : T) : Own T (Node T) := do
  -- drop old value to avoid leaking it
  let slot ← if self.hasVal then self.header.val.drop else pure self.header.val
  return self.setHeader true { self.header with val := slot.write val }

/-- `if let Some(v) = v` and `Node::set_val`. -/
def setSome (self : Node T) : Option T → Own T (Node T)
  | some v => self.setVal v
  | none => return self

/-- The stored children: none in a leaf. -/
def children : Node T → List (Node T)
  | leaf _ _ _ => []
  | internal _ _ _ _ cs => cs

/-- `Node::len_children`. -/
def lenChildren : Node T → ℕ
  | leaf _ _ _ => 0
  | internal _ _ _ bitmap _ => bitmap.lenChildren

/-- `Node::child_exists`. -/
def childExists (self : Node T) (pos : ChildPos) : Bool :=
  match self with
  | leaf _ _ _ => false
  | internal _ _ _ bitmap _ => bitmap.test pos

/-- `Node::get_child_by_idx`. -/
def getChildByIdx (self : Node T) (idx : ℕ) : Option (Node T) :=
  match self with
  | leaf _ _ _ => none
  | internal _ _ _ bitmap cs => BoundedRawVec.get cs idx bitmap.lenChildren

/-- `Node::get_child_by_pos`, and the child of `get_mut_child_by_pos`. -/
def getChildByPos (self : Node T) (pos : ChildPos) : Option (Node T) :=
  match self with
  | leaf _ _ _ => none
  | internal _ _ _ bitmap cs => BoundedRawVec.get cs (bitmap.childIdx pos) bitmap.lenChildren

/-- What the node is after its child at `pos` was changed to `child` in its place. -/
def setChildByPos (self : Node T) (pos : ChildPos) (child : Node T) : Node T :=
  match self with
  | leaf pt valTag h => leaf pt valTag h
  | internal pt valTag h bitmap cs =>
    internal pt valTag h bitmap (cs.set (bitmap.childIdx pos) child)

/-- `Node::child_pos_from_idx`. -/
def childPosFromIdx (self : Node T) (idx : ℕ) : Rust ChildPos := do
  let child ← Rust.expect "Index out of bounds" (self.getChildByIdx idx)
  let byte ← child.pfx.firstByte
  return childPosFromByte byte

/-- `Node::upgrade_to_internal`: the header moves to a new block. -/
def upgradeToInternal : Node T → Own T (Node T)
  | leaf pt valTag h => do
    Owning.free .undefined pt
    let pt ← Owning.alloc
    return internal pt valTag h Bitmap.zero []
  | internal pt valTag h bitmap cs => return internal pt valTag h bitmap cs

/-- `BoundedRawVec::insert`, which moves `element` into the vector. -/
def vecInsert (cs : List (Node T)) (i : ℕ) (element : Node T) (len : ℕ) : Own T (List (Node T)) :=
  if len = cs.length ∧ i ≤ len then Own.lift (BoundedRawVec.insert cs i element len)
  else Own.undefined

/-- `BoundedRawVec::remove`, which moves an element out of the vector. -/
def vecRemove (cs : List (Node T)) (i len : ℕ) : Own T (Option (Node T) × List (Node T)) :=
  if len = cs.length then return BoundedRawVec.remove cs i len else Own.undefined

/-- `Node::insert_child`. -/
def insertChild (self : Node T) (pos : ChildPos) (child : Node T) : Own T (Node T) := do
  match ← self.upgradeToInternal with
  | leaf _ _ _ => Own.undefined
  | internal pt valTag h bitmap cs => do
    let cs ← vecInsert cs (bitmap.childIdx pos) child bitmap.lenChildren
    return internal pt valTag h (bitmap.set pos) cs

/-- `Node::remove_child`. -/
def removeChild (self : Node T) (pos : ChildPos) : Own T (Option (Node T) × Node T) :=
  match self with
  | leaf pt valTag h => return (none, leaf pt valTag h)
  | internal pt valTag h bitmap cs => do
    let (res, cs) ← vecRemove cs (bitmap.childIdx pos) bitmap.lenChildren
    return (res, internal pt valTag h (bitmap.clear pos) cs)

/-- The value of a node at its end: dropped when the tag says that there is one. -/
def dropVal (valTag : Bool) (val : Slot T) : Own T Unit :=
  if valTag then do
    let _slot ← val.drop
    return ()
  else return ()

mutual

/-- **`Node::drop`**: the value if the tag says so, the children, the block. -/
def drop : Node T → Own T Unit
  | leaf pt valTag h => do
    dropVal valTag h.val
    Owning.free .undefined pt
  | internal pt valTag h bitmap cs => do
    dropVal valTag h.val
    deallocate cs bitmap.lenChildren
    Owning.free .undefined pt

/-- `BoundedRawVec::deallocate`: the first `len` elements are dropped in place. -/
def deallocate : List (Node T) → ℕ → Own T Unit
  | _, 0 => return ()
  | [], _ + 1 => Own.undefined
  | c :: cs, len + 1 => do
    c.drop
    deallocate cs len

end

/-- A node that goes out of scope, if there is one. -/
def dropOption : Option (Node T) → Own T Unit
  | none => return ()
  | some n => n.drop

/-- `Node::transfer_children`: the destination's own children are dropped. -/
def transferChildren (self other : Node T) : Own T (Node T × Node T) :=
  match self with
  | leaf pt valTag h => return (leaf pt valTag h, other)
  | internal pt valTag h bitmap cs => do
    match ← other.upgradeToInternal with
    | leaf _ _ _ => Own.undefined
    | internal pt' valTag' h' bitmap' cs' => do
      deallocate cs' bitmap'.lenChildren
      return (internal pt valTag h Bitmap.zero [], internal pt' valTag' h' bitmap cs)

end Node

/-! ## The map -/

/-- **The trie map.** -/
structure TrieMap (T : Type) where
  root : Option (Node T)

/-- The nodes a walk has passed and the positions it followed, the deepest first. -/
abbrev Visited (T : Type) := List (Node T × ChildPos)

namespace TrieMap

/-- `TrieMap::new`. -/
def new : TrieMap T := ⟨none⟩

/-- `TrieMap::drop`, of its root. -/
def drop (self : TrieMap T) : Own T Unit := Node.dropOption self.root

/-- `TrieMap::clear`: the assignment drops the old root. -/
def clear (self : TrieMap T) : Own T (TrieMap T) := do
  Node.dropOption self.root
  return ⟨none⟩

variable [Target]

/-! ### Insertion -/

/-- Splitting a node whose prefix goes on past the common part. -/
def split (curNode : Node T) (lcpLen : ℕ) : Own T (Node T) := do
  let splitData ← Own.lift (Rust.sliceFrom curNode.pfx.bytes lcpLen)
  let splitNode ← Node.new splitData
  let (v, curNode) ← curNode.takeVal
  let splitNode ← splitNode.setSome v
  let newData ← Own.lift (Rust.sliceTo curNode.pfx.bytes lcpLen)
  let newPrefix ← Own.lift (Prefix.new newData)
  let (curNode, splitNode) ← (curNode.setPfx newPrefix).transferChildren splitNode
  let splitNodeByte ← Own.lift splitNode.pfx.firstByte
  curNode.insertChild (childPosFromByte splitNodeByte) splitNode

/-- The loop of `TrieMap::insert`, from a node down. -/
def insertLoop : ℕ → Node T → Bytes → T → Own T (Node T)
  | 0, _, _, _ => Own.lift (.error .diverges)
  | fuel + 1, curNode, curData, val => do
    let lcpLen := Util.lcp curNode.pfx.bytes curData
    let curNode ← if lcpLen < curNode.pfx.len then split curNode lcpLen else pure curNode
    if lcpLen = curData.length then
      -- already exists. overwrite the value
      curNode.setVal val
    else do
      let curData ← Own.lift (Rust.sliceFrom curData lcpLen)
      let byte ← Own.lift (Rust.index curData 0)
      let childPos := childPosFromByte byte
      if curNode.childExists childPos then do
        let child ← Own.lift (Rust.unwrap (curNode.getChildByPos childPos))
        let child ← insertLoop fuel child curData val
        return curNode.setChildByPos childPos child
      else do
        let newChild ← Node.new curData
        let newChild ← newChild.setVal val
        curNode.insertChild childPos newChild

/-- `TrieMap::insert`. With an empty key the value goes out of scope. -/
def insert (self : TrieMap T) (key : Bytes) (val : T) : Own T (TrieMap T) :=
  if key = [] then do
    Owning.dispose val
    return self
  else
    match self.root with
    | none => do
      let newNode ← Node.new key
      let newNode ← newNode.setVal val
      return ⟨some newNode⟩
    | some root => do
      let root ← insertLoop (walkBound key) root key val
      return ⟨some root⟩

/-! ### Removal -/

/-- The root, when the node a walk ended at has become `cur`. -/
def plug (cur : Node T) : Visited T → Node T
  | [] => cur
  | (parent, childPos) :: rest => plug (parent.setChildByPos childPos cur) rest

/-- Merging a parent with its only child, which goes out of scope. -/
def mergeChild (parent : Node T) : Own T (Node T) := do
  let pos ← Own.lift (parent.childPosFromIdx 0)
  let (child, parent) ← parent.removeChild pos
  let child ← Own.lift (Rust.unwrap child)
  let newPrefix ← Own.lift (Prefix.fromSlices [parent.pfx.bytes, child.pfx.bytes])
  let (child, parent) ← child.transferChildren (parent.setPfx newPrefix)
  let (v, child) ← child.takeVal
  let parent ← parent.setSome v
  child.drop
  return parent

/-- Dropping the child at `childPos` when it is empty. -/
def removeEmpty (parent : Node T) (childPos : ChildPos) (visitedChild : Node T) :
    Own T (Node T) :=
  if visitedChild.lenChildren = 0 ∧ visitedChild.hasVal = false then do
    let (removed, parent) ← parent.removeChild childPos
    Node.dropOption removed
    return parent
  else return parent

/-- One turn of the loop of `TrieMap::compress`. -/
def compressParent (cur parent : Node T) (childPos : ChildPos) : Own T (Node T × Bool) := do
  let parent := parent.setChildByPos childPos cur
  let visitedChild ← Own.lift (Rust.unwrap (parent.getChildByPos childPos))
  let parent ← removeEmpty parent childPos visitedChild
  if parent.lenChildren = 1 ∧ parent.hasVal = false then do
    let parent ← mergeChild parent
    return (parent, true)
  else return (parent, false)

/-- The loop of `TrieMap::compress`. -/
def compressLoop (cur : Node T) : Visited T → Own T (Node T)
  | [] => return cur
  | (parent, childPos) :: rest => do
    let (parent, goOn) ← compressParent cur parent childPos
    if goOn then compressLoop parent rest else return plug parent rest

/-- The end of `TrieMap::compress`: an assignment to the root drops the old one. -/
def compressRoot (root : Node T) : Own T (Option (Node T)) :=
  if root.hasVal then return some root
  else if root.lenChildren = 0 then do
    root.drop
    return none
  else if root.lenChildren = 1 then do
    let pos ← Own.lift (root.childPosFromIdx 0)
    let (child, root) ← root.removeChild pos
    let child ← Own.lift (Rust.unwrap child)
    let newPrefix ← Own.lift (Prefix.fromSlices [root.pfx.bytes, child.pfx.bytes])
    root.drop
    return some (child.setPfx newPrefix)
  else return some root

/-- `TrieMap::compress`, called after the node at the end of `visited` has become
`cur`. -/
def compress (cur : Node T) (visited : Visited T) : Own T (Option (Node T)) := do
  let root ← compressLoop cur visited
  compressRoot root

/-- The loop of `TrieMap::remove`, which changes nothing. -/
def removeLoop : ℕ → Node T → Bytes → Visited T → Rust (Option (Node T × Visited T))
  | 0, _, _, _ => .error .diverges
  | fuel + 1, curNode, curData, visited =>
    let lcpLen := Util.lcp curNode.pfx.bytes curData
    if lcpLen < curNode.pfx.len then .ok none
    else if lcpLen = curData.length then .ok (some (curNode, visited))
    else do
      let curData ← Rust.sliceFrom curData lcpLen
      let byte ← Rust.index curData 0
      let nextPos := childPosFromByte byte
      if curNode.childExists nextPos then do
        let child ← Rust.unwrap (curNode.getChildByPos nextPos)
        removeLoop fuel child curData ((curNode, nextPos) :: visited)
      else .ok none

/-- `TrieMap::remove`: the value goes to the caller. -/
def remove (self : TrieMap T) (key : Bytes) : Own T (Option T × TrieMap T) :=
  if key = [] then return (none, self)
  else
    match self.root with
    | none => return (none, self)
    | some root => do
      match ← Own.lift (removeLoop (walkBound key) root key []) with
      | none => return (none, self)
      | some (curNode, visited) => do
        let (res, curNode) ← curNode.takeVal
        -- a branching node without a value: no need to compress here
        if res.isNone then return (res, self)
        else do
          let root ← compress curNode visited
          return (res, ⟨root⟩)

/-- The loop of `TrieMap::remove_prefix`. -/
def removePrefixLoop : ℕ → Node T → Bytes → Visited T → Rust (Option (Node T × Visited T))
  | 0, _, _, _ => .error .diverges
  | fuel + 1, curNode, remPref, visited =>
    let lcpLen := Util.lcp curNode.pfx.bytes remPref
    if lcpLen = remPref.length then .ok (some (curNode, visited))
    else if lcpLen < curNode.pfx.len then .ok none
    else do
      let remPref ← Rust.sliceFrom remPref lcpLen
      let byte ← Rust.index remPref 0
      let nextPos := childPosFromByte byte
      if curNode.childExists nextPos then do
        let child ← Rust.unwrap (curNode.getChildByPos nextPos)
        removePrefixLoop fuel child remPref ((curNode, nextPos) :: visited)
      else .ok none

/-- `TrieMap::remove_prefix`. -/
def removePrefix (self : TrieMap T) (key : Bytes) : Own T (TrieMap T) :=
  if key = [] then do
    Node.dropOption self.root
    return ⟨none⟩
  else
    match self.root with
    | none => return self
    | some root => do
      match ← Own.lift (removePrefixLoop (walkBound key) root key []) with
      | none => return self
      | some (_, []) => do
        root.drop
        return ⟨none⟩
      | some (_, (termParent, childPos) :: visited) => do
        let (removed, termParent) ← termParent.removeChild childPos
        Node.dropOption removed
        let root ← compress termParent visited
        return ⟨root⟩

end TrieMap

end Owned

end Trie
