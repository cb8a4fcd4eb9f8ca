import Algors.Lib.Blocks
import Algors.Trie.Map
import Algors.Trie.Owned
import Algors.Trie.Packed
import Algors.Trie.RawVec

/-!
# Nodes in memory

A node is a word: the address of a block, with two tag bits in the lowest places, one
for a leaf and one for a value. The block is a `LeafNode` or an `InternalNode`, with the 16
bytes of a packed prefix and a slot for the value; an internal node has its bitmap and the
word of its vector as well, the vector has a buffer of the words of the children, and a
long prefix has a block of bytes.

Here the operations are written on these words and blocks, with every pointer that the
source follows, and every block that it allocates and frees. The allocator is a parameter,
and may look at all of the memory, and at how often it was asked; a null pointer is its
answer when there is no room. `undefined` is what the source may never do: following a
pointer to where there is no such block, or no value, or freeing a block with another
layout than it was allocated with.
-/

namespace Trie

namespace Placed

open Owned (Slot)

variable [Target]

/-! ## What is in memory -/

/-- `Node`: a pointer with its tags. -/
structure Node where
  ptr : Usize
deriving DecidableEq

/-- The fields every node starts with. -/
structure Header (T : Type) where
  pfx : Packed
  val : Slot T
deriving DecidableEq

/-- `LeafNode`. -/
structure LeafNode (T : Type) where
  header : Header T
deriving DecidableEq

/-- `InternalNode`. -/
structure InternalNode (T : Type) where
  header : Header T
  bitmap : Bitmap
  children : RawVec
deriving DecidableEq

/-- **What is in the block of a node.** -/
inductive NodeBlock (T : Type) where
  | leaf (node : LeafNode T)
  | internal (node : InternalNode T)
deriving DecidableEq

namespace NodeBlock

variable {T : Type}

/-- The header, at the start of either kind of node. -/
def header : NodeBlock T → Header T
  | leaf node => node.header
  | internal node => node.header

/-- Writing to the header. -/
def setHeader (self : NodeBlock T) (h : Header T) : NodeBlock T :=
  match self with
  | leaf node => leaf { node with header := h }
  | internal node => internal { node with header := h }

end NodeBlock

/-- **The memory of a trie**: the blocks of nodes, the buffers of vectors, the bytes of
long prefixes with the layouts of their blocks; the root, the values that were dropped, and
how often the allocator was asked. -/
structure Heap (T : Type) where
  nodes : Blocks Usize Layout (NodeBlock T)
  buffers : Buffers Node
  bytes : Memory
  chunks : ℕ → Option Layout
  root : Option Node
  dropped : List T
  ticks : ℕ

/-- The memory at the start. -/
def Heap.empty (T : Type) : Heap T := ⟨fun _ => none, fun _ => none, fun _ => .free,
  fun _ => none, none, [], 0⟩

/-- What `alloc` returns. -/
abbrev Allocator (T : Type) := Heap T → Layout → Usize

/-- A program on the memory. -/
abbrev Prog (T : Type) := StateT (Heap T) (Except Stop)

/-- Pointers of 4 or 8 bytes. -/
class PointerWidth : Prop where
  eq : PTR_SIZE = 4 ∨ PTR_SIZE = 8

/-- A node is a word. -/
instance [h : PointerWidth] : Elem Node where
  size := PTR_SIZE
  align := PTR_SIZE
  size_pos := by rcases h.eq with h | h <;> rw [h] <;> decide
  size_le := by
    have hall : ∀ n, n = 4 ∨ n = 8 → n ≤ 2 ^ (8 * n - 1) - 1 := by
      rintro n (rfl | rfl) <;> decide
    exact hall PTR_SIZE h.eq
  align_pow := by rcases h.eq with h | h <;> rw [h] <;> decide

/-- `NODE_ALLOC_ALIGN`. -/
def NODE_ALLOC_ALIGN : ℕ := 4

/-- `Layout::align_to`. -/
def alignTo (layout : Layout) (align : ℕ) : Option Layout :=
  Layout.fromSizeAlign layout.size (max layout.align align)

/-- **How the compiler lays nodes out**, for values of a type. -/
class NodeTypes (T : Type) where
  /-- `Layout::new::<LeafNode<T>>()`. -/
  leafLayout : Layout
  /-- `Layout::new::<InternalNode<T>>()`. -/
  internalLayout : Layout
  leaf_aligns : ∃ layout, alignTo leafLayout NODE_ALLOC_ALIGN = some layout
  internal_aligns : ∃ layout, alignTo internalLayout NODE_ALLOC_ALIGN = some layout

/-! ## Steps on the memory -/

section Steps

variable {T : Type}

/-- A step that has no part in the memory. -/
def lift {α : Type} (x : Raw α) : Prog T α := fun h => x.map fun a => (a, h)

/-- What has no meaning. -/
def undefined {α : Type} : Prog T α := fun _ => .error .undefined

/-- `self.root`. -/
def getRoot : Prog T (Option Node) := fun h => .ok (h.root, h)

/-- Assigning `self.root`, which drops nothing here. -/
def setRoot (root : Option Node) : Prog T Unit := fun h => .ok ((), { h with root := root })

/-- A value that is dropped. -/
def dispose (v : T) : Prog T Unit := fun h => .ok ((), { h with dropped := v :: h.dropped })

/-- `alloc` of a block for a node, with the check for null. -/
def allocNode (A : Allocator T) (layout : Layout) : Prog T (Ptr Usize) := fun h =>
  let ptr := A h layout
  if ptr = 0 then .error .allocError
  else .ok (⟨ptr, 0⟩, { h with nodes := h.nodes.allocate ptr layout 1, ticks := h.ticks + 1 })

/-- `dealloc` of it. -/
def freeNode (p : Ptr Usize) (layout : Layout) : Prog T Unit := fun h => do
  let nodes ← Raw.defined (h.nodes.deallocate p layout)
  return ((), { h with nodes := nodes })

/-- Reading what is in the block of a node. -/
def readNode (p : Ptr Usize) : Prog T (NodeBlock T) := fun h => do
  let block ← Raw.defined (h.nodes.read p)
  return (block, h)

/-- Writing to it. -/
def writeNode (p : Ptr Usize) (block : NodeBlock T) : Prog T Unit := fun h => do
  let nodes ← Raw.defined (h.nodes.write p block)
  return ((), { h with nodes := nodes })

/-- Reading a word from a buffer. -/
def readWord (p : Ptr Usize) : Prog T Node := fun h => do
  let w ← Raw.defined (h.buffers.read p)
  return (w, h)

/-- Writing a word to a buffer. -/
def writeWord (p : Ptr Usize) (w : Node) : Prog T Unit := fun h => do
  let buffers ← Raw.defined (h.buffers.write p w)
  return ((), { h with buffers := buffers })

/-- `ptr.add(n)` in a buffer. -/
def addWords (p : Ptr Usize) (n : ℕ) : Prog T (Ptr Usize) := fun h => do
  let p ← Raw.defined (h.buffers.add p n)
  return (p, h)

/-- `BoundedRawVec::get` of a word. -/
def vecGet (v : RawVec) (i len : ℕ) : Prog T (Option (Ptr Usize)) := fun h => do
  let res ← v.get i len h.buffers
  return (res, h)

/-- `BoundedRawVec::get_mut` of a word. -/
def vecGetMut (v : RawVec) (i len : ℕ) : Prog T (Option (Ptr Usize)) := fun h => do
  let res ← v.getMut i len h.buffers
  return (res, h)

/-- `BoundedRawVec::insert` of a word. -/
def vecInsert [PointerWidth] (A : Allocator T) (v : RawVec) (i : ℕ) (element : Node) (len : ℕ) :
    Prog T RawVec := fun h => do
  let (v, buffers) ← v.insert (A h) i element len h.buffers
  return (v, { h with buffers := buffers, ticks := h.ticks + 1 })

/-- `BoundedRawVec::remove` of a word. -/
def vecRemove (v : RawVec) (i len : ℕ) : Prog T (Option Node) := fun h => do
  let (res, buffers) ← v.remove i len h.buffers
  return (res, { h with buffers := buffers })

/-- `Iter::new_empty`. -/
def Iter.newEmpty : Iter := ⟨⟨0, 0⟩, 0⟩

/-- `Iter::next` on a buffer of words. -/
def iterNext (iter : Iter) : Prog T (Option (Ptr Usize) × Iter) := fun h => do
  let res ← iter.next h.buffers
  return (res, h)

/-- `dealloc` of a buffer. -/
def freeBuffer (p : Ptr Usize) (layout : Layout) : Prog T Unit := fun h => do
  let buffers ← Raw.defined (h.buffers.deallocate p layout)
  return ((), { h with buffers := buffers })

end Steps

/-! ## Prefixes -/

section Prefixes

variable {T : Type} (A : Allocator T)

/-- A constructor of prefixes, and the layout of the block that it allocates when there
are more bytes than fit inline. -/
def construct (len : ℕ) (make : (Layout → ℕ) → Memory → Raw (Packed × Memory)) :
    Prog T Packed := fun h => do
  let alloc := fun layout => (A h layout).toNat
  let (res, bytes) ← make alloc h.bytes
  let chunks := if len ≤ INLINE_CAP then h.chunks
    else Function.update h.chunks (alloc ⟨len, 2⟩) (some ⟨len, 2⟩)
  return (res, { h with bytes := bytes, chunks := chunks, ticks := h.ticks + 1 })

/-- `Prefix::new`. -/
def newPrefix (data : Bytes) : Prog T Packed :=
  construct A data.length fun alloc mem => Packed.new alloc mem data

/-- `Prefix::from_slices`. -/
def fromSlices (slices : List Bytes) : Prog T Packed :=
  construct A slices.flatten.length fun alloc mem => Packed.fromSlices alloc mem slices

/-- `Prefix::as_ref`. -/
def asRef (p : Packed) : Prog T Bytes := fun h => do
  let bytes ← p.asRef h.bytes
  return (bytes, h)

/-- `dealloc` of the block of a prefix, whose cells are free again. -/
def freeChunk (pt : ℕ) (layout : Layout) : Prog T Unit := fun h =>
  if h.chunks pt = some layout then
    .ok ((), { h with
      bytes := fun a => if pt ≤ a ∧ a < pt + layout.size then .free else h.bytes a
      chunks := Function.update h.chunks pt none })
  else .error .undefined

/-- `Prefix::drop`. -/
def dropPrefix (p : Packed) : Prog T Unit := do
  if ← lift p.isInline then return ()
  else do
    let len ← lift p.lenAlloc
    let layout ← lift (Raw.lift (Rust.unwrap (Layout.fromSizeAlign len 2)))
    let pt ← lift p.ptrAlloc
    freeChunk pt layout

end Prefixes

/-! ## What a word says -/

namespace Node

/-- `LEAF_TAG`. -/
def LEAF_TAG : Usize := 0x1

/-- `VAL_TAG`. -/
def VAL_TAG : Usize := 0x2

/-- `TAG_MASK`. -/
def TAG_MASK : Usize := 0x3

variable {T : Type} (self : Node)

/-- `Node::is_leaf`. -/
def isLeaf : Bool := self.ptr &&& LEAF_TAG != 0

/-- `Node::has_val`. -/
def hasVal : Bool := self.ptr &&& VAL_TAG != 0

/-- `Node::as_header`, `Node::as_leaf_ptr` and `Node::as_internal_ptr`, which are one
address. -/
def asPtr : Ptr Usize := ⟨self.ptr &&& ~~~TAG_MASK, 0⟩

/-! ## Nodes -/

section Reads

/-- `*self.as_header()`. -/
def header : Prog T (Header T) := do
  let block ← readNode self.asPtr
  return block.header

/-- Writing through `self.as_header()`. -/
def setHeader (h : Header T) : Prog T Unit := do
  let block ← readNode self.asPtr
  writeNode self.asPtr (block.setHeader h)

/-- `*self.as_internal_ptr()`. -/
def internal : Prog T (InternalNode T) := do
  match ← readNode self.asPtr with
  | .internal node => return node
  | .leaf _ => undefined

/-- Writing through `self.as_internal_ptr()`. -/
def setInternal (node : InternalNode T) : Prog T Unit := do
  let _node : InternalNode T ← self.internal
  writeNode self.asPtr (.internal node)

/-- `self.prefix().as_ref()`. -/
def prefixBytes : Prog T Bytes := do
  let h ← self.header
  asRef h.pfx

/-- `self.prefix().len()`. -/
def prefixLen : Prog T ℕ := do
  let h : Header T ← self.header
  lift h.pfx.len

/-- `self.prefix().first_byte()`. -/
def firstByte : Prog T UInt8 := do
  let h : Header T ← self.header
  lift h.pfx.firstByte

/-- `Node::val`. -/
def val : Prog T (Option T) :=
  if self.hasVal then do
    let h ← self.header
    match h.val with
    | .live v => return some v
    | .vacant => undefined
  else return none

/-- `Node::len_children`. -/
def lenChildren : Prog T ℕ :=
  if self.isLeaf then return 0
  else do
    let node : InternalNode T ← self.internal
    return node.bitmap.lenChildren

/-- `Node::child_exists`. -/
def childExists (pos : ChildPos) : Prog T Bool :=
  if self.isLeaf then return false
  else do
    let node : InternalNode T ← self.internal
    return node.bitmap.test pos

/-- `Node::child_idx_from_pos`. -/
def childIdxFromPos (pos : ChildPos) : Prog T ℕ :=
  if self.isLeaf then return 0
  else do
    let node : InternalNode T ← self.internal
    return node.bitmap.childIdx pos

/-- `Node::get_child_by_idx`: where the word of the child is. -/
def getChildByIdx (idx : ℕ) : Prog T (Option (Ptr Usize)) :=
  if self.isLeaf then return none
  else do
    let node : InternalNode T ← self.internal
    vecGet node.children idx node.bitmap.lenChildren

/-- `Node::get_mut_child_by_idx`. -/
def getMutChildByIdx (idx : ℕ) : Prog T (Option (Ptr Usize)) :=
  if self.isLeaf then return none
  else do
    let node : InternalNode T ← self.internal
    vecGetMut node.children idx node.bitmap.lenChildren

/-- `Node::get_child_by_pos`. -/
def getChildByPos (pos : ChildPos) : Prog T (Option (Ptr Usize)) := do
  let idx ← self.childIdxFromPos pos
  self.getChildByIdx idx

/-- `Node::get_mut_child_by_pos`. -/
def getMutChildByPos (pos : ChildPos) : Prog T (Option (Ptr Usize)) := do
  let idx ← self.childIdxFromPos pos
  self.getMutChildByIdx idx

/-- `Node::child_pos_from_idx`. -/
def childPosFromIdx (idx : ℕ) : Prog T ChildPos := do
  let p ← self.getChildByIdx idx
  let p ← lift (Raw.lift (Rust.expect "Index out of bounds" p))
  let child ← readWord p
  let byte ← child.firstByte
  return childPosFromByte byte

end Reads

section Writes

/-- `assume_init_drop` of the value. -/
def dropVal : Prog T Unit := do
  let h ← self.header
  match h.val with
  | .live v => do
    dispose v
    self.setHeader { h with val := .vacant }
  | .vacant => undefined

/-- `Node::take_val`: what the node is pointed to by changes as well. -/
def takeVal : Prog T (Option T × Node) :=
  if self.hasVal then do
    let h ← self.header
    match h.val with
    | .live v => do
      self.setHeader { h with val := .vacant }
      return (some v, ⟨self.ptr &&& ~~~VAL_TAG⟩)
    | .vacant => undefined
  else return (none, self)

/-- `Node::set_val`. -/
def setVal (val : T) : Prog T Node := do
  if self.hasVal then
    -- drop old value to avoid leaking it
    self.dropVal
  let h ← self.header
  self.setHeader { h with val := .live val }
  return ⟨self.ptr ||| VAL_TAG⟩

/-- `if let Some(v) = v` and `Node::set_val`. -/
def setSome : Option T → Prog T Node
  | some v => self.setVal v
  | none => return self

/-- `mem::replace` of the value that `Node::val_mut` refers to. -/
def replaceVal (val : T) : Prog T T := do
  let h ← self.header
  match h.val with
  | .live v => do
    self.setHeader { h with val := .live val }
    return v
  | .vacant => undefined

/-- Assigning `*self.prefix_mut()`, which drops the prefix before. -/
def setPfx (p : Packed) : Prog T Unit := do
  let h : Header T ← self.header
  dropPrefix h.pfx
  self.setHeader { h with pfx := p }

end Writes

section Allocating

variable [PointerWidth] [NodeTypes T] (A : Allocator T)

omit [PointerWidth] in
/-- The layout of a leaf. -/
def leafLayout (T : Type) [NodeTypes T] : Raw Layout :=
  Raw.lift (Rust.unwrap (alignTo (NodeTypes.leafLayout T) NODE_ALLOC_ALIGN))

omit [PointerWidth] in
/-- The layout of an internal node. -/
def internalLayout (T : Type) [NodeTypes T] : Raw Layout :=
  Raw.lift (Rust.unwrap (alignTo (NodeTypes.internalLayout T) NODE_ALLOC_ALIGN))

/-- `Node::new_leaf`. -/
def newLeaf (data : Bytes) (val : Option T) : Prog T Node := do
  let pfx ← newPrefix A data
  let slot := match val with
    | some v => .live v
    | none => .vacant
  let layout ← lift (leafLayout T)
  let ptr ← allocNode A layout
  writeNode ptr (.leaf ⟨⟨pfx, slot⟩⟩)
  let word := ptr.base ||| LEAF_TAG
  return ⟨if val.isSome then word ||| VAL_TAG else word⟩

/-- `Node::new`. -/
def new (data : Bytes) : Prog T Node := newLeaf A data none

/-- `Node::upgrade_to_internal`. -/
def upgradeToInternal (self : Node) : Prog T Node :=
  if self.isLeaf then do
    match ← readNode self.asPtr with
    | .internal _ => undefined
    | .leaf leaf => do
      let layout ← lift (leafLayout T)
      freeNode self.asPtr layout
      let layoutInt ← lift (internalLayout T)
      let ptr ← allocNode A layoutInt
      writeNode ptr (.internal ⟨leaf.header, Bitmap.zero, RawVec.new⟩)
      return ⟨if self.hasVal then ptr.base ||| VAL_TAG else ptr.base⟩
  else return self

/-- `Node::insert_child`. -/
def insertChild (self : Node) (pos : ChildPos) (child : Node) : Prog T Node := do
  let self ← self.upgradeToInternal A
  let idx ← self.childIdxFromPos pos
  let node ← self.internal
  let children ← vecInsert A node.children idx child node.bitmap.lenChildren
  self.setInternal { node with children := children, bitmap := node.bitmap.set pos }
  return self

omit [PointerWidth] [NodeTypes T] in
/-- `Node::remove_child`. -/
def removeChild (self : Node) (pos : ChildPos) : Prog T (Option Node) :=
  if self.isLeaf then return none
  else do
    let idx ← self.childIdxFromPos pos
    let node ← self.internal
    let res ← vecRemove node.children idx node.bitmap.lenChildren
    self.setInternal { node with bitmap := node.bitmap.clear pos }
    return res

/-! ### The end of a node -/

section Drop

variable (drop : Node → Prog T Unit)

/-- `drop_in_place` of `n` elements from `i` on. -/
def dropElements (ptr : Ptr Usize) : ℕ → ℕ → Prog T Unit
  | _, 0 => return ()
  | i, n + 1 => do
    let p ← addWords ptr i
    let w ← readWord p
    drop w
    dropElements ptr (i + 1) n

/-- **`BoundedRawVec::deallocate`.** -/
def deallocate (v : RawVec) (len : ℕ) : Prog T RawVec :=
  if v.asMutPtr.base = 0 then return v
  else do
    dropElements drop v.asMutPtr 0 len
    let size ← lift (Raw.lift (toUsize (v.capacity * Elem.size Node)))
    let layout ← lift (Raw.lift (Rust.unwrap
      (Layout.fromSizeAlign size (RawVec.alignment Node))))
    freeBuffer v.asMutPtr layout
    return ⟨0⟩

end Drop

/-- `BoundedRawVec::drop`, which asserts in debug builds that there is no buffer. -/
def dropVec (v : RawVec) : Prog T Unit :=
  if v.tagged = 0 then return ()
  else lift (.error (.panic (.assertFailed "BoundedRawVec dropped without deallocating")))

/-- **`Node::drop`**, which calls itself for the children: `depth` is how deep that may
go. -/
def drop : ℕ → Node → Prog T Unit
  | 0, _ => lift (.error (.panic .diverges))
  | depth + 1, self => do
    if self.hasVal then self.dropVal
    let h : Header T ← self.header
    dropPrefix h.pfx
    if self.isLeaf then do
      let layout ← lift (leafLayout T)
      freeNode self.asPtr layout
    else do
      let node : InternalNode T ← self.internal
      let children ← deallocate (drop depth) node.children node.bitmap.lenChildren
      dropVec children
      let layout ← lift (internalLayout T)
      freeNode self.asPtr layout

/-- A node that goes out of scope, if there is one. -/
def dropOption (depth : ℕ) : Option Node → Prog T Unit
  | none => return ()
  | some w => drop depth w

/-- `Node::transfer_children`: what the destination is pointed to by may change. -/
def transferChildren (depth : ℕ) (self other : Node) : Prog T Node :=
  if self.isLeaf then return other
  else do
    let other ← other.upgradeToInternal A
    let that : InternalNode T ← other.internal
    -- release the destination buffer before overwriting it
    let children ← deallocate (drop depth) that.children that.bitmap.lenChildren
    dropVec children
    let this ← self.internal
    other.setInternal { that with children := this.children, bitmap := this.bitmap }
    self.setInternal { this with children := RawVec.new, bitmap := Bitmap.zero }
    return other

end Allocating

end Node

end Placed

end Trie
