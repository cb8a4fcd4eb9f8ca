import Algors.Lib.SortedRank
import Algors.Trie.Prefix

/-!
# Nodes

A radix-tree node is a leaf or an internal node. Both start with a header –
the prefix on the edge to the node, and the value stored there – and an
internal node adds its children: a 256-bit map of the first bytes that occur
among their prefixes, in four words, and the children themselves in a vector
that knows neither its length nor its keys. The length is the number of set
bits, and the place of a child in the vector the number of set bits below its
first byte.

The tag bit for a value is the presence of the header's value, and the tag
bit for a leaf the constructor. A mutable reference to a child is read by
`getChildByPos` and written back by `setChildByPos`.
-/

namespace Trie

variable {T : Type}

/-! ## The child vector

`BoundedRawVec` at the level of its elements: the callers pass the length,
and an insertion into 256 elements finds no larger size class to grow to. -/

namespace BoundedRawVec

/-- `CAPACITY_MAX`. -/
def CAPACITY_MAX : ℕ := 256

/-- `BoundedRawVec::get` and `get_mut`. -/
def get {α : Type} (self : List α) (i len : ℕ) : Option α :=
  if len ≤ i then none else self[i]?

/-- `BoundedRawVec::insert`, with the assertion that guards growth. -/
def insert {α : Type} (self : List α) (i : ℕ) (element : α) (len : ℕ) : Rust (List α) :=
  if len = CAPACITY_MAX then .error (.assertFailed "cur_tag < TAG_MAX")
  else .ok (self.insertIdx i element)

/-- `BoundedRawVec::remove`: what was removed, and what is left. -/
def remove {α : Type} (self : List α) (i len : ℕ) : Option α × List α :=
  if len ≤ i then (none, self) else (self[i]?, self.eraseIdx i)

end BoundedRawVec

/-! ## The bitmap of first bytes -/

/-- `[u64; 4]`. -/
abbrev Bitmap := Vector (BitVec 64) 4

/-- **The location of the bit representing a child**: which word, and which
bit in it. -/
structure ChildPos where
  idx : Fin 4
  bit : Fin 64
deriving DecidableEq

/-- `Node::child_pos_from_byte`. -/
def childPosFromByte (byte : UInt8) : ChildPos where
  idx := ⟨byte.toNat >>> 6, by have := byte.toNat_lt; rw [Nat.shiftRight_eq_div_pow]; omega⟩
  bit := ⟨byte.toNat &&& 63,
    by rw [show 63 = 2 ^ 6 - 1 from rfl, Nat.and_two_pow_sub_one_eq_mod]; omega⟩

namespace Bitmap

/-- `[0; 4]`. -/
def zero : Bitmap := Vector.replicate 4 0#64

/-- `bitmap[pos.idx] & (1 << pos.bit) != 0`. -/
def test (bitmap : Bitmap) (pos : ChildPos) : Bool :=
  bitmap[pos.idx] &&& (1#64 <<< pos.bit.val) != 0#64

/-- `bitmap[pos.idx] |= 1 << pos.bit`. -/
def set (bitmap : Bitmap) (pos : ChildPos) : Bitmap :=
  Vector.set bitmap pos.idx (bitmap[pos.idx] ||| (1#64 <<< pos.bit.val))

/-- `bitmap[pos.idx] &= !(1 << pos.bit)`. -/
def clear (bitmap : Bitmap) (pos : ChildPos) : Bitmap :=
  Vector.set bitmap pos.idx (bitmap[pos.idx] &&& ~~~(1#64 <<< pos.bit.val))

/-- `InternalNode::len_children`: the set bits of all four words. -/
def lenChildren (bitmap : Bitmap) : ℕ :=
  bitmap[0].cpop.toNat + bitmap[1].cpop.toNat + bitmap[2].cpop.toNat + bitmap[3].cpop.toNat

/-- The counting in `Node::child_idx_from_pos`: the set bits below a
position, whole words first and then the masked word it lies in. -/
def childIdx (bitmap : Bitmap) (pos : ChildPos) : ℕ :=
  let safeIdx := pos.idx &&& 3
  let before := (decide (0 < safeIdx)).toNat * bitmap[0].cpop.toNat
    + (decide (1 < safeIdx)).toNat * bitmap[1].cpop.toNat
    + (decide (2 < safeIdx)).toNat * bitmap[2].cpop.toNat
  let mask := (1#64 <<< pos.bit.val) - 1#64
  let current := (bitmap[safeIdx] &&& mask).cpop.toNat
  before + current

end Bitmap

/-! ## Nodes and what is done to one -/

/-- The fields every node starts with. -/
structure Header (T : Type) where
  pfx : Prefix
  val : Option T
deriving DecidableEq

/-- **A radix-tree node.** -/
inductive Node (T : Type) where
  | leaf (header : Header T)
  | internal (header : Header T) (bitmap : Bitmap) (children : List (Node T))

namespace Node

/-- `Node::is_leaf`. -/
def isLeaf : Node T → Bool
  | leaf _ => true
  | internal _ _ _ => false

/-- The header, at the start of either kind of node. -/
def header : Node T → Header T
  | leaf h => h
  | internal h _ _ => h

/-- Writing through `as_header`. -/
def setHeader (self : Node T) (h : Header T) : Node T :=
  match self with
  | leaf _ => leaf h
  | internal _ bitmap children => internal h bitmap children

/-- `Node::new`: a leaf without a value. -/
def new [Target] (data : Bytes) : Rust (Node T) := do
  let pfx ← Prefix.new data
  return leaf ⟨pfx, none⟩

/-- `Node::prefix`. -/
def pfx (self : Node T) : Prefix := self.header.pfx

/-- Assigning `*node.prefix_mut()`. -/
def setPfx (self : Node T) (p : Prefix) : Node T := self.setHeader { self.header with pfx := p }

/-- `Node::val`. -/
def val (self : Node T) : Option T := self.header.val

/-- `Node::has_val`. -/
def hasVal (self : Node T) : Bool := self.val.isSome

/-- `Node::take_val`: the value, and the node without it. -/
def takeVal (self : Node T) : Option T × Node T :=
  (self.val, self.setHeader { self.header with val := none })

/-- `Node::set_val`. -/
def setVal (self : Node T) (v : T) : Node T :=
  self.setHeader { self.header with val := some v }

/-- The stored children: none in a leaf. -/
def children : Node T → List (Node T)
  | leaf _ => []
  | internal _ _ cs => cs

/-- `Node::len_children`. -/
def lenChildren : Node T → ℕ
  | leaf _ => 0
  | internal _ bitmap _ => bitmap.lenChildren

/-- `Node::child_exists`. -/
def childExists (self : Node T) (pos : ChildPos) : Bool :=
  match self with
  | leaf _ => false
  | internal _ bitmap _ => bitmap.test pos

/-- `Node::child_idx_from_pos`. -/
def childIdxFromPos (self : Node T) (pos : ChildPos) : ℕ :=
  match self with
  | leaf _ => 0
  | internal _ bitmap _ => bitmap.childIdx pos

/-- `Node::get_child_by_idx`. -/
def getChildByIdx (self : Node T) (idx : ℕ) : Option (Node T) :=
  match self with
  | leaf _ => none
  | internal _ bitmap cs => BoundedRawVec.get cs idx bitmap.lenChildren

/-- `Node::get_child_by_pos`. -/
def getChildByPos (self : Node T) (pos : ChildPos) : Option (Node T) :=
  self.getChildByIdx (self.childIdxFromPos pos)

/-- What the node is after its child at `pos` was changed to `child` through
`get_mut_child_by_pos`. -/
def setChildByPos (self : Node T) (pos : ChildPos) (child : Node T) : Node T :=
  match self with
  | leaf h => leaf h
  | internal h bitmap cs => internal h bitmap (cs.set (bitmap.childIdx pos) child)

/-- `Node::child_pos_from_idx`. -/
def childPosFromIdx (self : Node T) (idx : ℕ) : Rust ChildPos := do
  let child ← Rust.expect "Index out of bounds" (self.getChildByIdx idx)
  let byte ← child.pfx.firstByte
  return childPosFromByte byte

/-- `Node::upgrade_to_internal`. -/
def upgradeToInternal : Node T → Node T
  | leaf h => internal h Bitmap.zero []
  | internal h bitmap cs => internal h bitmap cs

/-- `Node::insert_child`. -/
def insertChild (self : Node T) (pos : ChildPos) (child : Node T) : Rust (Node T) :=
  match self.upgradeToInternal with
  | leaf h => .ok (leaf h)
  | internal h bitmap cs => do
    let cs ← BoundedRawVec.insert cs (bitmap.childIdx pos) child bitmap.lenChildren
    return internal h (bitmap.set pos) cs

/-- `Node::remove_child`: the removed child, and the node without it. -/
def removeChild (self : Node T) (pos : ChildPos) : Option (Node T) × Node T :=
  match self with
  | leaf h => (none, leaf h)
  | internal h bitmap cs =>
    let (res, cs) := BoundedRawVec.remove cs (bitmap.childIdx pos) bitmap.lenChildren
    (res, internal h (bitmap.clear pos) cs)

/-- `Node::transfer_children`: the node emptied of its children, and the
other with these in place of its own. -/
def transferChildren (self other : Node T) : Node T × Node T :=
  match self with
  | leaf h => (leaf h, other)
  | internal h bitmap cs =>
    (internal h Bitmap.zero [], internal other.header bitmap cs)

/-! ## What each operation leaves alone -/

@[simp] theorem isLeaf_setHeader (n : Node T) (h : Header T) :
    (n.setHeader h).isLeaf = n.isLeaf := by
  cases n <;> rfl

@[simp] theorem header_setHeader (n : Node T) (h : Header T) : (n.setHeader h).header = h := by
  cases n <;> rfl

@[simp] theorem children_setHeader (n : Node T) (h : Header T) :
    (n.setHeader h).children = n.children := by
  cases n <;> rfl

@[simp] theorem pfx_setPfx (n : Node T) (p : Prefix) : (n.setPfx p).pfx = p := by
  simp [setPfx, pfx]

@[simp] theorem val_setPfx (n : Node T) (p : Prefix) : (n.setPfx p).val = n.val := by
  simp [setPfx, val]

@[simp] theorem children_setPfx (n : Node T) (p : Prefix) :
    (n.setPfx p).children = n.children := children_setHeader _ _

@[simp] theorem pfx_setVal (n : Node T) (v : T) : (n.setVal v).pfx = n.pfx := by
  simp [setVal, pfx]

@[simp] theorem val_setVal (n : Node T) (v : T) : (n.setVal v).val = some v := by
  simp [setVal, val]

@[simp] theorem children_setVal (n : Node T) (v : T) :
    (n.setVal v).children = n.children := children_setHeader _ _

@[simp] theorem takeVal_fst (n : Node T) : n.takeVal.1 = n.val := rfl

@[simp] theorem pfx_takeVal (n : Node T) : n.takeVal.2.pfx = n.pfx := by
  simp [takeVal, pfx]

@[simp] theorem val_takeVal (n : Node T) : n.takeVal.2.val = none := by
  simp [takeVal, val]

@[simp] theorem children_takeVal (n : Node T) : n.takeVal.2.children = n.children :=
  children_setHeader _ _

@[simp] theorem isLeaf_setChildByPos (n : Node T) (pos : ChildPos) (c : Node T) :
    (n.setChildByPos pos c).isLeaf = n.isLeaf := by
  cases n <;> rfl

@[simp] theorem header_setChildByPos (n : Node T) (pos : ChildPos) (c : Node T) :
    (n.setChildByPos pos c).header = n.header := by
  cases n <;> rfl

@[simp] theorem header_removeChild (n : Node T) (pos : ChildPos) :
    (n.removeChild pos).2.header = n.header := by
  cases n <;> rfl

/-- **Making a leaf** for data of at most `room` bytes. -/
theorem returns_new [Target] {data : Bytes} {room : ℕ} (hle : data.length ≤ room) :
    Returns room (new data : Rust (Node T)) fun n => ∃ p, p.bytes = data ∧ n = leaf ⟨p, none⟩ :=
  (Returns.new hle).bind fun p hp => ⟨p, hp, rfl⟩

end Node

end Trie
