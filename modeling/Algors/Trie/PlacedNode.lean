import Algors.Trie.OwnedInsert
import Algors.Trie.PlacedVec

/-!
# Nodes and what they hold

`NodeHolds n w own` says that the word `w` stands for the node `n`: it is the address of a
block with the tags that the node has, the block has the header and, in an internal node, the
bitmap and a vector of words that stand for the children. All of this is owned, and the
value in the slot with it. Each operation on a word then does what the operation on the
node does, and a node that goes out of scope gives back all that it owns.
-/

/-! ## Tag bits

The two lowest bits of the address of a node tell whether it is a leaf and whether it has a
value. They are set, cleared and masked in an order of their own in every operation, and what
is left of a word after that is a matter of these few laws. -/

namespace BitVec

variable {n : ℕ} {x s t : BitVec n}

theorem or_and_not_or_right : (x ||| t) &&& ~~~(s ||| t) = x &&& ~~~(s ||| t) := by
  ext i hi
  grind

theorem and_not_and_not_or_right : x &&& ~~~t &&& ~~~(s ||| t) = x &&& ~~~(s ||| t) := by
  ext i hi
  grind

/-- Another tag is not changed when one is set, -/
theorem or_and_of_apart (h : s &&& t = 0) : (x ||| t) &&& s = x &&& s := by
  ext i hi
  have hapart := congrArg (fun y : BitVec n => y[i]) h
  simp only [getElem_and, getElem_or] at hapart ⊢
  grind

/-- nor when it is cleared. -/
theorem and_not_and_of_apart (h : s &&& t = 0) : x &&& ~~~t &&& s = x &&& s := by
  ext i hi
  have hapart := congrArg (fun y : BitVec n => y[i]) h
  simp only [getElem_and, getElem_not] at hapart ⊢
  grind

theorem or_and_self_right : (x ||| t) &&& t = t := by
  ext i hi
  grind

theorem and_not_and_self : x &&& ~~~t &&& t = 0 := by
  ext i hi
  grind

/-- A word with no tag is the address. -/
theorem and_not_of_and_eq_zero (h : x &&& t = 0) : x &&& ~~~t = x := by
  ext i hi
  have hclear := congrArg (fun y : BitVec n => y[i]) h
  simp only [getElem_and, getElem_not] at hclear ⊢
  grind

theorem and_eq_zero_of_or (h : x &&& (s ||| t) = 0) : x &&& s = 0 ∧ x &&& t = 0 := by
  constructor <;>
  · ext i hi
    have hclear := congrArg (fun y : BitVec n => y[i]) h
    simp only [getElem_and, getElem_or] at hclear ⊢
    grind

end BitVec

namespace Trie

/-! ## How deep a node goes

A drop recurses once for every level, so its fuel has to cover the depth. All nodes but the root
have a prefix, and each level takes a byte of the room at least. -/

namespace Node

variable {T : Type} {n : Node T} {depth depth' : ℕ}

/-- **A node with at most so many levels.** -/
inductive Shallow : ℕ → Node T → Prop
  | intro {depth : ℕ} {n : Node T} (h : ∀ c ∈ n.children, Shallow depth c) : Shallow (depth + 1) n

theorem Shallow.mono (h : Shallow depth n) (hle : depth ≤ depth') : Shallow depth' n := by
  induction h generalizing depth' with
  | @intro depth n h ih =>
    obtain ⟨d, rfl⟩ : ∃ d, depth' = d + 1 := ⟨depth' - 1, by omega⟩
    exact .intro fun c hc => ih c hc (Nat.le_of_succ_le_succ hle)

/-- Each level has a byte of the keys, -/
theorem Wf.shallow_of_ne_nil {room : ℕ} (h : Wf room n) (hne : n.pfx.bytes ≠ []) :
    Shallow (room + 1) n := by
  induction h with
  | @intro room n hlen hagrees hchildren ih =>
    have hpos := List.length_pos_of_ne_nil hne
    exact .intro fun c hc => (ih c hc (hagrees.nonempty hc)).mono (by omega)

/-- but for the first. -/
theorem Wf.shallow {room : ℕ} (h : Wf room n) : Shallow (room + 2) n :=
  .intro fun c hc => ((h.child hc).shallow_of_ne_nil (h.agrees.nonempty hc)).mono (by omega)

theorem Shallow.of_children_eq_nil (h : n.children = []) : Shallow (depth + 1) n :=
  .intro fun _ hc => absurd (h ▸ hc) List.not_mem_nil

end Node

namespace Placed

open Owned (Slot)

variable [Target]

/-! ## Words and their tags

A word names an address with the tags it has. Every operation that changes a tag gives a word
for the same address, and masking gives the address back, since blocks of nodes are aligned to
four bytes. -/

/-- **A word names a block**: its address, and what the tags say. -/
structure Names (w : Node) (a : Usize) (leaf val : Bool) : Prop where
  asPtr : w.asPtr = ⟨a, 0⟩
  isLeaf : w.isLeaf = leaf
  hasVal : w.hasVal = val

namespace Names

open Placed.Node (LEAF_TAG VAL_TAG)

variable {w : Node} {a : Usize} {leaf val : Bool}

theorem tagMask_eq : Node.TAG_MASK = LEAF_TAG ||| VAL_TAG := by
  show BitVec.ofNat (8 * Target.ptrSize) 3 = BitVec.ofNat _ 1 ||| BitVec.ofNat _ 2
  exact BitVec.ofNat_or (x := 1) (y := 2)

theorem leafTag_and_valTag : LEAF_TAG &&& VAL_TAG = 0 := by
  show BitVec.ofNat (8 * Target.ptrSize) 1 &&& BitVec.ofNat _ 2 = BitVec.ofNat _ 0
  exact (BitVec.ofNat_and (x := 1) (y := 2)).symm

theorem valTag_and_leafTag : VAL_TAG &&& LEAF_TAG = 0 := by
  rw [BitVec.and_comm, leafTag_and_valTag]

/-- **Clearing the tag of a value.** -/
theorem clearVal (h : Names w a leaf val) : Names ⟨w.ptr &&& ~~~VAL_TAG⟩ a leaf false where
  asPtr := by
    rw [← h.asPtr, Node.asPtr, Node.asPtr, tagMask_eq, BitVec.and_not_and_not_or_right]
  isLeaf := by
    rw [← h.isLeaf, Node.isLeaf, Node.isLeaf, BitVec.and_not_and_of_apart leafTag_and_valTag]
  hasVal := by
    rw [Node.hasVal, BitVec.and_not_and_self]
    exact bne_self_eq_false' _

variable [hwidth : PointerWidth]

omit hwidth in
/-- A tag is not null. -/
theorem ofNat_ne_zero [PointerWidth] {t : ℕ} (hpos : 0 < t) (ht : t < 4) :
    BitVec.ofNat (8 * Target.ptrSize) t ≠ 0 := by
  intro h
  have hpow : 2 ^ 32 ≤ 2 ^ (8 * Target.ptrSize) := Nat.pow_le_pow_right (by decide) (by
    have : Target.ptrSize = 4 ∨ Target.ptrSize = 8 := PointerWidth.eq
    omega)
  have htoNat : t % 2 ^ (8 * Target.ptrSize) = 0 := congrArg BitVec.toNat h
  rw [Nat.mod_eq_of_lt (by omega)] at htoNat
  omega

/-- **Setting it.** -/
theorem setVal (h : Names w a leaf val) : Names ⟨w.ptr ||| VAL_TAG⟩ a leaf true where
  asPtr := by rw [← h.asPtr, Node.asPtr, Node.asPtr, tagMask_eq, BitVec.or_and_not_or_right]
  isLeaf := by
    rw [← h.isLeaf, Node.isLeaf, Node.isLeaf, BitVec.or_and_of_apart leafTag_and_valTag]
  hasVal := by
    rw [Node.hasVal, BitVec.or_and_self_right]
    exact bne_iff_ne.mpr (ofNat_ne_zero (by decide) (by decide))

/-- **The lowest bits of an address are clear.** -/
theorem and_tagMask (ha : 4 ∣ a.toNat) : a &&& Node.TAG_MASK = 0 := by
  have hpow : 2 ^ 32 ≤ 2 ^ (8 * Target.ptrSize) := Nat.pow_le_pow_right (by decide) (by
    have : Target.ptrSize = 4 ∨ Target.ptrSize = 8 := hwidth.eq
    omega)
  refine BitVec.eq_of_toNat_eq ?_
  show a.toNat &&& 3 % 2 ^ (8 * Target.ptrSize) = 0 % _
  rw [Nat.mod_eq_of_lt (by omega), show 3 = 2 ^ 2 - 1 from rfl, Nat.and_two_pow_sub_one_eq_mod,
    Nat.mod_eq_zero_of_dvd ha, Nat.zero_mod]

/-- The word of an internal node. -/
theorem newInternal (ha : 4 ∣ a.toNat) : Names ⟨a⟩ a false false := by
  have hclear := and_tagMask ha
  obtain ⟨hleaf, hval⟩ := BitVec.and_eq_zero_of_or (tagMask_eq ▸ hclear)
  exact ⟨congrArg (Ptr.mk · 0) (BitVec.and_not_of_and_eq_zero hclear),
    bne_eq_false_iff_eq.mpr hleaf, bne_eq_false_iff_eq.mpr hval⟩

/-- The word of a leaf. -/
theorem newLeaf (ha : 4 ∣ a.toNat) : Names ⟨a ||| LEAF_TAG⟩ a true false where
  asPtr := by
    rw [← (newInternal ha).asPtr, Node.asPtr, Node.asPtr, tagMask_eq, BitVec.or_comm LEAF_TAG,
      BitVec.or_and_not_or_right]
  isLeaf := by
    rw [Node.isLeaf, BitVec.or_and_self_right]
    exact bne_iff_ne.mpr (ofNat_ne_zero (by decide) (by decide))
  hasVal := by
    rw [← (newInternal ha).hasVal, Node.hasVal, Node.hasVal,
      BitVec.or_and_of_apart valTag_and_leafTag]

end Names

/-! ## What a node owns

The block at its address, with the header in it; the bytes of the prefix, when they are not in
the header; the value; and for an internal node the buffer of its vector and what the children
own. The relation follows the node, so that a proof about words is by the shape of the node. -/

variable {T : Type}

/-- **The block has the header**: the prefix is packed, and the value is in the slot. -/
inductive HeaderHolds : Trie.Header T → Header T → Held T → Prop
  | intro {p : Packed} (slot : Slot T) {pre : Prefix} {r : Held T}
      (hp : PrefixHolds p pre.bytes r) :
      HeaderHolds ⟨pre, slot.toOption⟩ ⟨p, slot⟩ (r + valueOf slot.toOption)

variable [PointerWidth] [NodeTypes T]

/-- **The word stands for the node**, and all that belongs to the node is owned. -/
inductive NodeHolds : Trie.Node T → Node → Held T → Prop
  | leaf {h : Trie.Header T} {w : Node} {a : Usize} {layout : Layout} {header : Header T}
      {r : Held T} (hw : Names w a true h.val.isSome)
      (hlayout : Node.leafLayout T = .ok layout) (hheader : HeaderHolds h header r) :
      NodeHolds (.leaf h) w (nodeAt a layout (some (.leaf ⟨header⟩)) + r)
  | internal {h : Trie.Header T} (bitmap : Bitmap) {cs : List (Trie.Node T)} {w : Node}
      {a : Usize} {layout : Layout} {header : Header T} {v : RawVec} {ws : List Node}
      {r rv rc : Held T} (hw : Names w a false h.val.isSome)
      (hlayout : Node.internalLayout T = .ok layout) (hheader : HeaderHolds h header r)
      (hv : VecHolds v ws rv) (hcs : Holdings.Each NodeHolds cs ws rc) :
      NodeHolds (.internal h bitmap cs) w
        (nodeAt a layout (some (.internal ⟨header, bitmap, v⟩)) + (r + (rv + rc)))

/-- A node that may be there. -/
inductive OptionHolds : Option (Trie.Node T) → Option Node → Held T → Prop
  | none : OptionHolds none none 0
  | some {n : Trie.Node T} {w : Node} {r : Held T} (h : NodeHolds n w r) :
      OptionHolds (some n) (some w) r

variable {stops : Stop → Prop} {n c : Trie.Node T} {w wc : Node} {own oc : Held T}

/-! ## The header

The header is at the start of either kind of block, and can be read and written without knowing
of which kind it is. -/

/-- **The header of a node**: what is in the prefix and the slot is owned, and when they are
written to, the rest of the node is as it was. -/
theorem NodeHolds.opened (h : NodeHolds n w own) :
    ∃ a layout b p slot r rest, Names w a n.isLeaf n.hasVal ∧ b.header = ⟨p, slot⟩
      ∧ PrefixHolds p n.pfx.bytes r ∧ slot.toOption = n.val
      ∧ own = nodeAt a layout (some b) + (r + (valueOf n.val + rest))
      ∧ ∀ w' pre p' slot' r', Names w' a n.isLeaf slot'.toOption.isSome →
        PrefixHolds p' pre.bytes r' → NodeHolds (n.setHeader ⟨pre, slot'.toOption⟩) w'
          (nodeAt a layout (some (b.setHeader ⟨p', slot'⟩))
            + (r' + (valueOf slot'.toOption + rest))) := by
  cases h with
  | @leaf hdr w a layout header r hw hlayout hheader =>
    obtain @⟨p, slot, pre, r, hp⟩ := hheader
    refine ⟨a, layout, _, p, slot, r, 0, hw, rfl, hp, rfl, by rw [add_zero]; rfl, ?_⟩
    intro w' pre p' slot' r' hw' hp'
    rw [add_zero]
    exact .leaf hw' hlayout (.intro slot' hp')
  | @internal hdr bitmap cs w a layout header v ws r rv rc hw hlayout hheader hv hcs =>
    obtain @⟨p, slot, pre, r, hp⟩ := hheader
    refine ⟨a, layout, _, p, slot, r, rv + rc, hw, rfl, hp, rfl,
      congrArg (_ + ·) (add_assoc _ _ _), ?_⟩
    intro w' pre p' slot' r' hw' hp'
    rw [← add_assoc r']
    exact .internal _ hw' hlayout (.intro slot' hp') hv hcs

theorem NodeHolds.hasVal_eq (h : NodeHolds n w own) : w.hasVal = n.hasVal := by
  obtain ⟨a, layout, b, p, slot, r, rest, hw, -⟩ := h.opened
  exact hw.hasVal

section Header

variable {a : Usize} {layout : Layout} {b : NodeBlock T} {leaf val : Bool} {rest : Held T}

omit [PointerWidth] [NodeTypes T] in
theorem looks_header (hw : Names w a leaf val) {header : Header T} (hb : b.header = header) :
    Looks w.header (nodeAt a layout (some b) + rest) (.ok header : Rust _) := by
  rw [Node.header, hw.asPtr, ← hb]
  exact ((looks_readNode b).more rfl).bindLeft (Looks.ret _)

omit [PointerWidth] [NodeTypes T] in
theorem realizes_setHeader (hw : Names w a leaf val) (header : Header T) :
    Realizes stops (w.setHeader header) (nodeAt a layout (some b)) (.ok () : Rust Unit)
      fun _ _ kept => kept = nodeAt a layout (some (b.setHeader header)) := by
  rw [Node.setHeader, hw.asPtr]
  exact Realizes.lookLeft (looks_readNode b) (realizes_writeNode _ _)

end Header

/-! ### Reading -/

/-- **`prefix().as_ref()`.** -/
theorem looks_prefixBytes (h : NodeHolds n w own) :
    Looks (w.prefixBytes : Prog T _) own (.ok n.pfx.bytes : Rust _) := by
  obtain ⟨a, layout, b, p, slot, r, rest, hw, hb, hp, -, rfl, -⟩ := h.opened
  exact (looks_header hw hb).bindLeft ((looks_asRef hp).more rfl).moreLeft

/-- **`prefix().len()`.** -/
theorem looks_prefixLen (h : NodeHolds n w own) :
    Looks (w.prefixLen : Prog T _) own (.ok n.pfx.len : Rust _) := by
  obtain ⟨a, layout, b, p, slot, r, rest, hw, hb, hp, -, rfl, -⟩ := h.opened
  exact (looks_header hw hb).bindLeft ((looks_len hp).more rfl).moreLeft

/-- **`prefix().first_byte()`.** -/
theorem looks_nodeFirstByte (h : NodeHolds n w own) :
    Looks (w.firstByte : Prog T _) own n.pfx.firstByte := by
  obtain ⟨a, layout, b, p, slot, r, rest, hw, hb, hp, -, rfl, -⟩ := h.opened
  exact (looks_header hw hb).bindLeft ((looks_firstByte hp).more rfl).moreLeft

/-- **`Node::val`.** -/
theorem looks_val (h : NodeHolds n w own) :
    Looks (w.val : Prog T _) own (.ok n.val : Rust _) := by
  obtain ⟨a, layout, b, p, slot, r, rest, hw, hb, hp, hslot, rfl, -⟩ := h.opened
  rw [Node.val, hw.hasVal, Trie.Node.hasVal, ← hslot]
  cases slot with
  | vacant => exact Looks.ret _
  | live v => exact (looks_header hw hb).bindLeft (Looks.ret _)

/-! ### Writing

A write is of the whole header. The tag for the value is in the word, not in the header, and is
set or cleared beside it. -/

omit [Target] [PointerWidth] [NodeTypes T] in
theorem setHeader_self (n : Trie.Node T) : n.setHeader n.header = n := by
  cases n <;> rfl

/-- **`Node::take_val`.** -/
theorem realizes_takeVal (h : NodeHolds n w own) :
    Realizes stops (w.takeVal : Prog T _) own (.ok n.takeVal : Rust _) fun r r' kept =>
      r.1 = r'.1 ∧ ∃ own', NodeHolds r'.2 r.2 own' ∧ kept = own' + valueOf r.1 := by
  obtain ⟨a, layout, b, p, slot, r, rest, hw, hb, hp, hslot, hown, hset⟩ := h.opened
  cases slot with
  | vacant =>
    have hnone : n.hasVal = false := congrArg Option.isSome hslot.symm
    have htaken : n.takeVal = (none, n) := by
      refine Prod.ext hslot.symm ?_
      show n.setHeader ⟨n.pfx, none⟩ = n
      rw [show none = n.val from hslot]
      exact setHeader_self n
    rw [Node.takeVal, hw.hasVal, hnone, htaken]
    exact Realizes.ret ⟨rfl, own, h, (add_zero _).symm⟩
  | live v =>
    have hsome : n.hasVal = true := congrArg Option.isSome hslot.symm
    have htaken : n.takeVal = (some v, n.setHeader ⟨n.pfx, none⟩) := Prod.ext hslot.symm rfl
    rw [Node.takeVal, hw.hasVal, hsome, htaken, hown]
    refine Realizes.lookLeft (looks_header hw hb) ?_
    refine Realizes.bindLeft rfl (realizes_setHeader hw _) fun _ kept hkept => ?_
    refine Realizes.ret ⟨rfl, _, hset _ n.pfx p .vacant r hw.clearVal hp, ?_⟩
    rw [hkept, ← hslot]
    show nodeAt _ _ _ + (r + (valueOf (some v) + rest)) = nodeAt _ _ _ + (r + (0 + rest)) + _
    abel

omit [PointerWidth] [NodeTypes T] in
@[simp] theorem header_setHeader (b : NodeBlock T) (h : Header T) :
    (b.setHeader h).header = h := by
  cases b <;> rfl

omit [PointerWidth] [NodeTypes T] in
@[simp] theorem setHeader_setHeader (b : NodeBlock T) (h h' : Header T) :
    (b.setHeader h).setHeader h' = b.setHeader h' := by
  cases b <;> rfl

section Slot

variable {a : Usize} {layout : Layout} {b : NodeBlock T} {leaf val : Bool} {p : Packed}

omit [PointerWidth] [NodeTypes T] in
/-- `assume_init_drop` of the value. -/
theorem realizes_dropVal (hw : Names w a leaf val) {v : T} (hb : b.header = ⟨p, .live v⟩) :
    Realizes stops (w.dropVal : Prog T _) (nodeAt a layout (some b) + Holdings.value v)
      (.ok () : Rust Unit) fun _ _ kept =>
        kept = nodeAt a layout (some (b.setHeader ⟨p, .vacant⟩)) := by
  refine Realizes.lookLeft (looks_header hw hb) ?_
  refine Realizes.bindLeft (add_comm _ _) (realizes_dispose v) fun _ kept hkept => ?_
  rw [hkept, zero_add]
  exact realizes_setHeader hw _

end Slot

/-- **`Node::set_val`.** -/
theorem realizes_setVal (h : NodeHolds n w own) (v : T) :
    Realizes stops (w.setVal v : Prog T _) (own + Holdings.value v) (.ok (n.setVal v) : Rust _)
      fun w' n' kept => NodeHolds n' w' kept := by
  obtain ⟨a, layout, b, p, slot, r, rest, hw, hb, hp, hslot, rfl, hset⟩ := h.opened
  -- the value is written to a slot that is vacant by then
  have hwrite : ∀ {b' : NodeBlock T} {slot'}, b'.header = ⟨p, slot'⟩ →
      (∀ h, b'.setHeader h = b.setHeader h) → Realizes stops (do
        let header : Header T ← w.header
        w.setHeader { header with val := .live v }
        return ⟨w.ptr ||| Node.VAL_TAG⟩)
        (nodeAt a layout (some b') + (r + (Holdings.value v + rest)))
        (.ok (n.setVal v) : Rust _) fun w' n' kept => NodeHolds n' w' kept := by
    intro b' slot' hb' hsame
    refine Realizes.lookLeft (looks_header hw hb') ?_
    refine Realizes.bindLeft rfl (realizes_setHeader hw _) fun _ kept hkept => ?_
    rw [hkept, hsame]
    exact Realizes.ret (hset _ n.pfx p (.live v) r hw.setVal hp)
  rw [Node.setVal, hw.hasVal, Trie.Node.hasVal, ← hslot]
  cases slot with
  | vacant =>
    have hgiven : nodeAt a layout (some b) + (r + (valueOf none + rest)) + Holdings.value v
        = nodeAt a layout (some b) + (r + (Holdings.value v + rest)) := by
      show _ + (r + (0 + rest)) + _ = _
      abel
    exact hgiven ▸ hwrite hb fun _ => rfl
  | live u =>
    have hgiven : nodeAt a layout (some b) + (r + (valueOf (some u) + rest)) + Holdings.value v
        = nodeAt a layout (some b) + Holdings.value u + (r + (Holdings.value v + rest)) := by
      show _ + (r + (Holdings.value u + rest)) + _ = _
      abel
    refine Realizes.bindLeft hgiven (realizes_dropVal hw hb) fun _ kept hkept => ?_
    rw [hkept]
    exact hwrite (header_setHeader _ _) (setHeader_setHeader _ _)

/-- **`if let Some(v) = v`** and `Node::set_val`. -/
theorem realizes_setSome (h : NodeHolds n w own) (o : Option T) :
    Realizes stops (w.setSome o : Prog T _) (own + valueOf o)
      (.ok (Owned.TrieMap.setSome n o) : Rust _) fun w' n' kept => NodeHolds n' w' kept := by
  cases o with
  | none => exact (add_zero own).symm ▸ Realizes.ret h
  | some v => exact realizes_setVal h v

/-- **`mem::replace`** of the value that `Node::val_mut` refers to. -/
theorem realizes_replaceVal (h : NodeHolds n w own) {u : T} (hval : n.val = some u) (v : T) :
    Realizes stops (w.replaceVal v : Prog T _) (own + Holdings.value v)
      (.ok (n.setVal v) : Rust _) fun u' n' kept =>
        u' = u ∧ ∃ own', NodeHolds n' w own' ∧ kept = own' + Holdings.value u := by
  obtain ⟨a, layout, b, p, slot, r, rest, hw, hb, hp, hslot, rfl, hset⟩ := h.opened
  rw [hval] at hslot
  rw [show n.hasVal = true from congrArg Option.isSome hval] at hw
  cases slot with
  | vacant => cases hslot
  | live u' =>
    obtain rfl := Option.some.inj hslot
    rw [add_assoc]
    refine Realizes.lookLeft (looks_header hw hb) ?_
    refine Realizes.bindLeft rfl (realizes_setHeader hw _) fun _ kept hkept => ?_
    refine Realizes.ret ⟨rfl, _, hset w n.pfx p (.live v) r hw hp, ?_⟩
    rw [hkept, hval]
    show nodeAt _ _ _ + (r + (Holdings.value _ + rest) + _)
      = nodeAt _ _ _ + (r + (Holdings.value v + rest)) + _
    abel

/-- **Assigning `*prefix_mut()`** drops the prefix before. -/
theorem realizes_setPfx (h : NodeHolds n w own) {p' : Packed} {pre : Prefix} {r' : Held T}
    (hp' : PrefixHolds p' pre.bytes r') :
    Realizes stops (w.setPfx p' : Prog T _) (own + r') (.ok (n.setPfx pre) : Rust _)
      fun _ n' kept => NodeHolds n' w kept := by
  obtain ⟨a, layout, b, p, slot, r, rest, hw, hb, hp, hslot, rfl, hset⟩ := h.opened
  rw [add_assoc]
  refine Realizes.lookLeft (looks_header hw hb) ?_
  have hgiven : nodeAt a layout (some b) + (r + (valueOf n.val + rest) + r')
      = r + (nodeAt a layout (some b) + (r' + (valueOf n.val + rest))) := by
    abel
  refine Realizes.bindLeft hgiven (realizes_dropPrefix hp) fun _ kept hkept => ?_
  rw [hkept, zero_add]
  refine Realizes.last rfl (realizes_setHeader hw _) fun _ kept hkept => ?_
  have hheld := hset w pre p' slot r' (by rw [hslot]; exact hw) hp'
  rw [hslot] at hheld
  rw [hkept]
  exact hheld

/-! ## New nodes

A new node is a leaf, in a block of the layout of leaves. A leaf becomes an internal node by a new
block and a header that moves, and the old block is given back. -/

omit [PointerWidth] in
/-- Blocks of nodes are aligned to 4. -/
theorem alignTo_dvd {layout aligned : Layout} (h : alignTo layout NODE_ALLOC_ALIGN = some aligned) :
    4 ∣ aligned.align := by
  rw [alignTo, Layout.fromSizeAlign] at h
  split_ifs at h with hpow
  obtain rfl := Option.some.inj h
  have hle : 4 ≤ max layout.align NODE_ALLOC_ALIGN := Nat.le_max_right _ 4
  have htwo : 2 ≤ (max layout.align NODE_ALLOC_ALIGN).log2 :=
    (Nat.le_log2 (by omega)).mpr hle
  show 2 ^ 2 ∣ max layout.align NODE_ALLOC_ALIGN
  rw [← hpow.1]
  exact Nat.pow_dvd_pow 2 htwo

omit [PointerWidth] in
theorem exists_leafLayout : ∃ layout, Node.leafLayout T = .ok layout ∧ 4 ∣ layout.align := by
  obtain ⟨layout, hlayout⟩ := NodeTypes.leaf_aligns (T := T)
  exact ⟨layout, by rw [Node.leafLayout, hlayout]; rfl, alignTo_dvd hlayout⟩

omit [PointerWidth] in
theorem exists_internalLayout :
    ∃ layout, Node.internalLayout T = .ok layout ∧ 4 ∣ layout.align := by
  obtain ⟨layout, hlayout⟩ := NodeTypes.internal_aligns (T := T)
  exact ⟨layout, by rw [Node.internalLayout, hlayout]; rfl, alignTo_dvd hlayout⟩

section Allocating

variable {A : Allocator T} (hA : A.Sound)

include hA

/-- **`Node::new_leaf`.** -/
theorem realizes_newLeaf (data : Bytes) (val : Option T) :
    Realizes MayStop (Node.newLeaf A data val) (valueOf val)
      (Prefix.new data >>= fun pfx => (.ok (.leaf ⟨pfx, val⟩) : Rust _))
      fun w n kept => NodeHolds n w kept := by
  unfold Node.newLeaf
  refine Realizes.bind (zero_add _).symm (realizes_newPrefix hA data) ?_
  rintro p pre r - ⟨rfl, hp⟩
  obtain ⟨layout, hlayout, hdvd⟩ := exists_leafLayout (T := T)
  rw [hlayout, lift_ok_bind]
  refine Realizes.bindLeft (zero_add _).symm (realizes_allocNode hA layout) ?_
  rintro _ _ ⟨a, rfl, -, halign, rfl⟩
  refine Realizes.bindLeft rfl (realizes_writeNode none _) fun _ kept hkept => ?_
  rw [hkept]
  have hleaf := Names.newLeaf (hdvd.trans halign)
  cases val with
  | none => exact Realizes.ret (.leaf hleaf hlayout (.intro .vacant hp))
  | some v => exact Realizes.ret (.leaf hleaf.setVal hlayout (.intro (.live v) hp))

/-- **`Node::new`.** -/
theorem realizes_new (data : Bytes) :
    Realizes MayStop (Node.new A data) 0 (Trie.Node.new data) fun w n kept => NodeHolds n w kept :=
  realizes_newLeaf hA data none

/-- **`Node::upgrade_to_internal`**: the block of the leaf is freed, and the header moves. -/
theorem realizes_upgradeToInternal (h : NodeHolds n w own) :
    Realizes MayStop (w.upgradeToInternal A) own (.ok n.upgradeToInternal : Rust _)
      fun w' n' kept => NodeHolds n' w' kept := by
  cases h with
  | @internal hdr bitmap cs w a layout header v ws r rv rc hw hlayout hheader hv hcs =>
    rw [Node.upgradeToInternal, hw.isLeaf]
    exact Realizes.ret (.internal _ hw hlayout hheader hv hcs)
  | @leaf hdr w a layout header r hw hlayout hheader =>
    obtain ⟨layoutInt, hlayoutInt, hdvd⟩ := exists_internalLayout (T := T)
    rw [Node.upgradeToInternal, hw.isLeaf, hw.asPtr]
    refine Realizes.lookLeft ((looks_readNode _).more rfl) ?_
    dsimp only
    rw [hlayout, lift_ok_bind, hlayoutInt, lift_ok_bind]
    refine Realizes.bindLeft rfl (realizes_freeNode _) fun _ kept hkept => ?_
    rw [hkept]
    refine Realizes.bindLeft rfl (realizes_allocNode hA layoutInt) ?_
    rintro _ _ ⟨a', rfl, -, halign, rfl⟩
    refine Realizes.bindLeft rfl (realizes_writeNode none _) fun _ kept hkept => ?_
    have hnames : Names ⟨if w.hasVal then a' ||| Node.VAL_TAG else a'⟩ a' false hdr.val.isSome := by
      rw [hw.hasVal]
      cases hdr.val with
      | none => exact Names.newInternal (hdvd.trans halign)
      | some v => exact (Names.newInternal (hdvd.trans halign)).setVal
    have hheld := NodeHolds.internal Bitmap.zero hnames hlayoutInt hheader .null .nil
    rw [add_zero, add_zero] at hheld
    rw [hkept]
    exact Realizes.ret hheld

end Allocating

/-! ## The children

The bitmap says at which index of the vector a child is. An insertion into a leaf makes it an
internal node first, after which there is no child to look out for. -/

section Internal

variable {a : Usize} {layout : Layout} {node : InternalNode T} {leaf val : Bool} {rest : Held T}

omit [PointerWidth] [NodeTypes T] in
theorem looks_internal (hw : Names w a leaf val) :
    Looks w.internal (nodeAt a layout (some (.internal node)) + rest) (.ok node : Rust _) := by
  rw [Node.internal, hw.asPtr]
  exact ((looks_readNode _).more rfl).bindLeft (Looks.ret _)

omit [PointerWidth] [NodeTypes T] in
theorem realizes_setInternal (hw : Names w a leaf val) (node' : InternalNode T) :
    Realizes stops (w.setInternal node') (nodeAt a layout (some (.internal node)))
      (.ok () : Rust Unit) fun _ _ kept => kept = nodeAt a layout (some (.internal node')) := by
  have hlook : Looks w.internal (nodeAt a layout (some (.internal node)) + 0) (.ok node : Rust _) :=
    looks_internal hw
  rw [add_zero] at hlook
  refine Realizes.lookLeft hlook ?_
  rw [hw.asPtr]
  exact realizes_writeNode _ _

end Internal

/-- **`Node::len_children`.** -/
theorem looks_lenChildren (h : NodeHolds n w own) :
    Looks (w.lenChildren : Prog T _) own (.ok n.lenChildren : Rust _) := by
  cases h with
  | leaf hw =>
    rw [Node.lenChildren, hw.isLeaf]
    exact Looks.ret _
  | internal _ hw =>
    rw [Node.lenChildren, hw.isLeaf]
    exact (looks_internal hw).bindLeft (Looks.ret _)

/-- **`Node::child_exists`.** -/
theorem looks_childExists (h : NodeHolds n w own) (pos : ChildPos) :
    Looks (w.childExists pos : Prog T _) own (.ok (n.childExists pos) : Rust _) := by
  cases h with
  | leaf hw =>
    rw [Node.childExists, hw.isLeaf]
    exact Looks.ret _
  | internal _ hw =>
    rw [Node.childExists, hw.isLeaf]
    exact (looks_internal hw).bindLeft (Looks.ret _)

/-- **`Node::child_idx_from_pos`.** -/
theorem looks_childIdxFromPos (h : NodeHolds n w own) (pos : ChildPos) :
    Looks (w.childIdxFromPos pos : Prog T _) own (.ok (n.childIdxFromPos pos) : Rust _) := by
  cases h with
  | leaf hw =>
    rw [Node.childIdxFromPos, hw.isLeaf]
    exact Looks.ret _
  | internal _ hw =>
    rw [Node.childIdxFromPos, hw.isLeaf]
    exact (looks_internal hw).bindLeft (Looks.ret _)

open Trie.Node (Counted)

omit [Target] [PointerWidth] [NodeTypes T] in
theorem exists_upgradeToInternal (n : Trie.Node T) :
    ∃ bitmap, n.upgradeToInternal = .internal n.header bitmap n.children := by
  cases n with
  | leaf hdr => exact ⟨_, rfl⟩
  | internal hdr bitmap cs => exact ⟨bitmap, rfl⟩

/-- **`Node::insert_child`.** -/
theorem realizes_insertChild {A : Allocator T} (hA : A.Sound) (hn : NodeHolds n w own)
    (hc : NodeHolds c wc oc) (hcounted : n.Counted) (pos : ChildPos) :
    Realizes MayStop (w.insertChild A pos wc) (own + oc) (n.insertChild pos c)
      fun w' n' kept => NodeHolds n' w' kept := by
  have hpure : n.insertChild pos c = (Except.ok n.upgradeToInternal : Rust (Trie.Node T)) >>=
      fun n' => n'.insertChild pos c := by
    cases n <;> rfl
  rw [hpure]
  refine Realizes.bind rfl (realizes_upgradeToInternal hA hn) fun w' n' kept hn' h' => ?_
  have hcount := hcounted.upgradeToInternal.self
  obtain ⟨bitmap, hup⟩ := exists_upgradeToInternal n
  obtain rfl := Except.ok.inj hn'
  rw [hup] at h' hcount ⊢
  replace hcount : bitmap.lenChildren = n.children.length := hcount
  refine Realizes.lookLeft ((looks_childIdxFromPos h' pos).more rfl) ?_
  cases h' with
  | @internal hdr bitmap cs w' a layout header v ws r rv rc hw hlayout hheader hv hcs =>
    have hlen : bitmap.lenChildren = ws.length := hcount.trans hcs.length_eq
    have hidx := Owned.Node.childIdx_le_lenChildren bitmap pos
    rw [add_assoc]
    refine Realizes.lookLeft (looks_internal hw) ?_
    rw [Owned.Node.insertChild_internal, BoundedRawVec.insert]
    split_ifs with hmax
    · exact fun _ hb => by cases hb
    rw [Rust.ok_bind]
    have hlt : ws.length < 256 := by
      have hle : bitmap.lenChildren ≤ 256 := by
        rw [Bitmap.lenChildren_eq_count]
        exact Nat.count_le _
      rw [BoundedRawVec.CAPACITY_MAX] at hmax
      omega
    have hgiven : nodeAt a layout (some (.internal ⟨header, bitmap, v⟩)) + (r + (rv + rc) + oc)
        = rv + (nodeAt a layout (some (.internal ⟨header, bitmap, v⟩)) + (r + (oc + rc))) := by
      abel
    show Realizes _ (vecInsert A v (bitmap.childIdx pos) wc bitmap.lenChildren >>= _) _ _ _
    rw [hlen] at hidx ⊢
    refine Realizes.bindLeft hgiven (realizes_vecInsert hA hv hidx hlt wc) fun v' rv' hv' => ?_
    rw [add_left_comm]
    refine Realizes.bindLeft rfl (realizes_setInternal hw _) fun _ kept hkept => ?_
    rw [hkept, add_left_comm rv' r]
    exact Realizes.ret (.internal _ hw hlayout hheader hv'
      (hcs.insertIdx (by omega) hc))

/-- **`Node::remove_child`** hands the child out. -/
theorem realizes_removeChild (hn : NodeHolds n w own) (hcounted : n.Counted) (pos : ChildPos) :
    Realizes stops (w.removeChild pos : Prog T _) own (.ok (n.removeChild pos) : Rust _)
      fun o r kept => ∃ own' oc, NodeHolds r.2 w own' ∧ OptionHolds r.1 o oc
        ∧ kept = own' + oc := by
  cases hn with
  | leaf hw hlayout hheader =>
    rw [Node.removeChild, hw.isLeaf]
    exact Realizes.ret ⟨_, 0, .leaf hw hlayout hheader, .none, (add_zero _).symm⟩
  | @internal hdr bitmap cs w a layout header v ws r rv rc hw hlayout hheader hv hcs =>
    have hlen : bitmap.lenChildren = ws.length := hcounted.self.trans hcs.length_eq
    have hlook := looks_childIdxFromPos (NodeHolds.internal bitmap hw hlayout hheader
      hv hcs) pos
    rw [Node.removeChild, hw.isLeaf]
    refine Realizes.lookLeft hlook ?_
    refine Realizes.lookLeft (looks_internal hw) ?_
    show Realizes _ (vecRemove v (bitmap.childIdx pos) bitmap.lenChildren >>= _) _ _ _
    rw [Trie.Node.removeChild, hlen]
    have hgiven : nodeAt a layout (some (.internal ⟨header, bitmap, v⟩)) + (r + (rv + rc))
        = rv + (nodeAt a layout (some (.internal ⟨header, bitmap, v⟩)) + (r + rc)) := by
      abel
    refine Realizes.bindLeft hgiven (realizes_vecRemove hv _) fun o rv' ho => ?_
    obtain ⟨rfl, hv'⟩ := ho
    rw [add_left_comm]
    refine Realizes.bindLeft rfl (realizes_setInternal hw _) fun _ kept hkept => ?_
    rw [hkept, BoundedRawVec.remove]
    split_ifs with hle
    · rw [List.eraseIdx_of_length_le hle] at hv'
      rw [List.getElem?_eq_none hle]
      refine Realizes.ret ⟨_, 0, .internal _ hw hlayout hheader hv' hcs, .none, ?_⟩
      abel
    · have hidx : bitmap.childIdx pos < cs.length := hcs.length_eq ▸ Nat.lt_of_not_le hle
      obtain ⟨wc, oc, rest, hwc, hc, rfl, -, herase⟩ := hcs.split (List.getElem?_eq_getElem hidx)
      rw [hwc, List.getElem?_eq_getElem hidx]
      refine Realizes.ret ⟨_, oc, .internal _ hw hlayout hheader hv' herase, .some hc, ?_⟩
      abel

/-! ## The end of a node

The value if there is one, the prefix, the children with all that is below them, the buffer and
at last the block: all that the node owned is given back. -/

omit [NodeTypes T] in
/-- **The value and the prefix of a node end**, and what is left is the block. -/
theorem realizes_dropHeader {α : Type} {a : Usize} {layout : Layout} {b : NodeBlock T}
    {h : Trie.Header T} {r rest : Held T} {leaf : Bool} (hw : Names w a leaf h.val.isSome)
    (hheader : HeaderHolds h b.header r) {f : Prog T α} {q : Rust Unit}
    {Q : α → Unit → Held T → Prop}
    (hf : ∀ header, Realizes stops f (nodeAt a layout (some (b.setHeader header)) + rest) q Q) :
    Realizes stops (do
      if w.hasVal then w.dropVal
      let header : Header T ← w.header
      dropPrefix header.pfx
      f) (nodeAt a layout (some b) + (r + rest)) q Q := by
  generalize hb : b.header = header at hheader
  obtain @⟨p, slot, pre, r, hp⟩ := hheader
  -- the prefix ends, whatever is in the slot by then
  have hprefix : ∀ {b' : NodeBlock T} {slot'}, b'.header = ⟨p, slot'⟩ →
      (∃ header, b' = b.setHeader header) →
      Realizes stops (do
        let header : Header T ← w.header
        dropPrefix header.pfx
        f) (nodeAt a layout (some b') + (r + rest)) q Q := by
    rintro b' slot' hb' ⟨header, rfl⟩
    refine Realizes.lookLeft (looks_header hw hb') ?_
    refine Realizes.bindLeft (add_left_comm _ _ _) (realizes_dropPrefix hp) fun _ kept hkept => ?_
    rw [hkept, zero_add]
    exact hf header
  rw [hw.hasVal]
  cases slot with
  | vacant =>
    rw [show r + valueOf (Slot.vacant : Slot T).toOption = r from add_zero r]
    exact hprefix hb ⟨b.header, by cases b <;> rfl⟩
  | live v =>
    have hgiven : nodeAt a layout (some b) + (r + valueOf (some v) + rest)
        = nodeAt a layout (some b) + Holdings.value v + (r + rest) := by
      show _ + (r + Holdings.value v + rest) = _
      abel
    refine Realizes.bindLeft hgiven (realizes_dropVal hw hb) fun _ kept hkept => ?_
    rw [hkept]
    exact hprefix (header_setHeader _ _) ⟨_, rfl⟩

omit [PointerWidth] [NodeTypes T] in
theorem dropVec_new : (Node.dropVec RawVec.new : Prog T Unit) = pure () := if_pos rfl

/-- **`Node::drop`** gives everything back, and drops every value in the node once. -/
theorem realizes_drop {depth : ℕ} (h : NodeHolds n w own) (hcounted : n.Counted)
    (hdepth : n.Shallow depth) :
    Realizes stops (w.drop depth : Prog T _) own (.ok () : Rust Unit)
      fun _ _ kept => kept = 0 := by
  induction depth generalizing n w own with
  | zero => cases hdepth
  | succ depth ih =>
    obtain ⟨hdepth⟩ := hdepth
    cases h with
    | @leaf hdr w a layout header r hw hlayout hheader =>
      rw [← add_zero r]
      refine realizes_dropHeader (b := .leaf ⟨header⟩) hw hheader fun header' => ?_
      rw [hw.isLeaf, hlayout, hw.asPtr, add_zero]
      exact realizes_freeNode _
    | @internal hdr bitmap cs w a layout header v ws r rv rc hw hlayout hheader hv hcs =>
      refine realizes_dropHeader (b := .internal ⟨header, bitmap, v⟩) hw hheader fun header' => ?_
      rw [hw.isLeaf]
      refine Realizes.lookLeft (looks_internal hw) ?_
      have hlen : bitmap.lenChildren = ws.length := hcounted.self.trans hcs.length_eq
      show Realizes _ (Node.deallocate _ v bitmap.lenChildren >>= _) _ _ _
      rw [hlen]
      refine Realizes.bindLeft (add_comm _ _) (realizes_deallocate hv hcs fun c hc w own hown =>
        ih hown (hcounted.child hc) (hdepth c hc)) fun v' kept hkept => ?_
      obtain ⟨rfl, rfl⟩ := hkept
      rw [dropVec_new, hlayout, hw.asPtr, zero_add]
      exact realizes_freeNode _

/-- **A node that goes out of scope**, if there is one. -/
theorem realizes_dropOption {depth : ℕ} {o : Option (Trie.Node T)} {o' : Option Node}
    (h : OptionHolds o o' own) (hcounted : ∀ n, o = some n → n.Counted)
    (hdepth : ∀ n, o = some n → n.Shallow depth) :
    Realizes stops (Node.dropOption depth o' : Prog T _) own (.ok () : Rust Unit)
      fun _ _ kept => kept = 0 := by
  cases h with
  | none => exact Realizes.ret rfl
  | some h => exact realizes_drop h (hcounted _ rfl) (hdepth _ rfl)

/-- **`Node::transfer_children`**: the vector moves, and what the destination had is given
back. -/
theorem realizes_transferChildren {A : Allocator T} (hA : A.Sound) {depth : ℕ}
    (hn : NodeHolds n w own) (hc : NodeHolds c wc oc) (hcounted : c.Counted)
    (hdepth : c.Shallow (depth + 1)) :
    Realizes MayStop (w.transferChildren A depth wc) (own + oc)
      (.ok (n.transferChildren c) : Rust _) fun wc' r kept =>
        ∃ own' oc', NodeHolds r.1 w own' ∧ NodeHolds r.2 wc' oc' ∧ kept = own' + oc' := by
  cases hn with
  | leaf hw hlayout hheader =>
    rw [Node.transferChildren, hw.isLeaf]
    exact Realizes.ret ⟨_, oc, .leaf hw hlayout hheader, hc, rfl⟩
  | @internal hdr bitmap cs w a layout header v ws r rv rc hw hlayout hheader hv hcs =>
    rw [Node.transferChildren, hw.isLeaf]
    refine Realizes.bindLeft (add_comm _ oc) (realizes_upgradeToInternal hA hc)
      fun wc' kept hc' => ?_
    have hcount := hcounted.upgradeToInternal.self
    obtain ⟨bitmap', hup⟩ := exists_upgradeToInternal c
    have htransfer : (Trie.Node.internal hdr bitmap cs).transferChildren c
        = (.internal hdr Bitmap.zero [], .internal c.header bitmap cs) := rfl
    obtain ⟨hdepth⟩ := hdepth
    rw [hup] at hc' hcount
    rw [htransfer]
    cases hc' with
    | @internal hdr' bitmap' cs' w' a' layout' header' v' ws' r' rv' rc' hw' hlayout' hheader' hv'
        hcs' =>
      have hlen : bitmap'.lenChildren = ws'.length := hcount.trans hcs'.length_eq
      rw [add_assoc]
      refine Realizes.lookLeft (looks_internal hw') ?_
      have hgiven : nodeAt a' layout' (some (.internal ⟨header', bitmap', v'⟩))
          + (r' + (rv' + rc')
            + (nodeAt a layout (some (.internal ⟨header, bitmap, v⟩)) + (r + (rv + rc))))
          = rv' + rc' + (nodeAt a' layout' (some (.internal ⟨header', bitmap', v'⟩))
            + (nodeAt a layout (some (.internal ⟨header, bitmap, v⟩))
              + (r' + (r + (rv + rc))))) := by abel
      show Realizes _ (Node.deallocate _ v' bitmap'.lenChildren >>= _) _ _ _
      rw [hlen]
      refine Realizes.bindLeft hgiven (realizes_deallocate hv' hcs' fun x hx w own hown =>
        realizes_drop hown (hcounted.child hx) (hdepth x hx)) fun _ kept hkept => ?_
      obtain ⟨rfl, rfl⟩ := hkept
      rw [zero_add, dropVec_new, pure_bind]
      refine Realizes.lookLeft (looks_internal hw).moreLeft ?_
      refine Realizes.bindLeft rfl (realizes_setInternal hw' _) fun _ kept hkept => ?_
      rw [hkept, add_left_comm]
      refine Realizes.bindLeft rfl (realizes_setInternal hw _) fun _ kept hkept => ?_
      rw [hkept]
      refine Realizes.ret ⟨_, _, .internal _ hw hlayout hheader .null .nil,
        .internal _ hw' hlayout' hheader' hv hcs, ?_⟩
      abel

end Placed

end Trie
