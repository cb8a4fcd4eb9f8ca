import Algors.Trie.PlacedSpine

/-!
# Insertion in memory

`insert` on words does what `insert` on nodes does. The walk changes the nodes where they are,
and the recursion on nodes puts them back on its way up: both come to the same, since what is
owned at a place is handed past what goes on below it. The facts about the nodes on the way
are those that are known of the nodes that are not in memory.

A node that is changed is loaded, changed as a word and stored again at the same place. Between
the load and the store, the memory still has the old word there, and what the old word owned
may have moved on already: so a place is said to hold a node, `HoldsAt`, only before a load and
after a store, and in between the word at the place and what belongs to the node are two
things.

The only stop that is allowed for is an allocation that fails. Where the call on nodes does not
return, as for a prefix that has no layout, nothing is said of the call in memory.
-/

namespace Trie

namespace Placed

open Trie.Node (Wf Counted)

variable [Target] [PointerWidth] {T : Type} [NodeTypes T]

/-- **The node at a place**, and what belongs to it. -/
def HoldsAt (e : Hole) (n : Trie.Node T) (own : Held T) : Prop :=
  ∃ w r, NodeHolds n w r ∧ own = e.hold w + r

namespace TrieMap

/-! ## A split

The node keeps the part of its prefix that it shares with the key, and everything else goes to
a new node below it: the rest of the prefix, the value and the children. -/

variable {stops : Stop → Prop} {n : Trie.Node T} {w : Node} {own : Held T} {A : Allocator T}
  {depth : ℕ}

omit [PointerWidth] [NodeTypes T] in
/-- A new node has no children. -/
theorem children_of_new {data : Bytes} (h : Trie.Node.new data = .ok n) :
    n.Agrees ∧ n.children = [] := by
  obtain ⟨pre, -, hok⟩ := Rust.bind_eq_ok.mp h
  obtain rfl := Except.ok.inj hok
  exact ⟨trivial, rfl⟩

/-- **A split** changes the node where it is, and the place holds the split node then. The new
node below owns the old value and the old children, and the node itself a new prefix, the old
one being given back. -/
theorem realizes_split (hA : A.Sound) (e : Hole) (h : NodeHolds n w own) (lcpLen : ℕ) :
    Realizes MayStop (split A (depth + 1) e.place lcpLen) (e.hold w + own)
      (Trie.TrieMap.split n lcpLen) fun _ n' kept => HoldsAt e n' kept := by
  rw [split, Owned.TrieMap.split_eq]
  -- the new node, with the rest of the prefix
  refine Realizes.lookLeft ((looks_load e w).more rfl) ?_
  refine Realizes.lookLeft (looks_prefixBytes h).moreLeft ?_
  refine Realizes.look (looks_lift_lift _) fun splitData _ => ?_
  refine Realizes.bind (zero_add _).symm (realizes_new hA splitData) fun ws s os hnew hs => ?_
  have hchildren := children_of_new hnew
  -- it is given the value
  have hgiven : os + (e.hold w + own) = own + (os + e.hold w) := by abel
  refine Realizes.bindLeft hgiven (realizes_takeVal h) ?_
  rintro ⟨v, w₁⟩ _ ⟨hv, own₁, h₁, rfl⟩
  dsimp only at hv h₁ ⊢
  obtain rfl := hv
  have hgiven : own₁ + valueOf n.takeVal.1 + (os + e.hold w)
      = os + valueOf n.takeVal.1 + (own₁ + e.hold w) := by abel
  refine Realizes.bindLeft hgiven (realizes_setSome hs _) fun ws₁ os₁ hs₁ => ?_
  -- the node's own prefix, shortened
  refine Realizes.lookLeft ((looks_prefixBytes h₁).more rfl).moreLeft ?_
  refine Realizes.look (looks_lift_lift _) fun newData _ => ?_
  refine Realizes.bind (zero_add _).symm (realizes_newPrefix hA newData) ?_
  rintro p pre op - ⟨rfl, hp⟩
  have hgiven : op + (os₁ + (own₁ + e.hold w)) = own₁ + op + (os₁ + e.hold w) := by abel
  refine Realizes.bindLeft hgiven (realizes_setPfx h₁ hp) fun _ own₂ h₂ => ?_
  -- the children, and the new node becomes the only one
  have hgiven : own₂ + (os₁ + e.hold w) = own₂ + os₁ + e.hold w := by abel
  refine Realizes.bindLeft hgiven (realizes_transferChildren hA h₂ hs₁ ?_ ?_) ?_
  · exact Owned.TrieMap.counted_setSome (Counted.of_children_eq_nil hchildren.1 hchildren.2) _
  · refine Trie.Node.Shallow.of_children_eq_nil ?_
    cases n.takeVal.1 with
    | none => exact hchildren.2
    | some v => exact (Trie.Node.children_setVal s v).trans hchildren.2
  rintro ws₂ _ ⟨own₃, os₂, h₃, hs₂, rfl⟩
  refine Realizes.look (((looks_nodeFirstByte hs₂).moreLeft).more rfl) fun b _ => ?_
  refine Realizes.andThen rfl (realizes_insertChild hA h₃ hs₂ (Counted.transferChildren _ _) _)
    fun w₄ n' own₄ _ h₄ => ?_
  exact Realizes.last (add_comm _ _) (realizes_store e w w₄) fun _ kept hkept =>
    ⟨w₄, own₄, h₄, hkept ▸ rfl⟩

/-! ## The loop

At a node whose prefix the rest of the key begins with, the value is set, or the way goes on to
a child, or a new child is inserted. At another node the prefix is split first, and then it is
such a node. The induction is on the fuel, which both sides count alike, for any place and any
node there. -/

/-- **A turn of the loop of `insert`**, from the node on that is there after a split. The
recursion is the rest of the loop, which is known to do at the child's place what it does on
the child. -/
theorem realizes_insertTurn (hA : A.Sound) {loop : Place → Bytes → Prog T Unit} {val : T}
    {fuel room : ℕ} {data : Bytes}
    (ih : ∀ {n : Trie.Node T} {w : Node} {own : Held T} {room : ℕ} {data : Bytes} (e : Hole),
      NodeHolds n w own → Wf room n →
      Realizes MayStop (loop e.place data) (e.hold w + own + Holdings.value val)
        (Trie.TrieMap.insertLoop fuel n data val) fun _ n' kept => HoldsAt e n' kept)
    (e : Hole) (h : NodeHolds n w own) (hwf : Wf room n) (lcpLen : ℕ) :
    Realizes MayStop (insertTurn A loop e.place data val lcpLen)
      (e.hold w + own + Holdings.value val)
      (if lcpLen = data.length then .ok (n.setVal val) else do
        let curData ← Rust.sliceFrom data lcpLen
        let byte ← Rust.index curData 0
        if n.childExists (childPosFromByte byte) then do
          let child ← Rust.unwrap (n.getChildByPos (childPosFromByte byte))
          let child ← Trie.TrieMap.insertLoop fuel child curData val
          .ok (n.setChildByPos (childPosFromByte byte) child)
        else do
          let newChild ← Trie.Node.new curData
          n.insertChild (childPosFromByte byte) (newChild.setVal val))
      fun _ n' kept => HoldsAt e n' kept := by
  have hcounted := Counted.of_wf hwf
  rw [insertTurn]
  refine Realizes.lookLeft (((looks_load e w).more rfl).more rfl) ?_
  split_ifs
  · -- the key ends here
    have hgiven : e.hold w + own + Holdings.value val = own + Holdings.value val + e.hold w := by
      abel
    refine Realizes.bindLeft hgiven (realizes_setVal h val) fun w' own' h' => ?_
    exact Realizes.last (add_comm _ _) (realizes_store e w w') fun _ kept hkept =>
      ⟨w', own', h', hkept ▸ rfl⟩
  refine Realizes.look (looks_lift_lift _) fun curData _ => ?_
  refine Realizes.look (looks_lift_lift _) fun byte _ => ?_
  dsimp only
  refine Realizes.lookLeft (((looks_childExists h _).moreLeft).more rfl) ?_
  split_ifs
  · -- the way goes on to a child, with the node and its other children handed past
    cases hc : n.getChildByPos (childPosFromByte byte) with
    | none => exact fun _ hb => by cases hb
    | some c =>
      obtain ⟨e', p, wc, oc, rest, hp, rfl, hchild, hlook, hset⟩ := h.childByPos hcounted hc
      have hwfc := hwf.child (mem_children_of_getChildByIdx hc)
      refine Realizes.lookLeft ((hlook.moreLeft).more rfl) ?_
      rw [Rust.unwrap_some, Rust.unwrap_some, Raw.lift_ok, lift_ok_bind, Rust.ok_bind, ← hp]
      have hgiven : e.hold w + (e'.hold wc + (oc + rest)) + Holdings.value val
          = e'.hold wc + oc + Holdings.value val + (e.hold w + rest) := by abel
      refine Realizes.map hgiven (ih e' hchild hwfc) ?_
      rintro _ c' _ - ⟨wc', oc', hc', rfl⟩
      refine ⟨w, _, hset c' wc' oc' hc', ?_⟩
      abel
  · -- a new leaf
    refine Realizes.bind (zero_add _).symm (realizes_new hA curData) fun wc c oc _ hc => ?_
    have hgiven : oc + (e.hold w + own + Holdings.value val)
        = oc + Holdings.value val + (own + e.hold w) := by abel
    refine Realizes.bindLeft hgiven (realizes_setVal hc val) fun wc' oc' hc' => ?_
    have hgiven : oc' + (own + e.hold w) = own + oc' + e.hold w := by abel
    refine Realizes.andThen hgiven (realizes_insertChild hA h hc' hcounted _)
      fun w' n' own' _ h' => ?_
    exact Realizes.last (add_comm _ _) (realizes_store e w w') fun _ kept hkept =>
      ⟨w', own', h', hkept ▸ rfl⟩

/-- **The loop of `insert`** leaves at a place what it makes of the node there, and the value
belongs to it then. -/
theorem realizes_insertLoop (hA : A.Sound) (val : T) {fuel room : ℕ} {data : Bytes} (e : Hole)
    (h : NodeHolds n w own) (hwf : Wf room n) :
    Realizes MayStop (insertLoop A (depth + 1) val fuel e.place data)
      (e.hold w + own + Holdings.value val) (Trie.TrieMap.insertLoop fuel n data val)
      fun _ n' kept => HoldsAt e n' kept := by
  induction fuel generalizing n w own room data e with
  | zero => exact fun _ hb => by cases hb
  | succ fuel ih =>
    rw [insertLoop, Trie.TrieMap.insertLoop]
    refine Realizes.lookLeft (((looks_load e w).more rfl).more rfl) ?_
    refine Realizes.lookLeft (((looks_prefixBytes h).moreLeft).more rfl) ?_
    refine Realizes.lookLeft (((looks_prefixLen h).moreLeft).more rfl) ?_
    dsimp only
    by_cases hlt : Util.lcp n.pfx.bytes data < n.pfx.len
    · -- the loop goes on at the split node, which is as well formed as the node was
      rw [if_pos hlt, if_pos hlt]
      refine Realizes.bind rfl (realizes_split hA e h _) ?_
      rintro _ n' _ hsplit ⟨w', own', h', rfl⟩
      have hm : lcpLen n.pfx.bytes data < n.pfx.bytes.length := by
        rw [← Util.lcp_eq_lcpLen]
        exact hlt
      rw [Util.lcp_eq_lcpLen] at hsplit
      obtain ⟨s, hinto⟩ := (Trie.TrieMap.split_spec hwf hm).of_eq_ok hsplit
      exact realizes_insertTurn hA ih e h' (hinto.wf hwf hm) _
    · rw [if_neg hlt, if_neg hlt]
      exact realizes_insertTurn hA ih e h hwf _

end TrieMap

/-! ## The calls

What a call is given are the map and its arguments, and what it leaves are the map and its
result: `Realizes` says so of all memories, and that nothing else in the memory changes. -/

namespace TrieMap

variable {m : Trie.TrieMap T} {own : Held T} {A : Allocator T} {depth room : ℕ}

/-- **`insert`** takes the value over, or drops it when the key is empty. -/
theorem realizes_insert (hA : A.Sound) (h : MapHolds m own) (hvalid : m.Valid room) (key : Bytes)
    (val : T) :
    Realizes MayStop (insert A (depth + 1) key val) (own + Holdings.value val)
      (m.insert key val) fun _ m' kept => MapHolds m' kept := by
  unfold insert Trie.TrieMap.insert
  split_ifs
  · exact Realizes.last (add_comm _ _) (realizes_dispose val) fun _ kept hkept =>
      (hkept ▸ zero_add own).symm ▸ h
  cases h with
  | none =>
    refine Realizes.lookLeft ((looks_getRoot none).more rfl) ?_
    refine Realizes.bind (zero_add _).symm (realizes_new hA key) fun w n r _ hn => ?_
    have hgiven : r + (rootAt none + Holdings.value val)
        = r + Holdings.value val + rootAt none := by abel
    refine Realizes.bindLeft hgiven (realizes_setVal hn val) fun w' r' hn' => ?_
    refine Realizes.last (add_comm _ _) (realizes_setRoot none (some w')) fun _ kept hkept => ?_
    rw [hkept]
    exact .some hn'
  | @some n w r hroot =>
    refine Realizes.lookLeft (((looks_getRoot (some w)).more rfl).more rfl) ?_
    refine Realizes.map (add_zero _).symm
      (realizes_insertLoop hA val .root hroot (hvalid.wf n rfl)) ?_
    rintro _ n' _ - ⟨w', r', hn', rfl⟩
    rw [add_zero]
    exact .some hn'

/-- **`clear`** gives everything back: no block is left, and every value is dropped. It stops at
nothing, so that any set of permitted stops will do. -/
theorem realizes_clear (stops : Stop → Prop) (h : MapHolds m own) (hvalid : m.Valid room)
    (hdepth : room + 2 ≤ depth) :
    Realizes stops (clear depth : Prog T Unit) own (.ok m.clear : Rust _)
      fun _ m' kept => MapHolds m' kept := by
  cases h with
  | none =>
    refine Realizes.lookLeft (looks_getRoot none) ?_
    refine Realizes.last (add_zero _).symm (realizes_setRoot none none) fun _ kept hkept => ?_
    rw [hkept, add_zero]
    exact .none
  | @some n w r hroot =>
    have hwf := hvalid.wf n rfl
    refine Realizes.lookLeft ((looks_getRoot (some w)).more rfl) ?_
    refine Realizes.bindLeft (add_comm _ _) (realizes_drop hroot (Counted.of_wf hwf)
      (hwf.shallow.mono hdepth)) fun _ kept hkept => ?_
    rw [hkept, zero_add]
    refine Realizes.last (add_zero _).symm (realizes_setRoot _ none) fun _ kept hkept => ?_
    rw [hkept, add_zero]
    exact .none

end TrieMap

end Placed

end Trie
