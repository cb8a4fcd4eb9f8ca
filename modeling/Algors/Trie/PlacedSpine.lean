import Algors.Trie.OwnedRemove
import Algors.Trie.PlacedMap
import Algors.Trie.PlacedNode

/-!
# Places in a tree in memory

A walk goes from place to place, and what it may touch at a place is a hole: the variable of
the root, or the slot of a buffer with all the others of it. `NodeHolds.child` takes a node
apart at one of its children, and says what the node is when another is put there.
`Spine` does so all the way from the root to a place: it is what a removal keeps in
`visited`, with what the nodes that were passed own apart from the way, and a node at the
end of it may be changed with the rest handed past.
-/

namespace Trie

namespace Placed

open Trie.Node (Counted)

variable [Target]

/-! ## Holes -/

/-- **A place, and what has to be owned to use it.** -/
inductive Hole where
  | root
  | slot (a : Usize) (b : Block Layout Node) (i : ℕ) (hi : i < b.cells.length)

namespace Hole

/-- Where the hole is. -/
def place : Hole → Place
  | root => .root
  | slot a _ i _ => .slot ⟨a, i⟩

variable {T : Type}

/-- What is owned, with a word in the hole. -/
def hold : Hole → Node → Held T
  | root, w => rootAt (some w)
  | slot a b i _, w => bufferAt a { b with cells := b.cells.set i (some w) }

end Hole

variable {T : Type} {stops : Stop → Prop} {n c : Trie.Node T} {w wc : Node} {own oc : Held T}

theorem looks_load (e : Hole) (w : Node) :
    Looks (load e.place : Prog T Node) (e.hold w) (.ok w : Rust _) := by
  cases e with
  | root =>
    rintro _ ⟨⟩ h total frame hh
    have hroot : h.root = some w := Content.root.inj (Option.some.inj hh.get)
    show (Raw.lift (Rust.unwrap h.root) >>= fun w => pure (w, h)) = _
    rw [hroot]
    rfl
  | slot a b i hi => exact looks_readWord (List.getElem?_set_self hi)

theorem realizes_store (e : Hole) (w w' : Node) :
    Realizes stops (store e.place w' : Prog T Unit) (e.hold w) (.ok () : Rust Unit)
      fun _ _ kept => kept = e.hold w' := by
  cases e with
  | root => exact realizes_setRoot _ _
  | slot a b i hi =>
    refine (realizes_writeWord ((List.length_set ..).symm ▸ hi) w').imp ?_
    rintro _ _ _ - rfl
    rw [Hole.hold, List.set_set]

variable [PointerWidth] [NodeTypes T]

/-! ## A child of a node -/

omit [Target] [PointerWidth] [NodeTypes T] in
theorem mem_children_of_getChildByIdx {i : ℕ} (hc : n.getChildByIdx i = some c) :
    c ∈ n.children := by
  cases n with
  | leaf hdr => cases hc
  | internal hdr bitmap cs =>
    rw [Trie.Node.getChildByIdx, BoundedRawVec.get] at hc
    split_ifs at hc
    exact List.mem_of_getElem? hc

/-- **One child of a node**, in its slot; when another is put there, the rest of the node is as
it was. -/
theorem NodeHolds.child (h : NodeHolds n w own) (hcounted : n.Counted) {i : ℕ}
    (hc : n.getChildByIdx i = some c) :
    ∃ (e : Hole) (p : Ptr Usize) (wc : Node) (oc rest : Held T), e.place = .slot p
      ∧ own = e.hold wc + (oc + rest) ∧ NodeHolds c wc oc
      ∧ Looks (w.getChildByIdx i : Prog T _) own (.ok (some p) : Rust _)
      ∧ ∀ pos c' wc' oc', n.childIdxFromPos pos = i → NodeHolds c' wc' oc' →
        NodeHolds (n.setChildByPos pos c') w (e.hold wc' + (oc' + rest)) := by
  cases h with
  | leaf => cases hc
  | @internal hdr bitmap cs w a layout header v ws r rv rc hw hlayout hheader hv hcs =>
    have hlen : bitmap.lenChildren = ws.length := hcounted.self.trans hcs.length_eq
    rw [Trie.Node.getChildByIdx, BoundedRawVec.get] at hc
    split_ifs at hc with hle
    have hi : i < ws.length := hlen ▸ Nat.lt_of_not_le hle
    obtain ⟨wc, oc, rest, hwc, hheld, rfl, hset, -⟩ := hcs.split hc
    obtain ⟨a', b, rfl, hcell, hlook, hv'⟩ := hv.slot hi
    obtain rfl : ws[i] = wc := by rwa [List.getElem?_eq_getElem hi, Option.some.injEq] at hwc
    have hlt : i < b.cells.length := (List.getElem?_eq_some_iff.mp hcell).1
    have hcells : b.cells.set i (some ws[i]) = b.cells := by
      rw [← (List.getElem?_eq_some_iff.mp hcell).2, List.set_getElem_self]
    refine ⟨.slot a' b i hlt, ⟨a', i⟩, ws[i], oc,
      nodeAt a layout (some (.internal ⟨header, bitmap, v⟩)) + (r + rest), rfl, ?_, hheld, ?_, ?_⟩
    · rw [Hole.hold, hcells]
      abel
    · rw [Node.getChildByIdx, hw.isLeaf]
      refine Looks.bindLeft (looks_internal hw) ?_
      show Looks (vecGet v i bitmap.lenChildren) _ _
      rw [hlen]
      exact ((hlook.more rfl).moreLeft).moreLeft
    · intro pos c' wc' oc' hpos hc'
      have hheld' := NodeHolds.internal bitmap hw hlayout hheader (hv' wc')
        (hset c' wc' oc' hc')
      have hsame : (Trie.Node.internal hdr bitmap cs).setChildByPos pos c'
          = .internal hdr bitmap (cs.set i c') := hpos ▸ rfl
      rw [hsame]
      refine cast (congrArg _ ?_) hheld'
      rw [Hole.hold]
      abel

/-- **`Node::get_child_by_pos`**, and what is needed to change the child there. -/
theorem NodeHolds.childByPos (h : NodeHolds n w own) (hcounted : n.Counted) {pos : ChildPos}
    (hc : n.getChildByPos pos = some c) :
    ∃ (e : Hole) (p : Ptr Usize) (wc : Node) (oc rest : Held T), e.place = .slot p
      ∧ own = e.hold wc + (oc + rest) ∧ NodeHolds c wc oc
      ∧ Looks (w.getChildByPos pos : Prog T _) own (.ok (some p) : Rust _)
      ∧ ∀ c' wc' oc', NodeHolds c' wc' oc' →
        NodeHolds (n.setChildByPos pos c') w (e.hold wc' + (oc' + rest)) := by
  obtain ⟨e, p, wc, oc, rest, hp, hown, hchild, hlook, hset⟩ := h.child hcounted hc
  exact ⟨e, p, wc, oc, rest, hp, hown, hchild, (looks_childIdxFromPos h pos).bindLeft hlook,
    fun c' wc' oc' hc' => hset pos c' wc' oc' rfl hc'⟩

/-- **`Node::child_pos_from_idx`.** -/
theorem looks_childPosFromIdx (h : NodeHolds n w own) (hcounted : n.Counted) (i : ℕ) :
    Looks (w.childPosFromIdx i : Prog T _) own (n.childPosFromIdx i) := by
  intro pos hpos
  obtain ⟨c, hc, -⟩ := Rust.bind_eq_ok.mp hpos
  have hget : n.getChildByIdx i = some c := by
    cases hget : n.getChildByIdx i with
    | none => rw [hget] at hc; cases hc
    | some c' => rw [hget] at hc; exact congrArg some (Except.ok.inj hc)
  obtain ⟨e, p, wc, oc, rest, hp, rfl, hchild, hlook, -⟩ := h.child hcounted hget
  refine Looks.bindLeft hlook ?_ pos hpos
  rw [Trie.Node.childPosFromIdx, hget, Rust.expect_some, Rust.expect_some, Raw.lift_ok,
    lift_ok_bind, Rust.ok_bind]
  have hload := looks_load (T := T) e wc
  rw [hp] at hload
  refine Looks.bindLeft (hload.more rfl) ?_
  exact Looks.bind ((looks_nodeFirstByte hchild).more rfl).moreLeft fun b _ => Looks.ret _

/-! ## The way to a place -/

/-- **The way from the root to a place**, and what the nodes on it own apart from it. -/
inductive Spine : Hole → Visited → Trie.Visited T → Held T → Prop
  | root : Spine .root [] [] 0
  | child {e e' : Hole} {visited : Visited} {visited' : Trie.Visited T} {r rest : Held T}
      {n : Trie.Node T} {w : Node} {pos : ChildPos} (h : Spine e visited visited' r)
      (hset : ∀ c wc oc, NodeHolds c wc oc →
        NodeHolds (n.setChildByPos pos c) w (e'.hold wc + (oc + rest))) :
      Spine e' ((e.place, pos) :: visited) ((n, pos) :: visited') (e.hold w + (rest + r))

/-- **Bringing a path up to date**, which is done already where the nodes are changed in place. -/
theorem Spine.plug {e : Hole} {visited : Visited} {visited' : Trie.Visited T} {r : Held T}
    (h : Spine e visited visited' r) (hn : NodeHolds n w own) :
    ∃ w' own', NodeHolds (Trie.TrieMap.plug n visited') w' own'
      ∧ e.hold w + (own + r) = rootAt (some w') + own' := by
  induction h generalizing n w own with
  | root => exact ⟨w, own, hn, by rw [add_zero]; rfl⟩
  | @child e e' visited visited' r rest m wm pos h hset ih =>
    obtain ⟨w', own', hplug, hheld⟩ := ih (hset n w own hn)
    refine ⟨w', own', hplug, hheld ▸ ?_⟩
    abel

/-! ## The map -/

/-- **The memory holds a map**: the word of its root, and what belongs to it. -/
inductive MapHolds : Trie.TrieMap T → Held T → Prop
  | none : MapHolds ⟨none⟩ (rootAt none)
  | some {n : Trie.Node T} {w : Node} {r : Held T} (h : NodeHolds n w r) :
      MapHolds ⟨some n⟩ (rootAt (some w) + r)

end Placed

end Trie
