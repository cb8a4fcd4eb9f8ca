import Algors.Trie.Insert
import Algors.Trie.OwnedNode

/-!
# Insertion, and what is owned

`insert` on nodes with blocks settles with `insert` on nodes without: it does the
same, and nothing that it is given is lost on the way or owned twice. The facts about
the nodes on the way – that the bitmap counts the children where a vector is changed
or a node ends – are those that are known of the nodes without blocks.
-/

namespace Trie

namespace Owned

variable {T : Type}

open Trie.Node (Wf Counted)

namespace TrieMap

open Owned.Node

variable {n cur : Node T} {m : Trie.Node T}

/-! ## A split

The code moves the value only if there is one, by a test on the tag. Without blocks that is an
option, and `setSome` is what the test and the move come to. -/

/-- A value that moved into a node, if there was one. -/
def setSome (m : Trie.Node T) : Option T → Trie.Node T
  | some v => m.setVal v
  | none => m

/-- Moving a value into a node, or moving none. -/
theorem settles_setSome (h : n.Models m) (v : Option T) :
    Settles (n.setSome v) (Holding.option Holding.value v + n.holding) (.ok (setSome m v))
      holding Models := by
  cases v with
  | none => exact Settles.ret (zero_add _) h
  | some v => exact settles_setVal h v

/-- A value adds no child. -/
theorem counted_setSome (h : m.Counted) (v : Option T) : (setSome m v).Counted := by
  cases v with
  | none => exact h
  | some v => exact h.setHeader _

variable [Target]

/-- The split of a node without a block, with the value moved by `setSome`. -/
theorem split_eq (m : Trie.Node T) (lcpLen : ℕ) : Trie.TrieMap.split m lcpLen = (do
    let splitData ← Rust.sliceFrom m.pfx.bytes lcpLen
    let splitNode ← Trie.Node.new splitData
    let newData ← Rust.sliceTo m.takeVal.2.pfx.bytes lcpLen
    let newPrefix ← Prefix.new newData
    let given := (m.takeVal.2.setPfx newPrefix).transferChildren (setSome splitNode m.takeVal.1)
    let splitNodeByte ← given.2.pfx.firstByte
    given.1.insertChild (childPosFromByte splitNodeByte) given.2) := rfl

/-- **A split** keeps what the node owned, shared out between it and the new one, which has a
block of its own besides. -/
theorem settles_split (h : n.Models m) (lcpLen : ℕ) :
    Settles (split n lcpLen) n.holding (Raw.lift (Trie.TrieMap.split m lcpLen)) holding Models := by
  rw [split, split_eq, ← h.erase, pfx_erase, Raw.lift_bind]
  refine Settles.lift_bind fun splitData _ => ?_
  rw [Raw.lift_bind]
  refine Settles.bind (zero_add _).symm (settles_new splitData) fun s s' hnew hs => ?_
  have hcounted : s'.Counted := by
    rw [Trie.Node.new] at hnew
    cases hpfx : Prefix.new splitData with
    | error e => rw [hpfx] at hnew; cases hnew
    | ok p =>
      rw [hpfx] at hnew
      obtain rfl := Except.ok.inj hnew
      exact Counted.of_children_eq_nil trivial rfl
  -- the value moves to the new node
  refine Settles.bindLeft (add_comm _ _) (settles_takeVal ⟨h.tagged, rfl⟩) ?_
  rintro ⟨v, n'⟩ ⟨rfl, hn', -⟩
  refine Settles.bindLeft (add_right_comm _ n'.holding _) (settles_setSome hs _) fun t ht => ?_
  replace hn' : n'.Models n.erase.takeVal.2 := hn'
  rw [show n.erase.takeVal.2.pfx = n'.pfx by rw [← hn'.erase, pfx_erase], Raw.lift_bind]
  refine Settles.lift_bind fun newData _ => ?_
  rw [Raw.lift_bind]
  refine Settles.lift_bind fun newPrefix _ => ?_
  -- and so do the children; then it becomes the only child
  have hgiven : t.holding + n'.holding = (n'.setPfx newPrefix).holding + t.holding + 0 := by
    rw [holding_setPfx, add_zero, add_comm]
  refine Settles.bindLeft hgiven (settles_transferChildren (hn'.setPfx newPrefix) ht
    (counted_setSome hcounted _)) ?_
  rintro ⟨n'', t'⟩ ⟨hn'', ht'⟩
  dsimp only at hn'' ht' ⊢
  rw [Raw.lift_bind, ← ht'.erase, pfx_erase, add_zero, add_comm]
  refine Settles.lift_bind fun b _ => ?_
  exact settles_insertChild hn'' ⟨ht'.tagged, rfl⟩ (Counted.transferChildren _ _) _

/-! ## The loop

The value is owned besides the tree until it is in it, and goes down with the walk. -/

/-- **A turn of the loop of `insert`**, from the node on that is there after a split. -/
theorem settles_insertTurn {val : T} {fuel room : ℕ} {data : Bytes}
    (ih : ∀ {n : Node T} {m : Trie.Node T} {room : ℕ} {data : Bytes}, n.Models m → Wf room m →
      Settles (insertLoop fuel n data val) (Holding.value val + n.holding)
        (Raw.lift (Trie.TrieMap.insertLoop fuel m data val)) holding Models)
    (h : n.Models m) (hwf : Wf room m) (lcpLen : ℕ) :
    Settles (if lcpLen = data.length then n.setVal val else do
        let curData ← Own.lift (Rust.sliceFrom data lcpLen)
        let byte ← Own.lift (Rust.index curData 0)
        if n.childExists (childPosFromByte byte) then do
          let child ← Own.lift (Rust.unwrap (n.getChildByPos (childPosFromByte byte)))
          let child ← insertLoop fuel child curData val
          return n.setChildByPos (childPosFromByte byte) child
        else do
          let newChild ← Node.new curData
          let newChild ← newChild.setVal val
          n.insertChild (childPosFromByte byte) newChild)
      (Holding.value val + n.holding)
      (Raw.lift (if lcpLen = data.length then .ok (m.setVal val) else do
        let curData ← Rust.sliceFrom data lcpLen
        let byte ← Rust.index curData 0
        if m.childExists (childPosFromByte byte) then do
          let child ← Rust.unwrap (m.getChildByPos (childPosFromByte byte))
          let child ← Trie.TrieMap.insertLoop fuel child curData val
          .ok (m.setChildByPos (childPosFromByte byte) child)
        else do
          let newChild ← Trie.Node.new curData
          m.insertChild (childPosFromByte byte) (newChild.setVal val))) holding Models := by
  have hexists : ∀ pos, m.childExists pos = n.childExists pos := fun pos => by
    rw [← h.erase, childExists_erase]
  split_ifs
  · exact settles_setVal h val
  rw [Raw.lift_bind]
  refine Settles.lift_bind fun curData _ => ?_
  rw [Raw.lift_bind]
  refine Settles.lift_bind fun byte _ => ?_
  rw [hexists]
  split_ifs
  · -- the way goes on to a child
    refine settles_unwrap (h.getChildByPos _) fun c k hc _ hk => ?_
    have hmem := (h.child (mem_children_of_getChildByPos hc)).2
    obtain ⟨-, hheld, -⟩ := holding_setChildByPos hc c
    have hgiven : Holding.value val + n.holding
        = Holding.value val + c.holding + n.holdingBut (childPosFromByte byte) := by
      rw [hheld, add_assoc]
    obtain rfl := hk.erase
    rw [Raw.lift_bind]
    refine Settles.bind hgiven (ih hk (hwf.child hmem)) fun c' k' _ hk' => ?_
    obtain ⟨hheld', -, -⟩ := holding_setChildByPos hc c'
    refine Settles.ret hheld'.symm ⟨h.tagged.setChildByPos _ hk'.tagged, ?_⟩
    rw [setChildByPos_erase, h.erase, hk'.erase]
  · -- a new leaf
    rw [Raw.lift_bind]
    refine Settles.bind (zero_add _).symm (settles_new curData) fun c k hnew hc => ?_
    have hgiven : c.holding + (Holding.value val + n.holding)
        = Holding.value val + c.holding + n.holding := by
      rw [add_left_comm, add_assoc]
    refine Settles.bindLeft hgiven (settles_setVal hc val) fun c' hc' => ?_
    exact settles_insertChild h hc' (Counted.of_wf hwf) _

/-- **The loop of `insert`** moves the value into the tree. -/
theorem settles_insertLoop (val : T) {fuel room : ℕ} {data : Bytes} (h : n.Models m)
    (hwf : Wf room m) :
    Settles (insertLoop fuel n data val) (Holding.value val + n.holding)
      (Raw.lift (Trie.TrieMap.insertLoop fuel m data val)) holding Models := by
  induction fuel generalizing n m room data with
  | zero => exact fun l _ _ _ => rfl
  | succ fuel ih =>
    have hpfx : m.pfx = n.pfx := by rw [← h.erase, pfx_erase]
    rw [insertLoop, Trie.TrieMap.insertLoop, hpfx]
    dsimp only
    by_cases hlt : Util.lcp n.pfx.bytes data < n.pfx.len
    · rw [if_pos hlt, if_pos hlt, Raw.lift_bind]
      refine Settles.bind (add_comm _ _) (settles_split h _) fun n' m' hsplit hn' => ?_
      rw [add_comm]
      have hm : lcpLen m.pfx.bytes data < m.pfx.bytes.length := by
        rw [← Util.lcp_eq_lcpLen, hpfx]
        exact hlt
      rw [← hpfx, Util.lcp_eq_lcpLen] at hsplit
      obtain ⟨s, hinto⟩ := (Trie.TrieMap.split_spec hwf hm).of_eq_ok (Raw.lift_eq_ok.mp hsplit)
      exact settles_insertTurn ih hn' (hinto.wf hwf hm) _
    · rw [if_neg hlt, if_neg hlt]
      exact settles_insertTurn ih h hwf _

/-! ## The call -/

/-- **A map stands for a map without blocks.** -/
def Models (m : TrieMap T) (m' : Trie.TrieMap T) : Prop := Option.Rel Node.Models m.root m'.root

/-- **What a map owns.** -/
def holding (m : TrieMap T) : Holding T := Holding.option Node.holding m.root

/-- **`insert`** takes the value over, or drops it when the key is empty. -/
theorem settles_insert {room : ℕ} {m : TrieMap T} {m' : Trie.TrieMap T} (h : m.Models m')
    (hvalid : m'.Valid room) (key : Bytes) (val : T) :
    Settles (m.insert key val) (Holding.value val + m.holding) (Raw.lift (m'.insert key val))
      holding Models := by
  unfold insert Trie.TrieMap.insert
  split_ifs
  · refine Settles.bindLeft rfl (Settles.dispose val) fun _ _ => Settles.ret (zero_add _) h
  obtain ⟨root⟩ := m
  obtain ⟨root'⟩ := m'
  cases h with
  | none =>
    dsimp only
    rw [Raw.lift_bind]
    refine Settles.bind (zero_add _).symm (settles_new key) fun n k _ hn => ?_
    have hgiven : n.holding + (Holding.value val + 0) = Holding.value val + n.holding + 0 := by
      abel
    refine Settles.bindLeft hgiven (settles_setVal hn val) fun n' hn' => ?_
    exact Settles.ret (add_zero _) (.some hn')
  | some hroot =>
    dsimp only
    rw [Raw.lift_bind]
    refine Settles.bind (add_zero _).symm (settles_insertLoop val hroot (hvalid.wf _ rfl))
      fun n k _ hn => ?_
    exact Settles.ret (add_zero _) (.some hn)

end TrieMap

end Owned

end Trie
