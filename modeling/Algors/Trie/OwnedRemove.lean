import Algors.Trie.OwnedInsert
import Algors.Trie.Remove

/-!
# Removal, and what is owned

A removal holds the way it went as pointers to nodes that own one another. `Walked`
says of nodes with blocks that they are such a way, and `visitedHolding` is what they
own apart from it, so that a node at the end of the way may be changed with the rest
handed past. With this `remove` and `remove_prefix` settle with the operations on
nodes without blocks.

Three things are followed at once, and `Settles` has a place for each. What is owned
before a call is owned after it, in what the call leaves and returns, or was ended on
the way. What the call returns is what the call without blocks returns. And it stops
only where that one does. What is known of trees without blocks, that a node with one
child has one to merge with, that a path leads to where it says, is used through the
erasure and never proved again.
-/

namespace Trie

namespace Owned

variable {T : Type}

open Trie.Node (Wf Counted Dead)

namespace TrieMap

open Owned.Node

variable {n cur : Node T} {m : Trie.Node T}

/-! ## The way back

A way is a list of nodes with the positions that were taken, the last one first. Each
node on it still has its old child at that position; putting the changed child there
ends nothing and copies nothing, since the old child is what the walk has gone on with. -/

/-- The nodes passed, without their blocks. -/
def eraseVisited (visited : Visited T) : Trie.Visited T := visited.map fun p => (p.1.erase, p.2)

/-- What the nodes on a path own apart from the path. -/
def visitedHolding : Visited T → Holding T
  | [] => 0
  | (n, pos) :: rest => n.holdingBut pos + visitedHolding rest

/-- **The way from a root to a node.** -/
inductive Walked (root : Node T) : Node T → Visited T → Prop
  | root : Walked root root []
  | child {n c : Node T} {visited : Visited T} {pos : ChildPos} (h : Walked root n visited)
      (hc : n.getChildByPos pos = some c) : Walked root c ((n, pos) :: visited)

namespace Walked

variable {root : Node T} {visited : Visited T}

/-- The root owns what the node at the end owns, and what the nodes on the way do. -/
theorem holding (h : Walked root n visited) :
    root.holding = n.holding + visitedHolding visited := by
  induction h with
  | root => exact (add_zero _).symm
  | child _ hc ih =>
    obtain ⟨-, hheld, -⟩ := holding_setChildByPos hc n
    rw [ih, hheld, visitedHolding, add_assoc]

/-- A node that a walk reaches has the blocks it is to have. -/
theorem tagged (h : Walked root n visited) (hroot : root.Tagged) : n.Tagged := by
  induction h with
  | root => exact hroot
  | child _ hc ih => exact ih.child (mem_children_of_getChildByPos hc)

/-- **Bringing a path up to date** keeps what the node at its end and the nodes on it own,
and is the same without blocks. -/
theorem plug (h : Walked root n visited) (hroot : root.Tagged) (hn : cur.Models m) :
    (plug cur visited).holding = cur.holding + visitedHolding visited
      ∧ (TrieMap.plug cur visited).Models (Trie.TrieMap.plug m (eraseVisited visited)) := by
  induction h generalizing cur m with
  | root => exact ⟨(add_zero _).symm, hn⟩
  | @child n c visited pos h hc ih =>
    obtain ⟨hheld, -, -⟩ := holding_setChildByPos hc cur
    have hn' : (n.setChildByPos pos cur).Models (n.erase.setChildByPos pos m) :=
      ⟨(h.tagged hroot).setChildByPos pos hn.tagged, by rw [setChildByPos_erase, hn.erase]⟩
    obtain ⟨hplug, hmodels⟩ := ih hn'
    exact ⟨by rw [TrieMap.plug, hplug, hheld, visitedHolding, add_assoc], hmodels⟩

end Walked

variable [Target]

/-! ## Merging

Of the two nodes that are merged one goes out of scope, and it has given everything but
its own blocks away by then: its children, its value, and its prefix, which is copied
into the joint one. -/

/-- Merging with a single child, with the value moved by `setSome`. -/
theorem mergeChild_eq (m : Trie.Node T) : Trie.TrieMap.mergeChild m = (do
    let pos ← m.childPosFromIdx 0
    let child ← Rust.unwrap (m.removeChild pos).1
    let newPrefix ← Prefix.fromSlices [(m.removeChild pos).2.pfx.bytes, child.pfx.bytes]
    let given := child.transferChildren ((m.removeChild pos).2.setPfx newPrefix)
    .ok (setSome given.2 given.1.takeVal.1)) := rfl

omit [Target] in
/-- What is left of a node without its single child. -/
theorem removeChild_single {room : ℕ} {c : Trie.Node T} (hwf : Wf room m)
    (hcs : m.children = [c]) {pos : ChildPos} (hpos : m.childPosFromIdx 0 = .ok pos) :
    (m.removeChild pos).1 = some c ∧ (m.removeChild pos).2.Counted
      ∧ (m.removeChild pos).2.pfx = m.pfx := by
  have hc : c ∈ m.children := by simp [hcs]
  obtain ⟨b, bs, hb⟩ := List.exists_cons_of_ne_nil (hwf.agrees.nonempty hc)
  rw [hwf.agrees.childPosFromIdx_zero hcs hb] at hpos
  obtain rfl := Except.ok.inj hpos
  obtain ⟨hrem, hag, hlen, -⟩ := hwf.agrees.removeChild hc (Trie.Node.key_eq_of_pfx hb)
  rw [hcs, List.length_singleton] at hlen
  refine ⟨hrem, Counted.of_children_eq_nil hag (List.length_eq_zero_iff.mp (by omega)), ?_⟩
  rw [Trie.Node.pfx, Trie.Node.header_removeChild, Trie.Node.pfx]

/-- **Merging** keeps what the two nodes owned, but for the block of the child, which is
freed. -/
theorem settles_mergeChild {room : ℕ} {c : Trie.Node T} (h : n.Models m) (hwf : Wf room m)
    (hcs : m.children = [c]) :
    Settles (mergeChild n) n.holding (Raw.lift (Trie.TrieMap.mergeChild m)) Node.holding
      Node.Models := by
  rw [mergeChild, mergeChild_eq, ← childPosFromIdx_erase, h.erase, Raw.lift_bind]
  refine Settles.lift_bind fun pos hpos => ?_
  obtain ⟨hrem, hcounted, -⟩ := removeChild_single hwf hcs (Raw.lift_eq_ok.mp hpos)
  refine Settles.andThen (settles_removeChild h (Counted.of_wf hwf) pos) ?_
  rintro ⟨o, p⟩ ⟨ho, hp⟩
  dsimp only at ho hp ⊢
  refine settles_unwrap ho fun x x' hx hx' hmodels => ?_
  -- the joint prefix is the same on both sides
  have hbytes : [(m.removeChild pos).2.pfx.bytes, x'.pfx.bytes] = [p.pfx.bytes, x.pfx.bytes] := by
    rw [← hp.erase, pfx_erase, ← hmodels.erase, pfx_erase]
  rw [hbytes, Raw.lift_bind, hx]
  refine Settles.lift_bind fun newPrefix _ => ?_
  have hgiven : Holding.option Node.holding (some x) + p.holding
      = x.holding + (p.setPfx newPrefix).holding := by
    rw [holding_setPfx]
    rfl
  rw [hgiven]
  -- the child gives away its children, then its value
  refine Settles.andThen (settles_transferChildren hmodels (hp.setPfx newPrefix)
    (hcounted.setHeader _)) ?_
  rintro ⟨x₁, p₁⟩ ⟨hx₁, hp₁⟩
  dsimp only at hx₁ hp₁ ⊢
  refine Settles.bindLeft rfl (settles_takeVal hx₁) ?_
  rintro ⟨v, x₂⟩ ⟨rfl, hx₂, -⟩
  dsimp only at hx₂ ⊢
  refine Settles.bindLeft (add_right_comm _ x₂.holding _) (settles_setSome hp₁ _) fun p₂ hp₂ => ?_
  -- and ends, with no child that would have to end before
  have hends : x₂.EndsOf := by
    refine hx₂.tagged.ends ?_
    rw [hx₂.erase]
    exact (Counted.transferChildren _ _).setHeader _
  exact Settles.bindLeft (add_comm _ _) hends fun _ _ => Settles.ret (zero_add _) hp₂

/-! ## The loop of `compress`

A turn puts the changed child back, ends it if it is empty, and merges what is left with
its only child if there is just one. Up the way this goes on by induction, with `Pruned`
for what the tree without blocks has become below. -/

omit [Target] in
/-- What is removed from a node was one of its children. -/
theorem mem_children_of_removeChild {x : Trie.Node T} {pos : ChildPos}
    (h : (m.removeChild pos).1 = some x) : x ∈ m.children := by
  cases m with
  | leaf hdr => cases h
  | internal hdr bitmap cs =>
    rw [Trie.Node.removeChild, BoundedRawVec.remove] at h
    split_ifs at h
    exact List.mem_of_getElem? h

omit [Target] in
/-- **Removing a child and dropping it**: what comes after has the node without the child,
and the child is ended with all it owned. -/
theorem settles_removeChild_drop (h : n.Models m) (hcounted : m.Counted) (pos : ChildPos)
    (rest : Holding T) {γ δ : Type} {f : Node T → Own T γ} {q : Raw δ} {own : γ → Holding T}
    {S : γ → δ → Prop}
    (hf : ∀ p, p.Models (m.removeChild pos).2 → Settles (f p) (p.holding + rest) q own S) :
    Settles (do
      let (removed, p) ← n.removeChild pos
      Node.dropOption removed
      f p) (n.holding + rest) q own S := by
  refine Settles.bindLeft rfl (settles_removeChild h hcounted pos) ?_
  rintro ⟨o, p⟩ ⟨ho, hp⟩
  dsimp only at ho hp ⊢
  refine Settles.bindLeft (add_assoc _ _ _) (settles_dropOption fun x hx => ?_) fun _ _ => ?_
  · subst hx
    cases hrem : (m.removeChild pos).1 with
    | none => rw [hrem] at ho; cases ho
    | some x' =>
      rw [hrem] at ho
      cases ho with
      | some hx =>
        refine hx.tagged.ends ?_
        rw [hx.erase]
        exact hcounted.child (mem_children_of_removeChild hrem)
  · rw [zero_add]
    exact hf p hp

/-- **A turn of the loop of `compress`** is given the changed child and the node without the
old one. -/
theorem settles_compressParent {room : ℕ} {c : Trie.Node T} {b : UInt8} {P : Bytes → Prop}
    {n old : Node T} (hn : n.Tagged) (hold : n.getChildByPos (childPosFromByte b) = some old)
    (hcur : cur.Models m) (hwf : Wf room n.erase) (hc : c ∈ n.erase.children)
    (hkey : c.key = b.toNat) (hP : ∀ t, P t → c.pfx.bytes <+: t)
    (h : Pruned (room - n.erase.pfx.bytes.length) c m P) :
    Settles (compressParent cur n (childPosFromByte b))
      (cur.holding + n.holdingBut (childPosFromByte b))
      (Raw.lift (Trie.TrieMap.compressParent m n.erase (childPosFromByte b)))
      (fun r => r.1.holding) fun r r' => r.1.Models r'.1 ∧ r.2 = r'.2 := by
  obtain ⟨hheld, -, hget⟩ := holding_setChildByPos hold cur
  have hset : (n.setChildByPos (childPosFromByte b) cur).Models
      (n.erase.setChildByPos (childPosFromByte b) m) :=
    ⟨hn.setChildByPos _ hcur.tagged, by rw [setChildByPos_erase, hcur.erase]⟩
  have hcounted := Counted.of_wf (Pruned.setChildByPos hwf hc hkey hP h).wf
  obtain ⟨-, hpruned, -, -, -⟩ := Trie.TrieMap.dropIfDead_spec hwf hc hkey hP h rfl
  -- the node after the first half of the turn
  have hempty : Settles (removeEmpty (n.setChildByPos (childPosFromByte b) cur)
      (childPosFromByte b) cur) (n.setChildByPos (childPosFromByte b) cur).holding
      (.ok (Trie.TrieMap.dropIfDead m n.erase (childPosFromByte b))) Node.holding Node.Models := by
    unfold removeEmpty Trie.TrieMap.dropIfDead
    rw [← lenChildren_erase, hcur.erase, ← hcur.tagged.hasVal_erase, hcur.erase]
    dsimp only
    split_ifs
    · rw [← add_zero (Node.holding _)]
      exact settles_removeChild_drop hset hcounted _ 0 fun p hp => Settles.ret (add_zero _) hp
    · exact Settles.ret rfl hset
  -- the second half, where both sides ask the same of it
  rw [compressParent, Trie.TrieMap.compressParent_eq hwf hc hkey h, ← hheld]
  dsimp only
  rw [hget, Rust.unwrap_some, Own.lift_ok_bind]
  refine Settles.andThen hempty fun p hp => ?_
  rw [← lenChildren_erase, hp.erase, ← hp.tagged.hasVal_erase, hp.erase]
  split_ifs with hone
  · obtain ⟨hone, hnone⟩ := hone
    rw [hpruned.wf.agrees.lenChildren_eq] at hone
    obtain ⟨x, hx⟩ := List.length_eq_one_iff.mp hone
    rw [Raw.lift_bind]
    refine Settles.bind (add_zero _).symm (settles_mergeChild hp hpruned.wf hx) fun q q' _ hq => ?_
    exact Settles.ret (add_zero _) ⟨hq, rfl⟩
  · exact Settles.ret rfl ⟨hp, rfl⟩

omit [Target] in
/-- The last step of a way. -/
theorem path_cons {root n c : Trie.Node T} {visited : Trie.Visited T} {pos : ChildPos} {k : Bytes}
    (h : Path root c ((n, pos) :: visited) k) :
    ∃ k' b, pos = childPosFromByte b ∧ Path root n visited k' ∧ c ∈ n.children
      ∧ c.key = b.toNat ∧ k = k' ++ n.pfx.bytes := by
  cases h with
  | child h hc hkey => exact ⟨_, _, rfl, h, hc, hkey, rfl⟩

/-- **The loop of `compress`**, up the way; where it stops early, the nodes above are brought
up to date. -/
theorem settles_compressLoop {room : ℕ} {root n : Node T} {visited : Visited T} {k : Bytes}
    (hwalk : Walked root n visited) (hroot : root.Tagged) (hwf : Wf room root.erase)
    (hpath : Path root.erase n.erase (eraseVisited visited) k) {P : Bytes → Prop}
    (hcur : cur.Models m) (hP : ∀ t, P t → n.erase.pfx.bytes <+: t)
    (h : Pruned (room - k.length) n.erase m P) :
    Settles (compressLoop cur visited) (cur.holding + visitedHolding visited)
      (Raw.lift (Trie.TrieMap.compressLoop m (eraseVisited visited))) Node.holding Node.Models := by
  induction hwalk generalizing cur m P k with
  | root => exact Settles.ret (add_zero _) hcur
  | @child n c visited pos hwalk hc ih =>
    obtain ⟨k, b, rfl, hup, hmem, hkey, rfl⟩ := path_cons hpath
    rw [List.length_append, ← Nat.sub_sub] at h
    have hP' : ∀ t, Past n.erase.pfx.bytes P t → n.erase.pfx.bytes <+: t :=
      fun t ⟨u, hu, _⟩ => ⟨u, hu.symm⟩
    have hparent := settles_compressParent (hwalk.tagged hroot) hc hcur (hup.wf hwf) hmem
      hkey hP h
    have hspec := Trie.TrieMap.compressParent_spec (hup.wf hwf) hmem hkey hP h
    show Settles _ _ (Raw.lift (Trie.TrieMap.compressLoop m
      ((n.erase, childPosFromByte b) :: eraseVisited visited))) _ _
    rw [compressLoop, Trie.TrieMap.compressLoop, visitedHolding, ← add_assoc, Raw.lift_bind]
    refine Settles.bind rfl hparent ?_
    rintro ⟨p, goOn⟩ ⟨p', goOn'⟩ hok ⟨hp, rfl⟩
    obtain ⟨hpruned, -⟩ := hspec.of_eq_ok (Raw.lift_eq_ok.mp hok)
    cases goOn with
    | true => exact ih hup hp hP' hpruned
    | false =>
      -- the nodes above keep what they own
      obtain ⟨hheld, hmodels⟩ := hwalk.plug hroot hp
      exact Settles.ret hheld.symm hmodels

/-- **The end of `compress`** ends a root that is not needed any more. -/
theorem settles_compressRoot {room : ℕ} (h : n.Models m) (hwf : Wf room m) :
    Settles (compressRoot n) n.holding (Raw.lift (Trie.TrieMap.compressRoot m))
      (Holding.option Node.holding) (Option.Rel Node.Models) := by
  unfold compressRoot Trie.TrieMap.compressRoot
  rw [← lenChildren_erase, ← h.tagged.hasVal_erase, h.erase]
  split_ifs with hval hzero hone
  · exact Settles.ret rfl (.some h)
  · refine Settles.andThen (h.tagged.ends ?_) fun _ _ => Settles.ret rfl .none
    rw [h.erase]
    exact Counted.of_wf hwf
  · rw [hwf.agrees.lenChildren_eq] at hone
    obtain ⟨c, hcs⟩ := List.length_eq_one_iff.mp hone
    rw [← childPosFromIdx_erase, h.erase, Raw.lift_bind]
    refine Settles.lift_bind fun pos hpos => ?_
    obtain ⟨-, hcounted, -⟩ := removeChild_single hwf hcs (Raw.lift_eq_ok.mp hpos)
    refine Settles.andThen (settles_removeChild h (Counted.of_wf hwf) pos) ?_
    rintro ⟨o, p⟩ ⟨ho, hp⟩
    dsimp only at ho hp ⊢
    refine settles_unwrap ho fun x x' hx _ hmodels => ?_
    have hbytes : [(m.removeChild pos).2.pfx.bytes, x'.pfx.bytes]
        = [p.pfx.bytes, x.pfx.bytes] := by
      rw [← hp.erase, pfx_erase, ← hmodels.erase, pfx_erase]
    rw [hbytes, Raw.lift_bind, hx]
    refine Settles.lift_bind fun newPrefix _ => ?_
    have hends : p.EndsOf := hp.tagged.ends (by rw [hp.erase]; exact hcounted)
    refine Settles.bindLeft (add_comm _ _) hends fun _ _ => Settles.ret ?_
      (.some (hmodels.setPfx newPrefix))
    rw [zero_add]
    exact (holding_setPfx x newPrefix).symm
  · exact Settles.ret rfl (.some h)

/-- **`compress`** settles with the same on nodes without blocks. -/
theorem settles_compress {room : ℕ} {root n : Node T} {visited : Visited T} {k : Bytes}
    (hwalk : Walked root n visited) (hroot : root.Tagged) (hwf : Wf room root.erase)
    (hpath : Path root.erase n.erase (eraseVisited visited) k) {P : Bytes → Prop}
    (hcur : cur.Models m) (hP : ∀ t, P t → n.erase.pfx.bytes <+: t)
    (h : Pruned (room - k.length) n.erase m P) :
    Settles (compress cur visited) (cur.holding + visitedHolding visited)
      (Raw.lift (Trie.TrieMap.compress m (eraseVisited visited))) (Holding.option Node.holding)
      (Option.Rel Node.Models) := by
  rw [compress, Trie.TrieMap.compress, Raw.lift_bind]
  refine Settles.bind (add_zero _).symm (settles_compressLoop hwalk hroot hwf hpath hcur hP h)
    fun p p' hok hp => ?_
  obtain ⟨hpruned, -⟩ :=
    (Trie.TrieMap.compressLoop_spec hpath hwf hP h).of_eq_ok (Raw.lift_eq_ok.mp hok)
  rw [add_zero]
  exact settles_compressRoot hp hpruned.wf

/-! ## The walks

A walk down ends nothing and allocates nothing, so it need not settle: it finds the same
as without blocks, and what it finds is at the end of a way. Both walks go down alike,
`goDown`, and differ in when they stop. -/

/-- What a walk found, without blocks. -/
def eraseFound (found : Option (Node T × Visited T)) : Option (Trie.Node T × Trie.Visited T) :=
  found.map fun r => (r.1.erase, eraseVisited r.2)

section Walks

/-- The end of a turn of a walk, which goes on at a child or finds nothing. -/
def goDown {N : Type} (childExists : ChildPos → Bool) (getChildByPos : ChildPos → Option N)
    (curData : Bytes) (lcpLen : ℕ)
    (loop : N → Bytes → ChildPos → Rust (Option (N × List (N × ChildPos)))) :
    Rust (Option (N × List (N × ChildPos))) := do
  let curData ← Rust.sliceFrom curData lcpLen
  let byte ← Rust.index curData 0
  let nextPos := childPosFromByte byte
  if childExists nextPos then do
    let child ← Rust.unwrap (getChildByPos nextPos)
    loop child curData nextPos
  else .ok none

omit [Target] in
/-- Going down finds what it finds without blocks, if the rest of the walk does. -/
theorem goDown_erase (n : Node T) (data : Bytes) (lcpLen : ℕ)
    {f : Node T → Bytes → ChildPos → Rust (Option (Node T × Visited T))}
    {g : Trie.Node T → Bytes → ChildPos → Rust (Option (Trie.Node T × Trie.Visited T))}
    (h : ∀ c data pos, g c.erase data pos = (f c data pos).map eraseFound) :
    goDown n.erase.childExists n.erase.getChildByPos data lcpLen g
      = (goDown n.childExists n.getChildByPos data lcpLen f).map eraseFound := by
  unfold goDown
  cases Rust.sliceFrom data lcpLen with
  | error e => rfl
  | ok rest =>
    rw [Rust.ok_bind, Rust.ok_bind]
    cases Rust.index rest 0 with
    | error e => rfl
    | ok b =>
      rw [Rust.ok_bind, Rust.ok_bind]
      dsimp only
      rw [childExists_erase, getChildByPos_erase]
      split_ifs
      · cases n.getChildByPos (childPosFromByte b) with
        | none => rfl
        | some c => exact h c rest (childPosFromByte b)
      · rfl

omit [Target] in
/-- What is found was found from a child on. -/
theorem goDown_found {n c : Node T} {data : Bytes} {lcpLen : ℕ} {rest : Visited T}
    {f : Node T → Bytes → ChildPos → Rust (Option (Node T × Visited T))}
    (h : goDown n.childExists n.getChildByPos data lcpLen f = .ok (some (c, rest))) :
    ∃ child data' pos, n.getChildByPos pos = some child
      ∧ f child data' pos = .ok (some (c, rest)) := by
  obtain ⟨data', -, h⟩ := Rust.bind_eq_ok.mp h
  obtain ⟨b, -, h⟩ := Rust.bind_eq_ok.mp h
  dsimp only at h
  split_ifs at h
  · obtain ⟨child, hc, h⟩ := Rust.bind_eq_ok.mp h
    exact ⟨child, data', _, Rust.unwrap_eq_ok.mp hc, h⟩
  · cases h

/-- **The walk of `remove`** is the one without blocks. -/
theorem removeLoop_erase (fuel : ℕ) (n : Node T) (data : Bytes) (visited : Visited T) :
    Trie.TrieMap.removeLoop fuel n.erase data (eraseVisited visited)
      = (removeLoop fuel n data visited).map eraseFound := by
  induction fuel generalizing n data visited with
  | zero => rfl
  | succ fuel ih =>
    rw [removeLoop, Trie.TrieMap.removeLoop, pfx_erase]
    dsimp only
    split_ifs
    · rfl
    · rfl
    · exact goDown_erase n data _
        (f := fun c rest pos => removeLoop fuel c rest ((n, pos) :: visited))
        (g := fun c rest pos =>
          Trie.TrieMap.removeLoop fuel c rest ((n.erase, pos) :: eraseVisited visited))
        fun c rest pos => ih c rest ((n, pos) :: visited)

/-- And goes along a way. -/
theorem removeLoop_walked {fuel : ℕ} {root n c : Node T} {data : Bytes} {visited rest : Visited T}
    (hwalk : Walked root n visited) (h : removeLoop fuel n data visited = .ok (some (c, rest))) :
    Walked root c rest := by
  induction fuel generalizing n data visited with
  | zero => cases h
  | succ fuel ih =>
    rw [removeLoop] at h
    dsimp only at h
    split_ifs at h
    · cases h
    · obtain ⟨rfl, rfl⟩ := Prod.mk.inj (Option.some.inj (Except.ok.inj h))
      exact hwalk
    · obtain ⟨child, data', pos, hc, h⟩ := goDown_found
        (f := fun c rest pos => removeLoop fuel c rest ((n, pos) :: visited)) h
      exact ih (hwalk.child hc) h

/-- **The walk of `remove_prefix`** is the one without blocks. -/
theorem removePrefixLoop_erase (fuel : ℕ) (n : Node T) (data : Bytes) (visited : Visited T) :
    Trie.TrieMap.removePrefixLoop fuel n.erase data (eraseVisited visited)
      = (removePrefixLoop fuel n data visited).map eraseFound := by
  induction fuel generalizing n data visited with
  | zero => rfl
  | succ fuel ih =>
    rw [removePrefixLoop, Trie.TrieMap.removePrefixLoop, pfx_erase]
    dsimp only
    split_ifs
    · rfl
    · rfl
    · exact goDown_erase n data _
        (f := fun c rest pos => removePrefixLoop fuel c rest ((n, pos) :: visited))
        (g := fun c rest pos =>
          Trie.TrieMap.removePrefixLoop fuel c rest ((n.erase, pos) :: eraseVisited visited))
        fun c rest pos => ih c rest ((n, pos) :: visited)

/-- And goes along a way. -/
theorem removePrefixLoop_walked {fuel : ℕ} {root n c : Node T} {data : Bytes}
    {visited rest : Visited T} (hwalk : Walked root n visited)
    (h : removePrefixLoop fuel n data visited = .ok (some (c, rest))) : Walked root c rest := by
  induction fuel generalizing n data visited with
  | zero => cases h
  | succ fuel ih =>
    rw [removePrefixLoop] at h
    dsimp only at h
    split_ifs at h
    · obtain ⟨rfl, rfl⟩ := Prod.mk.inj (Option.some.inj (Except.ok.inj h))
      exact hwalk
    · cases h
    · obtain ⟨child, data', pos, hc, h⟩ := goDown_found
        (f := fun c rest pos => removePrefixLoop fuel c rest ((n, pos) :: visited)) h
      exact ih (hwalk.child hc) h

/-! ## The calls

A call that finds nothing gives the map back as it was. Otherwise the walk has shown a
way, the node at its end is changed, and `compress` goes back along it. -/

variable {room : ℕ} {m : TrieMap T} {m' : Trie.TrieMap T}

omit [Target] in
/-- The end of a map. -/
theorem settles_dropRoot (h : m.Models m') (hvalid : m'.Valid room) :
    Settles (dropOption m.root) m.holding (.ok ()) (fun _ => 0) fun _ (_ : Unit) => True := by
  refine settles_dropOption fun n hn => ?_
  obtain ⟨root⟩ := m
  obtain ⟨root'⟩ := m'
  cases h with
  | none => cases hn
  | some hroot =>
    obtain rfl := Option.some.inj hn
    refine hroot.tagged.ends ?_
    rw [hroot.erase]
    exact Counted.of_wf (hvalid.wf _ rfl)

/-- **`remove`** hands the value over that it takes out, and neither ends nor copies a
value. -/
theorem settles_remove (h : m.Models m') (hvalid : m'.Valid room) (key : Bytes) :
    Settles (m.remove key) m.holding (Raw.lift (m'.remove key))
      (fun r => Holding.option Holding.value r.1 + r.2.holding)
      fun r r' => r.1 = r'.1 ∧ r.2.Models r'.2 := by
  unfold remove Trie.TrieMap.remove
  split_ifs with hne
  · exact Settles.ret (zero_add _).symm ⟨rfl, h⟩
  obtain ⟨root⟩ := m
  obtain ⟨root'⟩ := m'
  cases h with
  | none => exact Settles.ret (zero_add _).symm ⟨rfl, .none⟩
  | @some root root' hroot =>
    obtain rfl := hroot.erase
    have hwf := hvalid.wf _ rfl
    have herase := removeLoop_erase (walkBound key) root key []
    have hspec := Trie.TrieMap.removeLoop_spec hwf Path.root (List.nil_append key).symm
      (enough_walkBound root.erase key) fun v => Iff.rfl
    dsimp only
    rw [show Trie.TrieMap.removeLoop (walkBound key) root.erase key [] = _ from herase] at hspec ⊢
    cases hloop : removeLoop (walkBound key) root key [] with
    | error e => exact fun l _ _ _ => rfl
    | ok found =>
      cases found with
      | none => exact Settles.ret (zero_add _).symm ⟨rfl, .some hroot⟩
      | some found =>
        obtain ⟨c, visited⟩ := found
        have hwalk := removeLoop_walked .root hloop
        rw [hloop] at hspec
        obtain ⟨k, hpath⟩ : ∃ k, Path root.erase c.erase (eraseVisited visited) k := by
          rcases hspec with ⟨hno, -⟩ | ⟨c', visited', k, hfound, hpath, -⟩
          · cases hno
          · obtain ⟨rfl, rfl⟩ := Prod.mk.inj (Option.some.inj (Except.ok.inj hfound))
            exact ⟨k, hpath⟩
        have hfound : (Except.map eraseFound (.ok (some (c, visited)))
            : Rust (Option (Trie.Node T × Trie.Visited T)))
            = .ok (some (c.erase, eraseVisited visited)) := rfl
        rw [Own.lift_ok_bind, hfound, Rust.ok_bind]
        dsimp only
        refine Settles.bindLeft hwalk.holding
          (settles_takeVal ⟨hwalk.tagged hroot.tagged, rfl⟩) ?_
        rintro ⟨v, n⟩ ⟨rfl, hn, hsame⟩
        dsimp only at hn hsame ⊢
        split_ifs with hnone
        · -- there was no value to take: the map is as it was
          rw [Option.isNone_iff_eq_none] at hnone
          refine Settles.ret ?_ ⟨rfl, .some hroot⟩
          rw [hsame hnone, add_assoc, ← hwalk.holding]
          rfl
        · rw [add_assoc, Raw.lift_bind]
          refine Settles.bind (add_comm _ _) (settles_compress hwalk hroot.tagged hwf hpath hn
            (by rintro _ rfl; exact List.prefix_rfl)
            (Trie.TrieMap.pruned_takeVal (hpath.wf hwf))) fun r r' _ hr => ?_
          exact Settles.ret (add_comm _ _) ⟨rfl, hr⟩

/-- **`remove_prefix`** ends what it takes out, the values included. -/
theorem settles_removePrefix (h : m.Models m') (hvalid : m'.Valid room) (key : Bytes) :
    Settles (m.removePrefix key) m.holding (Raw.lift (m'.removePrefix key)) holding Models := by
  unfold removePrefix Trie.TrieMap.removePrefix
  split_ifs with hne
  · exact Settles.andThen (settles_dropRoot h hvalid) fun _ _ => Settles.ret rfl .none
  have hend := settles_dropRoot h hvalid
  obtain ⟨root⟩ := m
  obtain ⟨root'⟩ := m'
  cases h with
  | none => exact Settles.ret rfl .none
  | @some root root' hroot =>
    obtain rfl := hroot.erase
    have hwf := hvalid.wf _ rfl
    have herase := removePrefixLoop_erase (walkBound key) root key []
    have hspec := Trie.TrieMap.removePrefixLoop_spec hwf Path.root (List.nil_append key).symm hne
      (enough_walkBound root.erase key) fun t v => Iff.rfl
    dsimp only
    rw [show Trie.TrieMap.removePrefixLoop (walkBound key) root.erase key [] = _ from herase]
      at hspec ⊢
    cases hloop : removePrefixLoop (walkBound key) root key [] with
    | error e => exact fun l _ _ _ => rfl
    | ok found =>
      cases found with
      | none => exact Settles.ret rfl (.some hroot)
      | some found =>
        obtain ⟨c, visited⟩ := found
        have hwalk := removePrefixLoop_walked .root hloop
        rw [hloop] at hspec
        obtain ⟨k, r, hpath, hr, hrpre⟩ : ∃ k r, Path root.erase c.erase (eraseVisited visited) k
            ∧ r ≠ [] ∧ r <+: c.erase.pfx.bytes := by
          rcases hspec with ⟨hno, -⟩ | ⟨c', visited', k, r, hfound, hpath, -, hr, hrpre⟩
          · cases hno
          · obtain ⟨rfl, rfl⟩ := Prod.mk.inj (Option.some.inj (Except.ok.inj hfound))
            exact ⟨k, r, hpath, hr, hrpre⟩
        have hfound : (Except.map eraseFound (.ok (some (c, visited)))
            : Rust (Option (Trie.Node T × Trie.Visited T)))
            = .ok (some (c.erase, eraseVisited visited)) := rfl
        rw [Own.lift_ok_bind, hfound, Rust.ok_bind]
        cases hwalk with
        | root => exact Settles.andThen hend fun _ _ => Settles.ret rfl .none
        | @child n _ visited pos hwalk hc =>
          -- the child is taken out of its parent, where `compress` then starts
          obtain ⟨k, b, rfl, hup, hmem, hkey, rfl⟩ := path_cons hpath
          have hgiven : (⟨some root⟩ : TrieMap T).holding = n.holding + visitedHolding visited :=
            hwalk.holding
          rw [hgiven]
          refine settles_removeChild_drop ⟨hwalk.tagged hroot.tagged, rfl⟩
            (Counted.of_wf (hup.wf hwf)) (childPosFromByte b) _
            (f := fun p => do
              let root ← compress p visited
              return (⟨root⟩ : TrieMap T)) fun p hp => ?_
          show Settles _ _ (Raw.lift (Trie.TrieMap.compress _ (eraseVisited visited) >>= _)) _ _
          rw [Raw.lift_bind]
          refine Settles.bind (add_zero _).symm (settles_compress hwalk hroot.tagged hwf hup hp
            (fun t ht => (List.prefix_append _ _).trans ht)
            (Trie.TrieMap.pruned_removeChild (hup.wf hwf) hmem hkey hr hrpre)) fun r r' _ hr => ?_
          exact Settles.ret (add_zero _) hr

omit [Target] in
/-- **`clear`** ends everything. -/
theorem settles_clear (h : m.Models m') (hvalid : m'.Valid room) :
    Settles m.clear m.holding (.ok m'.clear) holding Models :=
  Settles.andThen (settles_dropRoot h hvalid) fun _ _ => Settles.ret rfl .none

end Walks

end TrieMap

end Owned

end Trie
