import Algors.Trie.PlacedInsert
import Algors.Trie.PlacedLookup

/-!
# Removal in memory

`remove` and `remove_prefix` on words do what they do on nodes. A walk down finds a place, with
the spine of the places that it passed; `compress` comes back along it, and at each place the
node there owns what was left below. With these, and the lookups, every call on a map in
memory is one on a map of nodes.

The two sides are not written alike. On nodes, a walk hands down the list of the nodes it
passed, and `compress` puts the changed child into each of them and so builds a new tree. In
memory the list holds places, the nodes stay where they are, and each turn of `compress` loads
the node at a place, changes it and stores it again. What connects them is the
spine, which says of every place on the list which node is there and what it owns besides the
child on the way; so when a turn is done with the child, it has a whole node in its hands
again, whatever the child has become.

Order matters here as it does not on nodes: a child is dropped where the code drops it, and is
owned until then. The amounts that `abel` rearranges below are who owns what at such a moment.
-/

namespace Trie

namespace Placed

open Trie.Node (Wf Counted)

variable [Target] [PointerWidth] {T : Type} [NodeTypes T]

namespace TrieMap

variable {stops : Stop → Prop} {n c cur : Trie.Node T} {w : Node} {own : Held T}
  {A : Allocator T} {depth room : ℕ}

/-! ## Merging

A node with one child and no value gives its place to the child: it takes over the child's
children and value and the joint prefix, and what is left of the child goes out of scope. By
then the child has no children, so that dropping it recurses no further. -/

omit [Target] [PointerWidth] [NodeTypes T] in
/-- What has given its children away has none. -/
theorem children_transferChildren (n c : Trie.Node T) : (n.transferChildren c).1.children = [] := by
  cases n <;> rfl

omit [Target] [PointerWidth] [NodeTypes T] in
/-- What has lost its only child has none. -/
theorem children_removeChild_single {pos : ChildPos} (hcs : n.children = [c])
    (hrem : (n.removeChild pos).1 = some c) : (n.removeChild pos).2.children = [] := by
  cases n with
  | leaf hdr => rfl
  | internal hdr bitmap cs =>
    obtain rfl : cs = [c] := hcs
    rw [Trie.Node.removeChild, BoundedRawVec.remove] at hrem ⊢
    split_ifs at hrem ⊢
    obtain ⟨hidx, -⟩ := List.getElem?_eq_some_iff.mp hrem
    show [c].eraseIdx (bitmap.childIdx pos) = []
    rw [Nat.lt_one_iff.mp hidx]
    rfl

/-- **Merging** a node with its only child, which goes out of scope. The node that is stored
again owns the new prefix, the child's children and the child's value, and the child's own
blocks are given back. -/
theorem realizes_mergeChild (hA : A.Sound) (e : Hole) (h : NodeHolds n w own) (hwf : Wf room n)
    (hcs : n.children = [c]) :
    Realizes MayStop (mergeChild A (depth + 1) e.place) (e.hold w + own)
      (Trie.TrieMap.mergeChild n) fun _ n' kept => HoldsAt e n' kept := by
  have hcounted := Counted.of_wf hwf
  rw [mergeChild, Owned.TrieMap.mergeChild_eq]
  refine Realizes.lookLeft ((looks_load e w).more rfl) ?_
  refine Realizes.look (looks_childPosFromIdx h hcounted 0).moreLeft fun pos hpos => ?_
  obtain ⟨hrem, hcounted', -⟩ := Owned.TrieMap.removeChild_single hwf hcs hpos
  refine Realizes.bindLeft (add_comm _ _) (realizes_removeChild h hcounted pos) ?_
  rintro o _ ⟨own₁, oc, h₁, ho, rfl⟩
  rw [hrem] at ho ⊢
  have hnil := children_removeChild_single hcs hrem
  cases ho with
  | @some _ wc _ hc =>
    rw [Rust.unwrap_some, Rust.unwrap_some, Raw.lift_ok, lift_ok_bind, Rust.ok_bind]
    -- the joint prefix, a new block
    refine Realizes.lookLeft (((looks_prefixBytes h₁).more rfl).more rfl) ?_
    refine Realizes.lookLeft (((looks_prefixBytes hc).moreLeft).more rfl) ?_
    refine Realizes.bind (zero_add _).symm (realizes_fromSlices hA _) ?_
    rintro p pre op - ⟨hpre, hp⟩
    rw [← hpre] at hp
    have hgiven : op + (own₁ + oc + e.hold w) = own₁ + op + (oc + e.hold w) := by abel
    refine Realizes.bindLeft hgiven (realizes_setPfx h₁ hp) fun _ own₂ h₂ => ?_
    -- the children of the child, then its value
    have hgiven : own₂ + (oc + e.hold w) = oc + own₂ + e.hold w := by abel
    refine Realizes.bindLeft hgiven (realizes_transferChildren hA hc h₂ (hcounted'.setHeader _)
      (.of_children_eq_nil ((Trie.Node.children_setPfx _ _).trans hnil))) ?_
    rintro w₂ _ ⟨oc₁, own₃, hc₁, h₃, rfl⟩
    refine Realizes.bindLeft (add_assoc _ _ _) (realizes_takeVal hc₁) ?_
    rintro ⟨v, wc₂⟩ _ ⟨hv, oc₂, hc₂, rfl⟩
    dsimp only at hv hc₂ ⊢
    rw [← hv]
    have hgiven : oc₂ + valueOf v + (own₃ + e.hold w) = own₃ + valueOf v + (oc₂ + e.hold w) := by
      abel
    refine Realizes.bindLeft hgiven (realizes_setSome h₃ _) fun w₄ own₄ h₄ => ?_
    have hgiven : own₄ + (oc₂ + e.hold w) = e.hold w + (own₄ + oc₂) := by abel
    refine Realizes.bindLeft hgiven (realizes_store e w w₄) fun _ kept hkept => ?_
    have hgiven : kept + (own₄ + oc₂) = oc₂ + (e.hold w₄ + own₄) := by
      rw [hkept]
      abel
    -- the child goes out of scope, with nothing below it
    have hnil₂ := (Trie.Node.children_takeVal _).trans
      (children_transferChildren c ((n.removeChild pos).2.setPfx pre))
    refine Realizes.last hgiven (realizes_drop hc₂ ((Counted.transferChildren _ _).setHeader _)
      (.of_children_eq_nil hnil₂)) fun _ kept hkept => ?_
    rw [hkept, zero_add]
    exact ⟨w₄, own₄, h₄, rfl⟩

/-! ## A turn of `compress`

At a place on the way back, the child that the walk went to may be empty now, with neither
children nor a value: it is removed and dropped. If that leaves the node there with one child
and no value, the node is merged with it, and only then can the node above have become
unnecessary, too. So a turn says whether to go on. -/

/-- **The first half of a turn**: a child that is empty is removed and dropped. The child is
looked at where it is, as part of what the node owns. -/
theorem realizes_removeEmpty (e : Hole) (h : NodeHolds n w own) (hcounted : n.Counted)
    (hdepth : n.Shallow (depth + 1)) {pos : ChildPos} (hc : n.getChildByPos pos = some c) :
    Realizes stops (removeEmpty depth e.place pos : Prog T Unit) (e.hold w + own)
      (.ok (if c.lenChildren = 0 ∧ c.hasVal = false then (n.removeChild pos).2 else n) : Rust _)
      fun _ n' kept => ∃ own', NodeHolds n' w own' ∧ kept = e.hold w + own' := by
  obtain ⟨e', p, wc, oc, rest, hp, hown, hchild, hlook, -⟩ := h.childByPos hcounted hc
  rw [removeEmpty]
  refine Realizes.lookLeft ((looks_load e w).more rfl) ?_
  refine Realizes.lookLeft hlook.moreLeft ?_
  rw [Rust.unwrap_some, Raw.lift_ok, lift_ok_bind]
  have hload := looks_load (T := T) e' wc
  rw [hp] at hload
  have hgiven : e.hold w + own = e'.hold wc + (oc + (e.hold w + rest)) := by
    rw [hown]
    abel
  rw [hgiven]
  refine Realizes.lookLeft (hload.more rfl) ?_
  refine Realizes.lookLeft (((looks_lenChildren hchild).more rfl).moreLeft) ?_
  rw [hchild.hasVal_eq, ← hgiven]
  split_ifs
  · -- what was taken out of the array is dropped
    refine Realizes.bindLeft (add_comm _ _) (realizes_removeChild h hcounted pos) ?_
    rintro o _ ⟨own', oc', h', ho, rfl⟩
    have hgiven : own' + oc' + e.hold w = oc' + (e.hold w + own') := by abel
    obtain ⟨hdepth⟩ := hdepth
    refine Realizes.last hgiven (realizes_dropOption ho (fun x hx => ?_) fun x hx => ?_)
      fun _ kept hkept => ⟨own', h', by rw [hkept, zero_add]⟩
    · exact hcounted.child (Owned.TrieMap.mem_children_of_removeChild hx)
    · exact hdepth x (Owned.TrieMap.mem_children_of_removeChild hx)
  · exact Realizes.ret ⟨own, h, rfl⟩

open Trie (Path Pruned Past)

omit [Target] [PointerWidth] [NodeTypes T] in
/-- The child that was put at a position is found there. -/
theorem getChildByPos_setChildByPos {pos : ChildPos} (hc : n.getChildByPos pos = some c)
    (cur : Trie.Node T) : (n.setChildByPos pos cur).getChildByPos pos = some cur := by
  cases n with
  | leaf hdr => cases hc
  | internal hdr bitmap cs =>
    rw [Trie.Node.getChildByPos, Trie.Node.getChildByIdx, BoundedRawVec.get] at hc
    split_ifs at hc with hle
    obtain ⟨hidx, -⟩ := List.getElem?_eq_some_iff.mp hc
    exact (if_neg hle).trans (List.getElem?_set_self hidx)

omit [Target] [PointerWidth] [NodeTypes T] in
/-- Putting a child back changes nothing. -/
theorem setChildByPos_self {pos : ChildPos} (hc : n.getChildByPos pos = some c) :
    n.setChildByPos pos c = n := by
  cases n with
  | leaf hdr => rfl
  | internal hdr bitmap cs =>
    rw [Trie.Node.getChildByPos, Trie.Node.getChildByIdx, BoundedRawVec.get] at hc
    split_ifs at hc
    obtain ⟨hidx, rfl⟩ := List.getElem?_eq_some_iff.mp hc
    exact congrArg (Trie.Node.internal hdr bitmap) (List.set_getElem_self hidx)

/-- **A turn of the loop of `compress`**, at a node whose child on the way has changed. The
child is one that a removal can leave (`Pruned`), which is what keeps the sizes of the joint
prefixes within those of the keys. -/
theorem realizes_compressParent (hA : A.Sound) (e : Hole) {b : UInt8} {P : Bytes → Prop}
    (h : NodeHolds (n.setChildByPos (childPosFromByte b) cur) w own) (hwf : Wf room n)
    (hc : c ∈ n.children) (hkey : c.key = b.toNat) (hP : ∀ t, P t → c.pfx.bytes <+: t)
    (hpruned : Pruned (room - n.pfx.bytes.length) c cur P) (hdepth : room + 2 ≤ depth + 1) :
    Realizes MayStop (compressParent A (depth + 1) e.place (childPosFromByte b))
      (e.hold w + own) (Trie.TrieMap.compressParent cur n (childPosFromByte b))
      fun goOn r kept => goOn = r.2 ∧ HoldsAt e r.1 kept := by
  have hwf' := (Pruned.setChildByPos hwf hc hkey hP hpruned).wf
  have hget := getChildByPos_setChildByPos (hwf.agrees.getChildByPos_eq hc hkey) cur
  obtain ⟨-, hpruned', -, -, -⟩ := Trie.TrieMap.dropIfDead_spec hwf hc hkey hP hpruned rfl
  rw [compressParent, Trie.TrieMap.compressParent_eq hwf hc hkey hpruned]
  refine Realizes.bindLeft (add_zero _).symm (realizes_removeEmpty e h (Counted.of_wf hwf')
    (hwf'.shallow.mono (by omega)) hget) ?_
  rintro _ _ ⟨own', h', rfl⟩
  replace h' : NodeHolds (Trie.TrieMap.dropIfDead cur n (childPosFromByte b)) w own' := h'
  rw [add_zero]
  refine Realizes.lookLeft ((looks_load e w).more rfl) ?_
  refine Realizes.lookLeft (looks_lenChildren h').moreLeft ?_
  rw [h'.hasVal_eq]
  dsimp only
  split_ifs with hone
  · rw [hpruned'.wf.agrees.lenChildren_eq] at hone
    obtain ⟨x, hx⟩ := List.length_eq_one_iff.mp hone.1
    refine Realizes.bind (add_zero _).symm (realizes_mergeChild hA e h' hpruned'.wf hx)
      fun _ n' kept _ hn' => ?_
    rw [add_zero]
    exact Realizes.ret ⟨rfl, hn'⟩
  · exact Realizes.ret ⟨rfl, w, own', h', rfl⟩

/-! ## The way back

By induction on the spine: at its end is the root, and above every other place is one that
takes the changed node back, whole. Where the loop stops early, the rest of the spine is put
together as it is. -/

/-- **The loop of `compress`**, which goes up the spine as far as nodes become unnecessary. -/
theorem realizes_compressLoop (hA : A.Sound) {e : Hole} {visited : Visited}
    {visited' : Trie.Visited T} {r : Held T} {root : Trie.Node T} {k : Bytes} {P : Bytes → Prop}
    (hspine : Spine e visited visited' r) (hpath : Path root n visited' k) (hwf : Wf room root)
    (hP : ∀ t, P t → n.pfx.bytes <+: t) (hpruned : Pruned (room - k.length) n cur P)
    (h : NodeHolds cur w own) (hdepth : room + 2 ≤ depth + 1) :
    Realizes MayStop (compressLoop A (depth + 1) visited) (e.hold w + (own + r))
      (Trie.TrieMap.compressLoop cur visited') fun _ root' kept => MapHolds ⟨some root'⟩ kept := by
  induction hspine generalizing n cur w own k P with
  | root =>
    rw [add_zero]
    exact Realizes.ret (.some h)
  | @child e e' visited visited' r rest m wm pos hspine hset ih =>
    obtain ⟨k, b, rfl, hup, hmem, hkey, rfl⟩ := Owned.TrieMap.path_cons hpath
    rw [List.length_append, ← Nat.sub_sub] at hpruned
    have hP' : ∀ t, Past m.pfx.bytes P t → m.pfx.bytes <+: t :=
      fun t ⟨u, hu, _⟩ => ⟨u, hu.symm⟩
    have hspec := Trie.TrieMap.compressParent_spec (hup.wf hwf) hmem hkey hP hpruned
    rw [compressLoop, Trie.TrieMap.compressLoop]
    have hgiven : e'.hold w + (own + (e.hold wm + (rest + r)))
        = e.hold wm + (e'.hold w + (own + rest)) + r := by abel
    refine Realizes.bind hgiven (realizes_compressParent hA e (hset cur w own h) (hup.wf hwf) hmem
      hkey hP hpruned (by omega)) ?_
    rintro _ ⟨p, goOn⟩ _ hok ⟨hgoOn, w', own', h', rfl⟩
    rw [hgoOn]
    obtain ⟨hpruned', -⟩ := hspec.of_eq_ok hok
    rw [add_assoc]
    cases goOn with
    | true => exact ih hup hP' hpruned' h'
    | false =>
      -- the places above are not looked at any more
      obtain ⟨w'', own'', hplug, hheld⟩ := hspine.plug h'
      rw [hheld]
      exact Realizes.ret (.some hplug)

/-- **The root is replaced by its only child**, which is given the whole prefix. Here the child
stays and the node above goes, the other way round than in a turn of the loop. -/
theorem realizes_mergeRoot (hA : A.Sound) (h : NodeHolds n w own) (hwf : Wf room n)
    (hcs : n.children = [c]) :
    Realizes MayStop (mergeRoot A (depth + 1) w) (rootAt (some w) + own) (do
      let pos ← n.childPosFromIdx 0
      let child ← Rust.unwrap (n.removeChild pos).1
      let newPrefix ← Prefix.fromSlices [(n.removeChild pos).2.pfx.bytes, child.pfx.bytes]
      .ok (some (child.setPfx newPrefix))) fun _ root kept => MapHolds ⟨root⟩ kept := by
  have hcounted := Counted.of_wf hwf
  rw [mergeRoot]
  refine Realizes.look (looks_childPosFromIdx h hcounted 0).moreLeft fun pos hpos => ?_
  obtain ⟨hrem, hcounted', -⟩ := Owned.TrieMap.removeChild_single hwf hcs hpos
  refine Realizes.bindLeft (add_comm _ _) (realizes_removeChild h hcounted pos) ?_
  rintro o _ ⟨own₁, oc, h₁, ho, rfl⟩
  rw [hrem] at ho ⊢
  have hnil := children_removeChild_single hcs hrem
  cases ho with
  | @some _ wc _ hc =>
    rw [Rust.unwrap_some, Rust.unwrap_some, Raw.lift_ok, lift_ok_bind, Rust.ok_bind]
    refine Realizes.lookLeft (((looks_prefixBytes h₁).more rfl).more rfl) ?_
    refine Realizes.lookLeft (((looks_prefixBytes hc).moreLeft).more rfl) ?_
    refine Realizes.bind (zero_add _).symm (realizes_fromSlices hA _) ?_
    rintro p pre op - ⟨hpre, hp⟩
    rw [← hpre] at hp
    have hgiven : op + (own₁ + oc + rootAt (some w)) = oc + op + (own₁ + rootAt (some w)) := by
      abel
    refine Realizes.bindLeft hgiven (realizes_setPfx hc hp) fun _ oc' hc' => ?_
    refine Realizes.bindLeft (add_left_comm _ _ _) (realizes_drop h₁ hcounted'
      (.of_children_eq_nil hnil)) fun _ kept hkept => ?_
    have hgiven : kept + (oc' + rootAt (some w)) = rootAt (some w) + oc' := by
      rw [hkept]
      abel
    refine Realizes.last hgiven (realizes_setRoot _ (some wc)) fun _ kept hkept => ?_
    rw [hkept]
    exact .some hc'

/-- **The end of `compress`**: a root without a value is dropped when it has no children, and
replaced when it has one. -/
theorem realizes_compressRoot (hA : A.Sound) (h : MapHolds ⟨some n⟩ own) (hwf : Wf room n)
    (hdepth : room + 2 ≤ depth + 1) :
    Realizes MayStop (compressRoot A (depth + 1)) own (Trie.TrieMap.compressRoot n)
      fun _ root kept => MapHolds ⟨root⟩ kept := by
  cases h with
  | @some _ w r hroot =>
    refine Realizes.lookLeft ((looks_getRoot (some w)).more rfl) ?_
    rw [Trie.TrieMap.compressRoot]
    dsimp only
    rw [hroot.hasVal_eq]
    by_cases hval : n.hasVal = true
    · rw [if_pos hval, if_pos hval]
      exact Realizes.ret (.some hroot)
    rw [if_neg hval, if_neg hval]
    refine Realizes.lookLeft (looks_lenChildren hroot).moreLeft ?_
    split_ifs with hzero hone
    · refine Realizes.bindLeft (add_comm _ _) (realizes_drop hroot (Counted.of_wf hwf)
        (hwf.shallow.mono hdepth)) fun _ kept hkept => ?_
      rw [hkept, zero_add]
      refine Realizes.last (add_zero _).symm (realizes_setRoot _ none) fun _ kept hkept => ?_
      rw [hkept, add_zero]
      exact .none
    · rw [hwf.agrees.lenChildren_eq] at hone
      obtain ⟨c, hcs⟩ := List.length_eq_one_iff.mp hone
      exact realizes_mergeRoot hA hroot hwf hcs
    · exact Realizes.ret (.some hroot)

/-- **`compress`** leaves a map, which holds what the same on nodes leaves. -/
theorem realizes_compress (hA : A.Sound) {e : Hole} {visited : Visited}
    {visited' : Trie.Visited T} {r : Held T} {root : Trie.Node T} {k : Bytes} {P : Bytes → Prop}
    (hspine : Spine e visited visited' r) (hpath : Path root n visited' k) (hwf : Wf room root)
    (hP : ∀ t, P t → n.pfx.bytes <+: t) (hpruned : Pruned (room - k.length) n cur P)
    (h : NodeHolds cur w own) (hdepth : room + 2 ≤ depth + 1) :
    Realizes MayStop (compress A (depth + 1) visited) (e.hold w + (own + r))
      (Trie.TrieMap.compress cur visited') fun _ root' kept => MapHolds ⟨root'⟩ kept := by
  rw [compress, Trie.TrieMap.compress]
  refine Realizes.bind (add_zero _).symm
    (realizes_compressLoop hA hspine hpath hwf hP hpruned h hdepth) fun _ root' kept hok h' => ?_
  obtain ⟨hpruned', -⟩ := (Trie.TrieMap.compressLoop_spec hpath hwf hP hpruned).of_eq_ok hok
  rw [add_zero]
  exact realizes_compressRoot hA h' hpruned'.wf hdepth

/-! ## The calls

Both walks find a place on the spine, or nothing, and change nothing until then: what they
find is read off the memory by the lookups, and what is known of it, that it is on the way of
the key, comes from the walk on nodes. -/

variable {m : Trie.TrieMap T}

/-- A node without a value stays as it is. -/
theorem takeVal_eq (h : NodeHolds n w own) (hval : n.hasVal = false) :
    (w.takeVal : Prog T _) = pure (none, w) := by
  rw [Node.takeVal, h.hasVal_eq, hval]
  rfl

/-- **`remove`** hands the value over that it takes out. Where the key leads to a node without a
value, the word is stored back as it was, and the map stays. -/
theorem realizes_remove (hA : A.Sound) (h : MapHolds m own) (hvalid : m.Valid room) (key : Bytes)
    (hdepth : room + 2 ≤ depth + 1) :
    Realizes MayStop (remove A (depth + 1) key) own (m.remove key) fun v r kept =>
      v = r.1 ∧ ∃ own', MapHolds r.2 own' ∧ kept = own' + valueOf v := by
  unfold remove Trie.TrieMap.remove
  split_ifs
  · exact Realizes.ret ⟨rfl, own, h, (add_zero _).symm⟩
  have hheld := h
  cases h with
  | none =>
    exact Realizes.lookLeft (looks_getRoot none) (Realizes.ret ⟨rfl, _, .none, (add_zero _).symm⟩)
  | @some n w r hroot =>
    have hwf := hvalid.wf n rfl
    have hspec := Trie.TrieMap.removeLoop_spec hwf Path.root (List.nil_append key).symm
      (enough_walkBound n key) fun v => Iff.rfl
    refine Realizes.lookLeft ((looks_getRoot (some w)).more rfl) ?_
    -- the walk down
    refine Realizes.find (finds_removeLoop (.root hroot) hwf) fun found found' hok hfound => ?_
    rw [hok] at hspec
    cases hfound with
    | none => exact Realizes.ret ⟨rfl, _, hheld, (add_zero _).symm⟩
    | @some p q hp =>
      obtain ⟨cur, visited⟩ := p
      obtain ⟨c, visited'⟩ := q
      obtain ⟨e, wc, hcur, @⟨r', own', hspine, hc, hown⟩⟩ := hp
      obtain rfl : cur = e.place := hcur
      obtain ⟨k, hpath⟩ : ∃ k, Path n c visited' k := by
        rcases hspec with ⟨hno, -⟩ | ⟨c', visited'', k, hfound, hpath, -⟩
        · cases hno
        · obtain ⟨rfl, rfl⟩ := Prod.mk.inj (Option.some.inj (Except.ok.inj hfound))
          exact ⟨k, hpath⟩
      rw [hown]
      refine Realizes.lookLeft ((looks_load e wc).more rfl) ?_
      by_cases hval : c.hasVal = false
      · -- a node without a value: nothing is written but the word that is there
        have hnone : c.takeVal.1 = none := Option.isNone_iff_eq_none.mp (by
          rw [← Option.not_isSome, Bool.not_eq_true']
          exact hval)
        rw [takeVal_eq hc hval, pure_bind]
        refine Realizes.bindLeft rfl (realizes_store e wc wc) fun _ kept hkept' => ?_
        dsimp only
        rw [hkept', ← hown, hnone, Option.isNone_none, if_pos rfl, if_pos rfl]
        exact Realizes.ret ⟨rfl, _, hheld, (add_zero _).symm⟩
      -- the value is taken out, and the way back begins
      have hsome : c.takeVal.1.isNone ≠ true := fun hnone => hval (by
        rw [Trie.Node.hasVal, ← Option.not_isNone]
        exact congrArg not hnone)
      refine Realizes.bindLeft (add_left_comm _ _ _) (realizes_takeVal hc) ?_
      rintro ⟨v, wc'⟩ _ ⟨hv, own'', hc', rfl⟩
      have hgiven : own'' + valueOf v + (e.hold wc + r')
          = e.hold wc + (own'' + r' + valueOf v) := by abel
      dsimp only at hv hc' ⊢
      refine Realizes.bindLeft hgiven (realizes_store e wc wc') fun _ kept hkept' => ?_
      rw [hkept', hv, if_neg hsome, if_neg hsome]
      refine Realizes.bind (add_assoc _ _ _).symm (realizes_compress hA hspine hpath hwf
        (by rintro _ rfl; exact List.prefix_rfl) (Trie.TrieMap.pruned_takeVal (hpath.wf hwf)) hc'
        hdepth) fun _ root kept _ hroot' => ?_
      exact Realizes.ret ⟨rfl, kept, hroot', rfl⟩

/-- **`remove_prefix`** drops what it takes out: the subtree at the place it finds, or the whole
map, when the place is the root. -/
theorem realizes_removePrefix (hA : A.Sound) (h : MapHolds m own) (hvalid : m.Valid room)
    (key : Bytes) (hdepth : room + 2 ≤ depth + 1) :
    Realizes MayStop (removePrefix A (depth + 1) key) own (m.removePrefix key) fun _ m' kept =>
      MapHolds m' kept := by
  have hclear := realizes_clear MayStop h hvalid hdepth
  unfold removePrefix Trie.TrieMap.removePrefix
  split_ifs with hne
  · exact hclear
  have hheld := h
  cases h with
  | none => exact Realizes.lookLeft (looks_getRoot none) (Realizes.ret .none)
  | @some n w r hroot =>
    have hwf := hvalid.wf n rfl
    have hspec := Trie.TrieMap.removePrefixLoop_spec hwf Path.root (List.nil_append key).symm hne
      (enough_walkBound n key) fun t v => Iff.rfl
    refine Realizes.lookLeft ((looks_getRoot (some w)).more rfl) ?_
    -- the walk down, to the first node whose prefix reaches past the key
    refine Realizes.find (finds_removePrefixLoop (.root hroot) hwf)
      fun found found' hok hfound => ?_
    rw [hok] at hspec
    cases hfound with
    | none => exact Realizes.ret hheld
    | @some p q hp =>
      obtain ⟨cur, visited⟩ := p
      obtain ⟨c, visited'⟩ := q
      obtain ⟨e, wc, -, @⟨r', own', hspine, hc, hown⟩⟩ := hp
      obtain ⟨k, q, hpath, hq, hqpre⟩ : ∃ k q, Path n c visited' k ∧ q ≠ []
          ∧ q <+: c.pfx.bytes := by
        rcases hspec with ⟨hno, -⟩ | ⟨c', visited'', k, q, hfound, hpath, -, hq, hqpre⟩
        · cases hno
        · obtain ⟨rfl, rfl⟩ := Prod.mk.inj (Option.some.inj (Except.ok.inj hfound))
          exact ⟨k, q, hpath, hq, hqpre⟩
      cases hspine with
      | root => exact hclear
      | @child e₀ _ visited visited' r₀ rest x wx pos hspine hset =>
        -- the parent, whole again: nothing was written on the way
        obtain ⟨k, b, rfl, hup, hmem, hkey, rfl⟩ := Owned.TrieMap.path_cons hpath
        have hwfx := hup.wf hwf
        have hcounted := Counted.of_wf hwfx
        have hx := hset c wc own' hc
        rw [setChildByPos_self (hwfx.agrees.getChildByPos_eq hmem hkey)] at hx
        have hgiven : e.hold wc + (own' + (e₀.hold wx + (rest + r₀)))
            = e₀.hold wx + (e.hold wc + (own' + rest) + r₀) := by abel
        rw [hown, hgiven]
        -- the child is taken out of the parent's array
        refine Realizes.lookLeft ((looks_load e₀ wx).more rfl) ?_
        have hgiven : e₀.hold wx + (e.hold wc + (own' + rest) + r₀)
            = e.hold wc + (own' + rest) + (e₀.hold wx + r₀) := by abel
        refine Realizes.bindLeft hgiven (realizes_removeChild hx hcounted _) ?_
        rintro o _ ⟨own₁, oc, h₁, ho, rfl⟩
        -- it is dropped, with all that is below it
        obtain ⟨hshallow⟩ := hwfx.shallow.mono (show _ ≤ depth + 1 + 1 by omega)
        have hgiven : own₁ + oc + (e₀.hold wx + r₀) = oc + (e₀.hold wx + (own₁ + r₀)) := by abel
        refine Realizes.bindLeft hgiven (realizes_dropOption ho
          (fun y hy => hcounted.child (Owned.TrieMap.mem_children_of_removeChild hy))
          fun y hy => hshallow y (Owned.TrieMap.mem_children_of_removeChild hy))
          fun _ kept hkept => ?_
        rw [hkept, zero_add]
        -- `compress` starts at the parent, not at the place that was found
        refine Realizes.map (add_zero _).symm (realizes_compress hA hspine hup hwf
          (fun t ht => (List.prefix_append _ _).trans ht)
          (Trie.TrieMap.pruned_removeChild hwfx hmem hkey hq hqpre) h₁ hdepth)
          fun _ root kept _ hroot' => ?_
        rw [add_zero]
        exact hroot'

end TrieMap

end Placed

end Trie
