import Algors.Trie.PlacedSpine

/-!
# Lookups in memory

The walks of the map only read. Where one of them stops, the place that it found is at the end
of a spine, with the node there; `Reached` says so of all that was owned before, since nothing
has changed. The lookups take the value from there, a write through the reference of
`get_mut` goes back up the spine, and a traversal goes on below.
-/

namespace Trie

namespace Placed

open Trie.Node (Wf Counted)

variable [Target] [PointerWidth] {T : Type} [NodeTypes T]

/-- **A walk is at a node**: at the end of a spine, in what is owned. -/
inductive Reached (own : Held T) (e : Hole) (visited : Visited) (w : Node) (n : Trie.Node T)
    (visited' : Trie.Visited T) : Prop
  | intro {r below : Held T} (hspine : Spine e visited visited' r) (h : NodeHolds n w below)
      (hown : own = e.hold w + (below + r))

namespace Reached

variable {own : Held T} {e : Hole} {visited : Visited} {w : Node} {n c : Trie.Node T}
  {visited' : Trie.Visited T} {F α : Type}

/-- A walk starts at the root. -/
theorem root {r : Held T} (h : NodeHolds n w r) :
    Reached (rootAt (some w) + r) .root [] w n [] :=
  .intro .root h (congrArg (_ + ·) (add_zero r).symm)

/-- What can be seen of the node can be seen on the walk. -/
theorem looks (h : Reached own e visited w n visited') {x : Prog T α} {p : Except F α}
    (hx : ∀ below, NodeHolds n w below → Looks x below p) : Looks x own p := by
  obtain ⟨hspine, hheld, rfl⟩ := h
  exact ((hx _ hheld).more rfl).moreLeft

theorem looks_load (h : Reached own e visited w n visited') :
    Looks (load e.place : Prog T Node) own (.ok w : Rust _) := by
  obtain ⟨hspine, hheld, rfl⟩ := h
  exact (Placed.looks_load e w).more rfl

/-- **A walk goes on to a child.** -/
theorem child (h : Reached own e visited w n visited') (hcounted : n.Counted) {pos : ChildPos}
    (hc : n.getChildByPos pos = some c) :
    ∃ e' p wc, e'.place = .slot p ∧ Reached own e' ((e.place, pos) :: visited) wc c
        ((n, pos) :: visited')
      ∧ Looks (w.getChildByPos pos : Prog T _) own (.ok (some p) : Rust _) := by
  obtain @⟨r, below, hspine, hheld, rfl⟩ := h
  obtain ⟨e', p, wc, oc, rest, hp, hbelow, hchild, hlook, hset⟩ := hheld.childByPos hcounted hc
  refine ⟨e', p, wc, hp, .intro (.child hspine hset) hchild ?_, (hlook.more rfl).moreLeft⟩
  rw [hbelow]
  abel

end Reached

namespace TrieMap

variable {own : Held T} {e : Hole} {visited : Visited} {w : Node} {n c : Trie.Node T}
  {visited' : Trie.Visited T} {room fuel : ℕ} {data : Bytes} {α β : Type}

/-! ## The walks

All walks go down alike, `goDown`, and differ in when they stop and what they give back. By
induction on the fuel they find in memory what they find on nodes; nothing is owned by a walk,
so that what was owned before is owned after it as it was. -/

/-- **The end of a turn**: on to a child, which is there when the bitmap says so. -/
theorem finds_goDown (h : Reached own e visited w n visited') (hcounted : n.Counted) (data : Bytes)
    (lcpLen : ℕ) {loop : Place → Bytes → ChildPos → Prog T (Option α)}
    (loop' : Trie.Node T → Bytes → ChildPos → Rust (Option β)) {R : Option α → Option β → Prop}
    (hnone : R none none)
    (hloop : ∀ e' wc c data pos,
      Reached own e' ((e.place, pos) :: visited) wc c ((n, pos) :: visited') → c ∈ n.children →
      Finds (loop e'.place data pos) own (loop' c data pos) R) :
    Finds (goDown Node.getChildByPos w data lcpLen loop) own (do
      let rest ← Rust.sliceFrom data lcpLen
      let byte ← Rust.index rest 0
      if n.childExists (childPosFromByte byte) then do
        let c ← Rust.unwrap (n.getChildByPos (childPosFromByte byte))
        loop' c rest (childPosFromByte byte)
      else .ok none) R := by
  refine Finds.look (looks_lift_lift _) fun rest _ => ?_
  refine Finds.look (looks_lift_lift _) fun byte _ => ?_
  refine Finds.lookLeft (h.looks fun _ hheld => looks_childExists hheld _) ?_
  split_ifs
  · cases hc : n.getChildByPos (childPosFromByte byte) with
    | none => exact fun _ hb => by cases hb
    | some c =>
      obtain ⟨e', p, wc, hp, hreached, hlook⟩ := h.child hcounted hc
      refine Finds.lookLeft hlook ?_
      rw [Rust.unwrap_some, Rust.unwrap_some, Raw.lift_ok, lift_ok_bind, Rust.ok_bind, ← hp]
      exact hloop e' wc c rest _ hreached (mem_children_of_getChildByIdx hc)
  · exact Finds.ret hnone

omit [PointerWidth] [NodeTypes T] in
theorem getMutChildByPos_eq_getChildByPos :
    (Node.getMutChildByPos : Node → ChildPos → Prog T _) = Node.getChildByPos := rfl

/-- What `remove` and `remove_prefix` look for: a place, and the way to it. -/
def FoundPlace (own : Held T) : Option (Place × Visited) → Option (Trie.Node T × Trie.Visited T) →
    Prop :=
  Option.Rel fun p r => ∃ e w, p.1 = Hole.place e ∧ Reached own e p.2 w r.1 r.2

/-- **The walk of `remove`.** -/
theorem finds_removeLoop (h : Reached own e visited w n visited') (hwf : Wf room n) :
    Finds (removeLoop fuel e.place data visited : Prog T _) own
      (Trie.TrieMap.removeLoop fuel n data visited') (FoundPlace own) := by
  induction fuel generalizing n w room data e visited visited' with
  | zero => exact fun _ hb => by cases hb
  | succ fuel ih =>
    rw [removeLoop, Trie.TrieMap.removeLoop]
    refine Finds.lookLeft h.looks_load ?_
    refine Finds.lookLeft (h.looks fun _ => looks_prefixBytes) ?_
    refine Finds.lookLeft (h.looks fun _ => looks_prefixLen) ?_
    dsimp only
    split_ifs
    · exact Finds.ret .none
    · exact Finds.ret (.some ⟨e, w, rfl, h⟩)
    · exact finds_goDown h (Counted.of_wf hwf) data _ (fun c rest pos =>
        Trie.TrieMap.removeLoop fuel c rest ((n, pos) :: visited')) .none
        fun e' wc c data pos hreached hc => ih hreached (hwf.child hc)

/-- **The walk of `remove_prefix`.** -/
theorem finds_removePrefixLoop (h : Reached own e visited w n visited') (hwf : Wf room n) :
    Finds (removePrefixLoop fuel e.place data visited : Prog T _) own
      (Trie.TrieMap.removePrefixLoop fuel n data visited') (FoundPlace own) := by
  induction fuel generalizing n w room data e visited visited' with
  | zero => exact fun _ hb => by cases hb
  | succ fuel ih =>
    rw [removePrefixLoop, Trie.TrieMap.removePrefixLoop]
    refine Finds.lookLeft h.looks_load ?_
    refine Finds.lookLeft (h.looks fun _ => looks_prefixBytes) ?_
    dsimp only
    by_cases hend : Util.lcp n.pfx.bytes data = data.length
    · rw [if_pos hend, if_pos hend]
      exact Finds.ret (.some ⟨e, w, rfl, h⟩)
    rw [if_neg hend, if_neg hend]
    refine Finds.lookLeft (h.looks fun _ => looks_prefixLen) ?_
    split_ifs
    · exact Finds.ret .none
    · exact finds_goDown h (Counted.of_wf hwf) data _ (fun c rest pos =>
        Trie.TrieMap.removePrefixLoop fuel c rest ((n, pos) :: visited')) .none
        fun e' wc c data pos hreached hc => ih hreached (hwf.child hc)

/-- What `get` and `get_mut` look for: the word of a node. -/
def FoundNode (own : Held T) : Option Node → Option (Trie.Node T × Trie.Visited T) → Prop :=
  Option.Rel fun w r => ∃ e visited, Reached own e visited w r.1 r.2

/-- **The walk of `get` and `get_mut`**, which is the one of `remove`. -/
theorem finds_getLoop (h : Reached own e visited w n visited') (hwf : Wf room n) :
    Finds (getLoop Node.getChildByPos fuel e.place data : Prog T _) own
      (Trie.TrieMap.removeLoop fuel n data visited') (FoundNode own) := by
  induction fuel generalizing n w room data e visited visited' with
  | zero => exact fun _ hb => by cases hb
  | succ fuel ih =>
    rw [getLoop, Trie.TrieMap.removeLoop]
    refine Finds.lookLeft h.looks_load ?_
    refine Finds.lookLeft (h.looks fun _ => looks_prefixBytes) ?_
    refine Finds.lookLeft (h.looks fun _ => looks_prefixLen) ?_
    dsimp only
    split_ifs
    · exact Finds.ret .none
    · exact Finds.ret (.some ⟨e, visited, h⟩)
    · exact finds_goDown h (Counted.of_wf hwf) data _ (fun c rest pos =>
        Trie.TrieMap.removeLoop fuel c rest ((n, pos) :: visited')) .none
        fun e' wc c data pos hreached hc => ih hreached (hwf.child hc)

/-- What a traversal starts from: the word of a node, and an offset in its prefix. -/
def FoundOffset (room : ℕ) (own : Held T) : Option (Node × ℕ) → Option (Trie.Node T × ℕ) → Prop :=
  Option.Rel fun p r => p.2 = r.2 ∧ Wf room r.1
    ∧ ∃ e visited visited', Reached own e visited p.1 r.1 visited'

/-- **The walk of `find_prefix_node`.** -/
theorem finds_findPrefixLoop (h : Reached own e visited w n visited') (hwf : Wf room n) :
    Finds (findPrefixLoop fuel e.place data : Prog T _) own
      (Trie.TrieMap.findPrefixLoop fuel n data) (FoundOffset room own) := by
  induction fuel generalizing n w data e visited visited' with
  | zero => exact fun _ hb => by cases hb
  | succ fuel ih =>
    rw [findPrefixLoop, Trie.TrieMap.findPrefixLoop]
    refine Finds.lookLeft h.looks_load ?_
    refine Finds.lookLeft (h.looks fun _ => looks_prefixBytes) ?_
    dsimp only
    by_cases hend : Util.lcp n.pfx.bytes data = data.length
    · rw [if_pos hend, if_pos hend]
      exact Finds.ret (.some ⟨rfl, hwf, e, visited, visited', h⟩)
    rw [if_neg hend, if_neg hend]
    refine Finds.lookLeft (h.looks fun _ => looks_prefixLen) ?_
    split_ifs
    · exact Finds.ret .none
    · exact finds_goDown h (Counted.of_wf hwf) data _ (fun c rest _ =>
        Trie.TrieMap.findPrefixLoop fuel c rest) .none
        fun e' wc c data pos hreached hc => ih hreached ((hwf.child hc).mono (Nat.sub_le _ _))

/-! ## The calls

On nodes, `get` and `get_mut` have walks of their own, which give the value back. They are read
as the walk of `remove`, followed by a look at the node it finds, so that one lemma about walks
in memory is enough. -/

section Functions

variable {T : Type} {n : Trie.Node T} {m : Trie.TrieMap T}

omit [PointerWidth] in
/-- The loop of `get` takes the value from where the walk ends. -/
theorem getLoop_eq (fuel : ℕ) (n : Trie.Node T) (data : Bytes) (visited : Trie.Visited T) :
    Trie.TrieMap.getLoop fuel n data = Trie.TrieMap.removeLoop fuel n data visited
      >>= fun found => .ok (found.bind fun r => r.1.val) := by
  induction fuel generalizing n data visited with
  | zero => rfl
  | succ fuel ih =>
    rw [Trie.TrieMap.getLoop, Trie.TrieMap.removeLoop]
    dsimp only
    split_ifs
    · rfl
    · rfl
    · rw [bind_assoc]
      congr
      funext rest
      rw [bind_assoc]
      congr
      funext byte
      split_ifs
      · rw [bind_assoc]
        congr
        funext c
        exact ih c rest _
      · rfl

omit [PointerWidth] in
/-- The loop of `get_mut` does too, and a write goes back up the way. -/
theorem getMutLoop_eq (g : Trie.Node T → α) (fuel : ℕ) (n : Trie.Node T) (data : Bytes)
    (visited : Trie.Visited T) :
    (Trie.TrieMap.getMutLoop fuel n data >>= fun res =>
        .ok (res.map fun r => (r.1, fun v => g (Trie.TrieMap.plug (r.2 v) visited))) : Rust _)
      = Trie.TrieMap.removeLoop fuel n data visited >>= fun found =>
        .ok (found.bind fun r => r.1.val.map fun u =>
          (u, fun v => g (Trie.TrieMap.plug (r.1.setVal v) r.2))) := by
  induction fuel generalizing n data visited with
  | zero => rfl
  | succ fuel ih =>
    rw [Trie.TrieMap.getMutLoop, Trie.TrieMap.removeLoop]
    dsimp only
    split_ifs
    · rfl
    · rw [Rust.ok_bind, Rust.ok_bind, Option.map_map]
      rfl
    · rw [bind_assoc, bind_assoc]
      congr
      funext rest
      rw [bind_assoc, bind_assoc]
      congr
      funext byte
      split_ifs
      · rw [bind_assoc, bind_assoc]
        congr
        funext c
        rw [← ih c rest, bind_assoc]
        congr
        funext res
        rw [Rust.ok_bind, Option.map_map]
        rfl
      · rfl

/-- **The node where a key ends**, and the path to it. -/
def locate (m : Trie.TrieMap T) (key : Bytes) : Rust (Option (Trie.Node T × Trie.Visited T)) :=
  if key = [] then .ok none
  else
    match m.root with
    | none => .ok none
    | some root => Trie.TrieMap.removeLoop (walkBound key) root key []

omit [PointerWidth] in
theorem get_eq (m : Trie.TrieMap T) (key : Bytes) :
    m.get key = locate m key >>= fun found => .ok (found.bind fun r => r.1.val) := by
  unfold Trie.TrieMap.get locate
  split_ifs
  · rfl
  · obtain ⟨root⟩ := m
    cases root with
    | none => rfl
    | some root => exact getLoop_eq _ root key []

omit [PointerWidth] in
theorem getMut_eq (m : Trie.TrieMap T) (key : Bytes) :
    m.getMut key = locate m key >>= fun found => .ok (found.bind fun r => r.1.val.map fun u =>
      (u, fun v => ⟨some (Trie.TrieMap.plug (r.1.setVal v) r.2)⟩)) := by
  unfold Trie.TrieMap.getMut locate
  split_ifs
  · rfl
  · obtain ⟨root⟩ := m
    cases root with
    | none => rfl
    | some root =>
      exact getMutLoop_eq (fun n => (⟨some n⟩ : Trie.TrieMap T)) (walkBound key) root key []

end Functions

variable {m : Trie.TrieMap T} {stops : Stop → Prop}

theorem finds_find (h : MapHolds m own) (hvalid : m.Valid room) (key : Bytes) :
    Finds (find Node.getChildByPos key : Prog T _) own (locate m key) (FoundNode own) := by
  unfold find locate
  split_ifs
  · exact Finds.ret .none
  cases h with
  | none => exact Finds.lookLeft (looks_getRoot none) (Finds.ret .none)
  | @some n w r hroot =>
    exact Finds.lookLeft ((looks_getRoot (some w)).more rfl)
      (finds_getLoop (.root hroot) (hvalid.wf n rfl))

/-- **`get`** finds the value, and changes nothing. -/
theorem looks_get (h : MapHolds m own) (hvalid : m.Valid room) (key : Bytes) :
    Looks (get key : Prog T _) own (m.get key) := by
  rw [get, get_eq]
  refine Looks.find (finds_find h hvalid key) fun found found' _ hfound => ?_
  cases hfound with
  | none => exact Looks.ret _
  | some hw =>
    obtain ⟨e, visited, hreached⟩ := hw
    exact hreached.looks fun _ => looks_val

/-- **`contains`** tells whether there is one. -/
theorem looks_contains (h : MapHolds m own) (hvalid : m.Valid room) (key : Bytes) :
    Looks (contains key : Prog T _) own (m.contains key) :=
  (looks_get h hvalid key).bind fun _ _ => Looks.ret _

theorem looks_isEmpty (h : MapHolds m own) :
    Looks (isEmpty : Prog T _) own (.ok m.isEmpty : Rust _) := by
  cases h with
  | none => exact (looks_getRoot none).bindLeft (Looks.ret _)
  | @some n w r hroot => exact ((looks_getRoot (some w)).more rfl).bindLeft (Looks.ret _)

/-- **A write through the reference of `get_mut`** hands the value back that was there; where
there is none, the new one is dropped. -/
theorem realizes_write (h : MapHolds m own) (hvalid : m.Valid room) (key : Bytes) (val : T) :
    Realizes stops (write key val) (own + Holdings.value val) (m.apply (.write key val))
      fun v r kept => v = r.1 ∧ ∃ own', MapHolds r.2 own' ∧ kept = own' + valueOf v := by
  -- nothing is written, and the value goes out of scope
  have hdispose : ∀ {f : Prog T (Option T)}, f = (do dispose val; return none) →
      Realizes stops f (own + Holdings.value val) (.ok (none, m) : Rust _)
        fun v r kept => v = r.1 ∧ ∃ own', MapHolds r.2 own' ∧ kept = own' + valueOf v := by
    rintro _ rfl
    refine Realizes.bindLeft (add_comm _ _) (realizes_dispose val) fun _ kept hkept => ?_
    exact Realizes.ret ⟨rfl, own, h, by rw [hkept, zero_add]; exact (add_zero _).symm⟩
  rw [write, getMutChildByPos_eq_getChildByPos, Trie.TrieMap.apply, getMut_eq, bind_assoc]
  refine Realizes.find ((finds_find h hvalid key).more rfl) fun found found' _ hfound => ?_
  cases hfound with
  | none => exact hdispose rfl
  | @some w r hw =>
    obtain ⟨n, visited'⟩ := r
    obtain ⟨e, visited, @⟨r, below, hspine, hn, rfl⟩⟩ := hw
    dsimp only [Option.bind_some]
    rw [hn.hasVal_eq, Trie.Node.hasVal]
    cases hval : n.val with
    | none => exact hdispose rfl
    | some u =>
      have hgiven : e.hold w + (below + r) + Holdings.value val
          = below + Holdings.value val + (e.hold w + r) := by abel
      refine Realizes.bindLeft hgiven (realizes_replaceVal hn hval val) ?_
      rintro _ _ ⟨rfl, own', hn', rfl⟩
      obtain ⟨w', own'', hplug, hheld⟩ := hspine.plug hn'
      refine Realizes.ret ⟨rfl, _, .some hplug, ?_⟩
      rw [← hheld]
      show own' + Holdings.value _ + (e.hold w + r) = e.hold w + (own' + r) + Holdings.value _
      abel

/-! ## The traversal

The walk finds the node below which all keys begin with the prefix. From there on the recursion
goes over the tree, by induction on its depth, and the state of `f` is handed along. -/

section Traversal

variable {σ : Type} {v : RawVec} {ws : List Node} {cs : List (Trie.Node T)} {rv rc : Held T}

/-- **The loop over the children** shows each of them to the body. -/
theorem looks_forEachChild {body : Node → σ → Prog T σ} {g : σ → Trie.Node T → σ}
    (hv : VecHolds v ws rv) (hcs : Holdings.Each NodeHolds cs ws rc)
    (hbody : ∀ c ∈ cs, ∀ w own s, NodeHolds c w own →
      Looks (body w s) own (.ok (g s c) : Rust _)) {i k : ℕ} (hk : i + k = ws.length) (s : σ) :
    Looks (forEachChild body (k + 1) ⟨⟨v.asMutPtr.base, i⟩, k⟩ s) (rv + rc)
      (.ok ((cs.drop i).foldl g s) : Rust _) := by
  have hlen := hcs.length_eq
  induction k generalizing i s with
  | zero =>
    rw [List.drop_eq_nil_of_le (by omega)]
    exact Looks.ret s
  | succ k ih =>
    have hi : i < ws.length := by omega
    have hc : cs[i]? = some cs[i] := List.getElem?_eq_getElem _
    obtain ⟨hread, hnext⟩ := hv.next hi
    obtain ⟨w, own, rest, hw, hown, rfl, -⟩ := hcs.split hc
    rw [show ws.length - i = k + 1 by omega, show ws.length - (i + 1) = k by omega] at hnext
    refine Looks.bindLeft (hnext.more rfl) ?_
    refine Looks.bindLeft (hread.more rfl) ?_
    obtain rfl : ws[i] = w := by rwa [List.getElem?_eq_getElem hi, Option.some.injEq] at hw
    refine Looks.bindLeft (((hbody _ (List.getElem_mem _) _ _ s hown).more rfl).moreLeft) ?_
    rw [List.drop_eq_getElem_cons (by omega), List.foldl_cons]
    exact ih (by omega) _

variable (f : Trie.TrieMap.SuffixRef → T → σ → σ)

omit [Target] [PointerWidth] [NodeTypes T] in
/-- The loop over nodes that are not in memory is a fold. -/
theorem forEachChild_eq (cs : List (Trie.Node T)) (chunks : List Bytes) (currentLen : ℕ) (s : σ) :
    Trie.TrieMap.forEachChild f cs cs.length chunks currentLen s
      = cs.foldl (fun s c => Trie.TrieMap.forEachPrefixFromNode f c (chunks ++ [c.pfx.bytes])
          (currentLen + c.pfx.bytes.length) s) s := by
  induction cs generalizing s with
  | nil => rfl
  | cons c cs ih =>
    rw [List.length_cons, Trie.TrieMap.forEachChild, ih]
    rfl

/-- **`for_each_prefix_from_node`** visits what there is to visit. -/
theorem looks_forEachPrefixFromNode {depth : ℕ} (h : NodeHolds n w own) (hcounted : n.Counted)
    (hdepth : n.Shallow depth) (chunks : List Bytes) (currentLen : ℕ) (s : σ) :
    Looks (forEachPrefixFromNode f depth w chunks currentLen s) own
      (.ok (Trie.TrieMap.forEachPrefixFromNode f n chunks currentLen s) : Rust _) := by
  induction depth generalizing n w own chunks currentLen s with
  | zero => cases hdepth
  | succ depth ih =>
    obtain ⟨hdepth⟩ := hdepth
    refine Looks.bindLeft (looks_val h) ?_
    dsimp only
    cases h with
    | @leaf hdr w a layout header r hw =>
      rw [iterChildren, hw.isLeaf, Trie.TrieMap.forEachPrefixFromNode]
      exact Looks.ret _
    | @internal hdr bitmap cs w a layout header v ws r rv rc hw hlayout hheader hv hcs =>
      have hlen : bitmap.lenChildren = ws.length := hcounted.self.trans hcs.length_eq
      rw [iterChildren, hw.isLeaf, Trie.TrieMap.forEachPrefixFromNode,
        show bitmap.lenChildren = cs.length from hcounted.self, forEachChild_eq]
      refine Looks.bindLeft ((looks_internal hw).bindLeft (Looks.ret _)) ?_
      show Looks (forEachChild _ (bitmap.lenChildren + 1)
        ⟨⟨v.asMutPtr.base, 0⟩, bitmap.lenChildren⟩ _) _ _
      rw [hlen]
      refine ((looks_forEachChild hv hcs (fun c hc w own s hchild => ?_) (Nat.zero_add _)
        _).moreLeft).moreLeft
      refine Looks.bindLeft (looks_prefixBytes hchild) ?_
      exact ih hchild (hcounted.child hc) (hdepth c hc) _ _ _

omit f in
/-- **`find_prefix_node`.** -/
theorem finds_findPrefixNode {m : Trie.TrieMap T} (h : MapHolds m own) (hvalid : m.Valid room)
    (key : Bytes) :
    Finds (findPrefixNode key : Prog T _) own (m.findPrefixNode key)
      (FoundOffset room own) := by
  rw [findPrefixNode, Trie.TrieMap.findPrefixNode]
  cases h with
  | none => exact Finds.lookLeft (looks_getRoot none) (Finds.ret .none)
  | @some n w r hroot =>
    refine Finds.lookLeft ((looks_getRoot (some w)).more rfl) ?_
    dsimp only
    split_ifs
    · exact Finds.ret (.some ⟨rfl, hvalid.wf n rfl, .root, [], [], .root hroot⟩)
    · exact finds_findPrefixLoop (.root hroot) (hvalid.wf n rfl)

/-- **`for_each_prefix`** in memory calls `f` as it does on nodes, and changes nothing. -/
theorem looks_forEachPrefix {depth : ℕ} {m : Trie.TrieMap T} (h : MapHolds m own)
    (hvalid : m.Valid room) (hdepth : room + 2 ≤ depth) (key : Bytes) (s : σ) :
    Looks (forEachPrefix f depth key s) own (m.forEachPrefix f key s) := by
  refine Looks.find (finds_findPrefixNode h hvalid key) fun found found' _ hfound => ?_
  cases hfound with
  | none => exact Looks.ret _
  | @some p r hp =>
    obtain ⟨w, offset⟩ := p
    obtain ⟨n, offset'⟩ := r
    obtain ⟨hoffset, hwf, e, visited, visited', hreached⟩ := hp
    obtain rfl : offset = offset' := hoffset
    refine Looks.bindLeft (hreached.looks fun _ => looks_prefixBytes) ?_
    refine Looks.bind (looks_lift_lift _) fun first _ => ?_
    have hnode : ∀ chunks currentLen, Looks (forEachPrefixFromNode f depth w chunks currentLen s)
        own (.ok (Trie.TrieMap.forEachPrefixFromNode f n chunks currentLen s) : Rust _) :=
      fun chunks currentLen => hreached.looks fun _ hn => looks_forEachPrefixFromNode f hn
        (Counted.of_wf hwf) (hwf.shallow.mono hdepth) chunks currentLen s
    split_ifs
    · exact hnode _ _
    · exact hnode _ _

end Traversal

end TrieMap

end Placed

end Trie
