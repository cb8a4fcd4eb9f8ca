import Algors.Trie.Entries
import Algors.Trie.Owned

/-!
# What a node owns

`Node.holding` is what a node owns: its block, the value in its slot, and what its
children own. `Node.erase` forgets blocks and tags, and `Node.Tagged` says of a node
and of all below it that the tag is set when there is a value in the slot, and only
then. Every operation on tagged nodes settles with the operation of the same name on
the nodes without blocks: it does the same, and accounts for what it is given.
-/

namespace Trie

variable {T : Type}

namespace Node

/-- **The bitmap counts the children**, here and at all nodes below. -/
inductive Counted : Node T → Prop
  | intro {m : Node T} (hself : m.lenChildren = m.children.length)
      (hchildren : ∀ c ∈ m.children, Counted c) : Counted m

namespace Counted

variable {m : Node T}

theorem self (h : Counted m) : m.lenChildren = m.children.length := by
  cases h; assumption

theorem child (h : Counted m) {c : Node T} (hc : c ∈ m.children) : Counted c := by
  cases h with
  | intro _ hchildren => exact hchildren c hc

/-- In a well-formed node it does. -/
theorem of_wf {room : ℕ} (h : Wf room m) : Counted m := by
  induction h with
  | intro _ hagrees _ ih => exact intro hagrees.lenChildren_eq ih

theorem of_children_eq_nil (hm : m.Agrees) (h : m.children = []) : Counted m :=
  intro hm.lenChildren_eq fun _ hc => absurd (h ▸ hc) List.not_mem_nil

theorem setHeader (h : Counted m) (hdr : Header T) : Counted (m.setHeader hdr) := by
  refine intro ?_ fun c hc => h.child ?_
  · cases m <;> exact h.self
  · cases m <;> exact hc

/-- Becoming an internal node adds no child. -/
theorem upgradeToInternal (h : Counted m) : Counted m.upgradeToInternal := by
  cases m with
  | leaf hdr => exact of_children_eq_nil ChildrenAgree.nil rfl
  | internal hdr bitmap cs => exact h

/-- A node that gave its children away has none. -/
theorem transferChildren (m k : Node T) : Counted (m.transferChildren k).1 := by
  cases m with
  | leaf hdr => exact of_children_eq_nil trivial rfl
  | internal hdr bitmap cs => exact of_children_eq_nil ChildrenAgree.nil rfl

end Counted

end Node

namespace Owned

/-! ## Forgetting blocks and tags

The operations that only look do the same with blocks and tags as without, since they do not
depend on either. This is so for every node, tagged or not. -/

namespace Slot

/-- The value in a slot, if there is one. -/
def toOption : Slot T → Option T
  | vacant => none
  | live v => some v

/-- What a slot owns. -/
def holding : Slot T → Holding T
  | vacant => 0
  | live v => Holding.value v

@[simp] theorem isSome_toOption (s : Slot T) : s.toOption.isSome = s.isLive := by
  cases s <;> rfl

end Slot

/-- The header without its slot. -/
def Header.erase (h : Header T) : Trie.Header T := ⟨h.pfx, h.val.toOption⟩

namespace Node

mutual

/-- **The node without blocks and tags.** -/
def erase : Node T → Trie.Node T
  | leaf _ _ h => .leaf h.erase
  | internal _ _ h bitmap cs => .internal h.erase bitmap (eraseAll cs)

/-- The nodes of a vector. -/
def eraseAll : List (Node T) → List (Trie.Node T)
  | [] => []
  | c :: cs => c.erase :: eraseAll cs

end

mutual

/-- **What a node owns.** -/
def holding : Node T → Holding T
  | leaf pt _ h => Holding.block pt + h.val.holding
  | internal pt _ h _ cs => Holding.block pt + h.val.holding + holdingAll cs

/-- What the nodes of a vector own. -/
def holdingAll : List (Node T) → Holding T
  | [] => 0
  | c :: cs => c.holding + holdingAll cs

end

@[simp] theorem eraseAll_eq (cs : List (Node T)) : eraseAll cs = cs.map erase := by
  induction cs with
  | nil => rfl
  | cons c cs ih => rw [eraseAll, ih, List.map_cons]

theorem holdingAll_eq (cs : List (Node T)) : holdingAll cs = (cs.map holding).sum := by
  induction cs with
  | nil => rfl
  | cons c cs ih => rw [holdingAll, ih, List.map_cons, List.sum_cons]

theorem holdingAll_perm {cs cs' : List (Node T)} (h : cs.Perm cs') :
    holdingAll cs = holdingAll cs' := by
  rw [holdingAll_eq, holdingAll_eq]
  exact (h.map _).sum_eq

/-- **A node owns its block, its value and its children.** -/
theorem holding_eq (n : Node T) :
    n.holding = Holding.block n.pt + n.header.val.holding + holdingAll n.children := by
  cases n with
  | leaf pt tag h => exact (add_zero _).symm
  | internal pt tag h bitmap cs => rfl

@[simp] theorem header_erase (n : Node T) : n.erase.header = n.header.erase := by
  cases n <;> rfl

@[simp] theorem pfx_erase (n : Node T) : n.erase.pfx = n.pfx := by
  cases n <;> rfl

theorem children_erase (n : Node T) : n.erase.children = n.children.map erase := by
  cases n with
  | leaf pt tag h => rfl
  | internal pt tag h bitmap cs => exact eraseAll_eq cs

@[simp] theorem lenChildren_erase (n : Node T) : n.erase.lenChildren = n.lenChildren := by
  cases n <;> rfl

@[simp] theorem childExists_erase (n : Node T) (pos : ChildPos) :
    n.erase.childExists pos = n.childExists pos := by
  cases n <;> rfl

theorem get_map {α β : Type} (f : α → β) (cs : List α) (i len : ℕ) :
    BoundedRawVec.get (cs.map f) i len = (BoundedRawVec.get cs i len).map f := by
  unfold BoundedRawVec.get
  split_ifs
  · rfl
  · exact List.getElem?_map

theorem getChildByPos_erase (n : Node T) (pos : ChildPos) :
    n.erase.getChildByPos pos = (n.getChildByPos pos).map erase := by
  cases n with
  | leaf pt tag h => rfl
  | internal pt tag h bitmap cs =>
    rw [erase, eraseAll_eq]
    exact get_map erase cs _ _

theorem childPosFromIdx_erase (n : Node T) (idx : ℕ) :
    n.erase.childPosFromIdx idx = n.childPosFromIdx idx := by
  have hget : n.erase.getChildByIdx idx = (n.getChildByIdx idx).map erase := by
    cases n with
    | leaf pt tag h => rfl
    | internal pt tag h bitmap cs =>
      rw [erase, eraseAll_eq]
      exact get_map erase cs _ _
  rw [Trie.Node.childPosFromIdx, hget, childPosFromIdx]
  cases n.getChildByIdx idx with
  | none => rfl
  | some c =>
    simp only [Option.map_some, Rust.expect_some, Rust.ok_bind, pfx_erase]

theorem setChildByPos_erase (n : Node T) (pos : ChildPos) (c : Node T) :
    (n.setChildByPos pos c).erase = n.erase.setChildByPos pos c.erase := by
  cases n with
  | leaf pt tag h => rfl
  | internal pt tag h bitmap cs =>
    simp only [setChildByPos, erase, eraseAll_eq, List.map_set, Trie.Node.setChildByPos]

theorem erase_setHeader (n : Node T) (tag : Bool) (h : Header T) :
    (n.setHeader tag h).erase = n.erase.setHeader h.erase := by
  cases n <;> rfl

theorem erase_setPfx (n : Node T) (p : Prefix) : (n.setPfx p).erase = n.erase.setPfx p := by
  rw [setPfx, erase_setHeader, Trie.Node.setPfx, header_erase]
  rfl

theorem mem_children_of_getChildByPos {n c : Node T} {pos : ChildPos}
    (hc : n.getChildByPos pos = some c) : c ∈ n.children := by
  cases n with
  | leaf pt tag hdr => cases hc
  | internal pt tag hdr bitmap cs =>
    rw [getChildByPos, BoundedRawVec.get] at hc
    split_ifs at hc
    exact List.mem_of_getElem? hc

/-! ## Tags

The tag decides whether a value is read or dropped. It must not be set where there is none, or
memory would be read that holds nothing, and not be clear where there is one, or the value would
be lost. -/

/-- **The tag tells whether there is a value**, here and at all nodes below. -/
inductive Tagged : Node T → Prop
  | intro {n : Node T} (hself : n.hasVal = n.header.val.isLive)
      (hchildren : ∀ c ∈ n.children, Tagged c) : Tagged n

namespace Tagged

variable {n : Node T}

theorem self (h : Tagged n) : n.hasVal = n.header.val.isLive := by
  cases h; assumption

theorem child (h : Tagged n) {c : Node T} (hc : c ∈ n.children) : Tagged c := by
  cases h with
  | intro _ hchildren => exact hchildren c hc

/-- The code and the nodes without tags agree on where a value is. -/
theorem hasVal_erase (h : Tagged n) : n.erase.hasVal = n.hasVal := by
  rw [h.self, Trie.Node.hasVal, Trie.Node.val, header_erase]
  exact Slot.isSome_toOption _

theorem setHeader (h : Tagged n) {tag : Bool} {hdr : Header T} (htag : tag = hdr.val.isLive) :
    Tagged (n.setHeader tag hdr) := by
  refine intro ?_ fun c hc => h.child ?_
  · cases n <;> exact htag
  · cases n <;> exact hc

theorem setPfx (h : Tagged n) (p : Prefix) : Tagged (n.setPfx p) := h.setHeader h.self

theorem setChildByPos (h : Tagged n) (pos : ChildPos) {c : Node T} (hc : Tagged c) :
    Tagged (n.setChildByPos pos c) := by
  cases n with
  | leaf pt tag hdr => exact h
  | internal pt tag hdr bitmap cs =>
    refine intro h.self fun x hx => ?_
    rcases List.mem_or_eq_of_mem_set hx with hx | rfl
    · exact h.child hx
    · exact hc

end Tagged

/-- **A node stands for a node without blocks and tags.** -/
structure Models (n : Node T) (m : Trie.Node T) : Prop where
  tagged : n.Tagged
  erase : n.erase = m

theorem Models.child {n c : Node T} {m : Trie.Node T} (h : n.Models m) (hc : c ∈ n.children) :
    c.Models c.erase ∧ c.erase ∈ m.children := by
  refine ⟨⟨h.tagged.child hc, rfl⟩, ?_⟩
  rw [← h.erase, children_erase]
  exact List.mem_map_of_mem hc

theorem Models.getChildByPos {n : Node T} {m : Trie.Node T} (h : n.Models m) (pos : ChildPos) :
    Option.Rel Models (n.getChildByPos pos) (m.getChildByPos pos) := by
  rw [← h.erase, getChildByPos_erase]
  cases hc : n.getChildByPos pos with
  | none => exact .none
  | some c => exact .some (h.child (mem_children_of_getChildByPos hc)).1

/-- Reading a child that has to be there. -/
theorem settles_unwrap {γ δ : Type} {o : Option (Node T)} {o' : Option (Trie.Node T)}
    (ho : Option.Rel Models o o') {f : Node T → Own T γ} {q : Trie.Node T → Rust δ}
    {given : Holding T} {own : γ → Holding T} {S : γ → δ → Prop}
    (hf : ∀ c c', o = some c → o' = some c' → c.Models c' →
      Settles (f c) given (Raw.lift (q c')) own S) :
    Settles (Own.lift (Rust.unwrap o) >>= f) given (Raw.lift (Rust.unwrap o' >>= q)) own S := by
  cases ho with
  | none => exact fun l _ _ _ => rfl
  | some hc => exact hf _ _ rfl rfl hc

/-! ## Writing a child back

What a node owns is what one child owns and the rest. Writing another child in its place changes
the first part only. -/

/-- What the node owns apart from the child at a position. -/
def holdingBut (n : Node T) (pos : ChildPos) : Holding T :=
  match n with
  | leaf pt _ h => Holding.block pt + h.val.holding
  | internal pt _ h bitmap cs =>
    Holding.block pt + h.val.holding + holdingAll (cs.eraseIdx (bitmap.childIdx pos))

/-- **The child read at a position is the one written back.** -/
theorem holding_setChildByPos {n c : Node T} {pos : ChildPos} (hc : n.getChildByPos pos = some c)
    (c' : Node T) :
    (n.setChildByPos pos c').holding = c'.holding + n.holdingBut pos
      ∧ n.holding = c.holding + n.holdingBut pos
      ∧ (n.setChildByPos pos c').getChildByPos pos = some c' := by
  cases n with
  | leaf pt tag h => cases hc
  | internal pt tag h bitmap cs =>
    rw [getChildByPos, BoundedRawVec.get] at hc
    split_ifs at hc with hlen
    obtain ⟨hidx, rfl⟩ := List.getElem?_eq_some_iff.mp hc
    have hset := holdingAll_perm (List.set_perm_cons_eraseIdx hidx c')
    have hget := holdingAll_perm (List.getElem_cons_eraseIdx_perm hidx)
    refine ⟨?_, ?_, ?_⟩
    · rw [setChildByPos, holding, hset, holdingAll, holdingBut, add_left_comm]
    · rw [holding, ← hget, holdingAll, holdingBut, add_left_comm]
    · rw [setChildByPos, getChildByPos, BoundedRawVec.get, if_neg hlen,
        List.getElem?_set_self hidx]

/-! ## The value of a node

Setting a value drops the one that was there; taking it leaves the slot empty. In both the tag
goes along. -/

section Value

variable {n : Node T} {m : Trie.Node T}

/-- **A new leaf** owns its block. -/
theorem settles_new [Target] (data : Bytes) :
    Settles (new data : Own T (Node T)) 0 (Raw.lift (Trie.Node.new data)) holding Models := by
  rw [new, newLeaf, Trie.Node.new, Raw.lift_bind]
  refine Settles.lift_bind fun pfx _ => ?_
  refine Settles.bindLeft (zero_add 0).symm Settles.alloc fun pt _ => ?_
  exact Settles.ret rfl ⟨.intro rfl (List.forall_mem_nil _), rfl⟩

/-- The value in the slot, as the node without a slot has it. -/
theorem val_of_slot (h : n.Models m) : m.val = n.header.val.toOption := by
  rw [← h.erase, Trie.Node.val, header_erase]
  rfl

/-- Another prefix. -/
theorem Models.setPfx (h : n.Models m) (p : Prefix) : (n.setPfx p).Models (m.setPfx p) :=
  ⟨h.tagged.setPfx p, by rw [erase_setPfx, h.erase]⟩

theorem holding_setHeader (n : Node T) (tag : Bool) (h : Header T) :
    (n.setHeader tag h).holding = Holding.block n.pt + h.val.holding + holdingAll n.children := by
  cases n with
  | leaf pt _ _ => exact (add_zero _).symm
  | internal pt _ _ bitmap cs => rfl

theorem holding_setPfx (n : Node T) (p : Prefix) : (n.setPfx p).holding = n.holding := by
  rw [setPfx, holding_setHeader, ← holding_eq]

/-- **Taking the value** moves it out of the node. -/
theorem settles_takeVal (h : n.Models m) :
    Settles n.takeVal n.holding (.ok m.takeVal)
      (fun r => Holding.option Holding.value r.1 + r.2.holding)
      fun r r' => r.1 = r'.1 ∧ r.2.Models r'.2 ∧ (r.1 = none → r.2 = n) := by
  have hval := val_of_slot h
  have htag := h.tagged.self
  rw [holding_eq]
  cases hslot : n.header.val with
  | vacant =>
    rw [hslot] at htag hval
    have hm : m.takeVal.2 = m := by
      obtain ⟨⟨p, v⟩⟩ | ⟨⟨p, v⟩, bitmap, cs⟩ := m <;> obtain rfl : v = none := hval <;> rfl
    have htake : n.takeVal = pure (none, n) := if_neg (by rw [htag]; exact Bool.false_ne_true)
    rw [htake, ← hslot, ← holding_eq]
    exact Settles.ret (zero_add _).symm ⟨hval.symm, by rw [hm]; exact h, fun _ => rfl⟩
  | live v =>
    rw [hslot] at htag hval
    have htake : n.takeVal
        = pure (some v, n.setHeader false { n.header with val := .vacant }) := by
      unfold takeVal
      rw [if_pos (by rw [htag]; rfl), hslot]
      rfl
    have hmodels : (n.setHeader false { n.header with val := .vacant }).Models m.takeVal.2 := by
      refine ⟨h.tagged.setHeader rfl, ?_⟩
      rw [erase_setHeader, h.erase, Trie.Node.takeVal, ← h.erase, header_erase]
      rfl
    rw [htake]
    refine Settles.ret ?_ ⟨hval.symm, hmodels, fun h => absurd h (Option.some_ne_none v)⟩
    rw [holding_setHeader]
    show Holding.block n.pt + Holding.value v + _ = Holding.value v + (Holding.block n.pt + 0 + _)
    rw [add_zero, ← add_assoc, add_comm (Holding.value v)]

/-- **Setting the value** drops the one before it. -/
theorem settles_setVal (h : n.Models m) (v : T) :
    Settles (n.setVal v) (Holding.value v + n.holding) (.ok (m.setVal v)) holding Models := by
  have htag := h.tagged.self
  have hmodels : (n.setHeader true { n.header with val := .live v }).Models (m.setVal v) := by
    refine ⟨h.tagged.setHeader rfl, ?_⟩
    rw [erase_setHeader, h.erase, Trie.Node.setVal, ← h.erase, header_erase]
    rfl
  have hheld : Holding.value v + (Holding.block n.pt + holdingAll n.children)
      = (n.setHeader true { n.header with val := .live v }).holding := by
    rw [holding_setHeader, ← add_assoc, add_comm (Holding.value v)]
    rfl
  rw [holding_eq]
  cases hslot : n.header.val with
  | vacant =>
    rw [hslot] at htag
    have hset : n.setVal v = pure (n.setHeader true { n.header with val := .live v }) := by
      rw [setVal, if_neg (by rw [htag]; exact Bool.false_ne_true)]
      rfl
    rw [hset]
    refine Settles.ret ?_ hmodels
    rw [← hheld]
    exact congrArg (fun d => Holding.value v + (d + _)) (add_zero _)
  | live w =>
    rw [hslot] at htag
    have hset : n.setVal v = Owning.dispose w >>= fun _ =>
        pure (n.setHeader true { n.header with val := .live v }) := by
      rw [setVal, if_pos (by rw [htag]; rfl), hslot]
      rfl
    have hgiven : Holding.value v + (Holding.block n.pt + Holding.value w + holdingAll n.children)
        = Holding.value w + (Holding.value v + (Holding.block n.pt + holdingAll n.children)) := by
      abel
    rw [hset]
    refine Settles.bindLeft hgiven (Settles.dispose w) fun _ _ => Settles.ret ?_ hmodels
    rw [zero_add, hheld]

end Value

/-! ## The children of a node

The bitmap and the vector have to agree for what is inserted and removed to be what is counted.
A leaf that gets a child takes a new block, and its old one is freed. -/

/-- The bits below a position are some of all the bits. -/
theorem childIdx_le_lenChildren (bitmap : Bitmap) (pos : ChildPos) :
    bitmap.childIdx pos ≤ bitmap.lenChildren := by
  have hlt : pos.toNat ≤ 256 := by
    have hidx := pos.idx.isLt
    have hbit := pos.bit.isLt
    rw [ChildPos.toNat]
    omega
  rw [Bitmap.childIdx_eq_count, Bitmap.lenChildren_eq_count]
  exact Nat.count_monotone _ hlt

section Children

variable {n c : Node T} {m d : Trie.Node T}

/-- **A leaf that becomes an internal node** gives its block back, and keeps its
value. -/
theorem settles_upgradeToInternal (h : n.Models m) :
    Settles n.upgradeToInternal n.holding (.ok m.upgradeToInternal) holding
      fun n' m' => n'.Models m'
        ∧ ∃ pt tag hdr bitmap, n' = internal pt tag hdr bitmap n.children := by
  obtain ⟨htagged, rfl⟩ := h
  cases n with
  | internal pt tag hdr bitmap cs =>
    exact Settles.ret rfl ⟨⟨htagged, rfl⟩, pt, tag, hdr, bitmap, rfl⟩
  | leaf pt tag hdr =>
    refine Settles.bindLeft rfl (Settles.free _ pt) fun _ _ => ?_
    refine Settles.bindLeft (zero_add _).symm Settles.alloc fun pt' _ => Settles.ret ?_ ?_
    · exact (congrArg (_ + ·) (zero_add _)).trans (add_zero _).symm
    · exact ⟨⟨.intro htagged.self (List.forall_mem_nil _), rfl⟩, pt', tag, hdr, _, rfl⟩

/-- Insertion into a mapped vector. -/
theorem insert_map {α β : Type} (f : α → β) (cs : List α) (i : ℕ) (c : α) (len : ℕ) :
    BoundedRawVec.insert (cs.map f) i (f c) len
      = (BoundedRawVec.insert cs i c len).map (List.map f) := by
  unfold BoundedRawVec.insert
  split_ifs
  · rfl
  · exact congrArg Except.ok (List.map_insertIdx f cs i c).symm

/-- Insertion into an internal node. -/
theorem insertChild_internal (hdr : Trie.Header T) (bitmap : Bitmap) (cs : List (Trie.Node T))
    (pos : ChildPos) (d : Trie.Node T) :
    (Trie.Node.internal hdr bitmap cs).insertChild pos d = (do
      let cs ← BoundedRawVec.insert cs (bitmap.childIdx pos) d bitmap.lenChildren
      return .internal hdr (bitmap.set pos) cs) := rfl

/-- **Inserting a child** moves it into the node. -/
theorem settles_insertChild (hn : n.Models m) (hc : c.Models d)
    (hcounted : m.Counted) (pos : ChildPos) :
    Settles (n.insertChild pos c) (c.holding + n.holding) (Raw.lift (m.insertChild pos d)) holding
      Models := by
  have hpure : Raw.lift (m.insertChild pos d)
      = (Except.ok m.upgradeToInternal : Raw (Trie.Node T)) >>= fun m' =>
        Raw.lift (m'.insertChild pos d) := by
    cases m <;> rfl
  rw [hpure]
  refine Settles.bind (add_comm _ _) (settles_upgradeToInternal hn) ?_
  rintro n' m' hm' ⟨⟨htagged, herase⟩, pt, tag, hdr, bitmap, rfl⟩
  have hcount' := hcounted.upgradeToInternal.self
  rw [Except.ok.inj hm', ← herase, children_erase, List.length_map] at hcount'
  have hle := childIdx_le_lenChildren bitmap pos
  obtain rfl := hc.erase
  rw [← herase, erase, eraseAll_eq]
  dsimp only
  have hins : vecInsert n.children (bitmap.childIdx pos) c bitmap.lenChildren
      = Own.lift (BoundedRawVec.insert n.children (bitmap.childIdx pos) c bitmap.lenChildren) :=
    if_pos ⟨hcount', hle⟩
  rw [hins, insertChild_internal, insert_map]
  cases hvec : BoundedRawVec.insert n.children (bitmap.childIdx pos) c bitmap.lenChildren with
  | error e => exact fun l _ _ _ => rfl
  | ok cs =>
    have hcs : cs.Perm (c :: n.children) := by
      rw [BoundedRawVec.insert] at hvec
      split_ifs at hvec
      obtain rfl := Except.ok.inj hvec
      exact List.perm_insertIdx c n.children (hle.trans hcount'.le)
    refine Settles.ret ?_ ⟨.intro htagged.self fun x hx => ?_, ?_⟩
    · rw [holding, holding, holdingAll_perm hcs, holdingAll]
      abel
    · rcases List.mem_cons.mp (hcs.mem_iff.mp hx) with rfl | hx
      · exact hc.tagged
      · exact htagged.child hx
    · rw [erase, eraseAll_eq]

/-- **Removing a child** moves it out of the node. -/
theorem settles_removeChild (hn : n.Models m) (hcounted : m.Counted) (pos : ChildPos) :
    Settles (n.removeChild pos) n.holding (.ok (m.removeChild pos))
      (fun r => Holding.option holding r.1 + r.2.holding)
      fun r r' => Option.Rel Models r.1 r'.1 ∧ r.2.Models r'.2 := by
  obtain ⟨htagged, rfl⟩ := hn
  cases n with
  | leaf pt tag h => exact Settles.ret (zero_add _).symm ⟨.none, htagged, rfl⟩
  | internal pt tag h bitmap cs =>
    have hcount := hcounted.self
    rw [children_erase, List.length_map, lenChildren_erase] at hcount
    replace hcount : bitmap.lenChildren = cs.length := hcount
    have hrem : (internal pt tag h bitmap cs).removeChild pos
        = pure ((BoundedRawVec.remove cs (bitmap.childIdx pos) bitmap.lenChildren).1,
          internal pt tag h (bitmap.clear pos)
            (BoundedRawVec.remove cs (bitmap.childIdx pos) bitmap.lenChildren).2) := by
      rw [removeChild, vecRemove, if_pos hcount]
      rfl
    rw [hrem]
    by_cases hle : bitmap.lenChildren ≤ bitmap.childIdx pos
    · have hnone : BoundedRawVec.remove cs (bitmap.childIdx pos) bitmap.lenChildren = (none, cs) :=
        if_pos hle
      rw [hnone, erase, Trie.Node.removeChild, BoundedRawVec.remove, if_pos hle]
      refine Settles.ret (zero_add _).symm
        ⟨.none, .intro htagged.self fun x hx => htagged.child hx, ?_⟩
      rfl
    · have hidx : bitmap.childIdx pos < cs.length := by
        omega
      have hsome : BoundedRawVec.remove cs (bitmap.childIdx pos) bitmap.lenChildren
          = (some cs[bitmap.childIdx pos], cs.eraseIdx (bitmap.childIdx pos)) := by
        rw [BoundedRawVec.remove, if_neg hle, List.getElem?_eq_getElem hidx]
      have hget := holdingAll_perm (List.getElem_cons_eraseIdx_perm hidx)
      rw [hsome, erase, Trie.Node.removeChild, BoundedRawVec.remove, if_neg hle, eraseAll_eq,
        List.getElem?_map, List.getElem?_eq_getElem hidx]
      refine Settles.ret ?_ ⟨.some ⟨htagged.child (List.getElem_mem hidx), rfl⟩,
        .intro htagged.self fun x hx => htagged.child (List.mem_of_mem_eraseIdx hx), ?_⟩
      · rw [holding, ← hget, holdingAll]
        exact add_left_comm _ _ _
      · rw [erase, eraseAll_eq]
        exact congrArg (Trie.Node.internal _ _) (List.eraseIdx_map erase cs _).symm

/-! ## The end of a node

Everything that is owned ends with the node, by induction over the tree. A drop goes over as many
children as the bitmap counts, which are all there are. -/

/-- What a program that ends a node leaves. -/
def EndsOf (n : Node T) : Prop :=
  Settles n.drop n.holding (.ok ()) (fun _ => 0) fun _ (_ : Unit) => True

theorem settles_deallocate {cs : List (Node T)} (h : ∀ c ∈ cs, c.EndsOf) :
    Settles (deallocate cs cs.length) (holdingAll cs) (.ok ()) (fun _ => 0)
      fun _ (_ : Unit) => True := by
  induction cs with
  | nil => exact Settles.ret rfl trivial
  | cons c cs ih =>
    refine Settles.bindLeft rfl (h c List.mem_cons_self) fun _ _ => ?_
    rw [zero_add]
    exact ih fun x hx => h x (List.mem_cons_of_mem _ hx)

/-- The value is dropped when the tag is set, which is when there is one. -/
theorem settles_dropVal {tag : Bool} {slot : Slot T} (h : tag = slot.isLive) :
    Settles (dropVal tag slot) slot.holding (.ok ()) (fun _ => 0) fun _ (_ : Unit) => True := by
  cases slot with
  | vacant =>
    obtain rfl : tag = false := h
    exact Settles.ret rfl trivial
  | live v =>
    obtain rfl : tag = true := h
    have hdrop : dropVal true (.live v) = (Owning.dispose v : Own T Unit) := rfl
    rw [hdrop]
    exact Settles.dispose v

/-- **Dropping a node** drops its value and the values below it, and frees its block and
those of the nodes below. -/
theorem Tagged.ends (h : n.Tagged) (hcounted : n.erase.Counted) : n.EndsOf := by
  induction h with
  | @intro n hself hchildren ih =>
    cases n with
    | leaf pt tag hdr =>
      refine Settles.bindLeft (add_comm _ _) (settles_dropVal hself) fun _ _ => ?_
      rw [zero_add]
      exact Settles.free _ _
    | internal pt tag hdr bitmap cs =>
      have hcount : bitmap.lenChildren = cs.length := by
        have hlen := hcounted.self
        rwa [children_erase, List.length_map] at hlen
      have hmodels : (internal pt tag hdr bitmap cs).Models _ := ⟨.intro hself hchildren, rfl⟩
      have hchild : ∀ c ∈ cs, c.EndsOf := fun c hc =>
        ih c hc (hcounted.child (hmodels.child hc).2)
      have hgiven : (internal pt tag hdr bitmap cs).holding
          = hdr.val.holding + (holdingAll cs + Holding.block pt) := by
        rw [holding]
        abel
      refine Settles.bindLeft hgiven (settles_dropVal hself) fun _ _ => ?_
      refine Settles.bindLeft (zero_add _) (hcount ▸ settles_deallocate hchild) fun _ _ => ?_
      rw [zero_add]
      exact Settles.free _ _

theorem settles_dropOption {o : Option (Node T)} (h : ∀ n, o = some n → n.EndsOf) :
    Settles (dropOption o) (Holding.option holding o) (.ok ()) (fun _ => 0)
      fun _ (_ : Unit) => True := by
  cases o with
  | none => exact Settles.ret rfl trivial
  | some n => exact h n rfl

/-- **A transfer** moves the children of a node to another, and ends those that this
one had. -/
theorem settles_transferChildren {o : Node T} {k : Trie.Node T} (hn : n.Models m)
    (ho : o.Models k) (hcounted : k.Counted) :
    Settles (n.transferChildren o) (n.holding + o.holding) (.ok (m.transferChildren k))
      (fun r => r.1.holding + r.2.holding) fun r r' => r.1.Models r'.1 ∧ r.2.Models r'.2 := by
  obtain ⟨htagged, rfl⟩ := hn
  cases n with
  | leaf pt tag h => exact Settles.ret rfl ⟨⟨htagged, rfl⟩, ho⟩
  | internal pt tag h bitmap cs =>
    have hends : ∀ c ∈ o.children, c.EndsOf := fun c hc =>
      (ho.tagged.child hc).ends (hcounted.child (ho.child hc).2)
    have hcount := hcounted.upgradeToInternal.self
    refine Settles.bindLeft (add_comm _ _) (settles_upgradeToInternal ho) ?_
    rintro o' ⟨⟨htagged', herase⟩, pt', tag', hdr', bitmap', rfl⟩
    rw [← herase, children_erase, List.length_map] at hcount
    replace hcount : bitmap'.lenChildren = o.children.length := hcount
    have hgiven : (internal pt' tag' hdr' bitmap' o.children).holding
          + (internal pt tag h bitmap cs).holding
        = holdingAll o.children + (Holding.block pt' + hdr'.val.holding
          + (internal pt tag h bitmap cs).holding) := by
      rw [holding]
      abel
    refine Settles.bindLeft hgiven (hcount ▸ settles_deallocate hends) fun _ _ => ?_
    have hheader : hdr'.erase = k.header := by
      have := congrArg Trie.Node.header herase
      rw [erase] at this
      exact this.trans (by cases k <;> rfl)
    refine Settles.ret ?_ ⟨⟨.intro htagged.self (List.forall_mem_nil _), ?_⟩,
      .intro htagged'.self (fun x hx => htagged.child hx), ?_⟩
    · simp only [holding, holdingAll]
      abel
    · rfl
    · rw [erase, hheader]
      rfl

end Children

end Node

end Owned

end Trie
