import Algors.Trie.Lookup

/-!
# Insertion

`insert` binds the key to the value and changes no other entry, keeps the
tree well formed, and keeps every node full that was: the node a split leaves
without a value and with one child is given a value or a second child in the
same turn.

What an insertion changes is said on the entries of a node, its keys with the
values below it: `EntriesUpdate` binds one key and leaves every other as it is.
Such an update of a child is one of the node, under the longer key, and so the
induction goes down the walk with nothing said about how the tree looks.

The prefixes that are made on the way are parts of a stored prefix or of the key,
so that they are no longer than `room`, the longest of both. Where a prefix of such
a length does not fit, the call may panic in one of the two constructors; `Returns`
allows for that panic and for no other.
-/

variable [Target]

namespace Trie

variable {T : Type}

namespace TrieMap

open Node

/-! ## A split

The code makes the two prefixes, empties the node into a new one and puts the new
one below it. It does so for a leaf and for an internal node by the same calls; an
emptied leaf becomes internal when the child is put in. -/

/-- **What a split leaves**: the node keeps the common part of its prefix and
has one child `s`, which has the rest of the prefix, the value and the
children. -/
structure SplitInto (n : Node T) (m : ℕ) (s n' : Node T) : Prop where
  rest : s.pfx.bytes = n.pfx.bytes.drop m
  rest_val : s.val = n.val
  rest_children : s.children = n.children
  rest_agrees : s.Agrees
  pfx : n'.pfx.bytes = n.pfx.bytes.take m
  val : n'.val = none
  children : n'.children = [s]
  agrees : n'.Agrees

/-- **A split** of a node whose prefix goes on past the common part. The new child is
found by the first byte of the rest of the prefix, which is there for that reason. -/
theorem split_spec {room m : ℕ} {n : Node T} (hwf : Wf room n) (hm : m < n.pfx.bytes.length) :
    Returns room (split n m) fun n' => ∃ s, SplitInto n m s n' := by
  have hlen := hwf.len_le
  obtain ⟨b, bs, hb⟩ : ∃ b bs, n.pfx.bytes.drop m = b :: bs :=
    List.exists_cons_of_ne_nil (by rw [Ne, List.drop_eq_nil_iff]; omega)
  -- the two prefixes are made first
  simp only [split, Rust.sliceFrom_eq_ok hm.le, Rust.ok_bind, pfx_takeVal,
    Rust.sliceTo_eq_ok hm.le, takeVal_fst]
  refine (Node.returns_new (by rw [List.length_drop]; omega)).bind ?_
  rintro _ ⟨pfxS, hpfxS, rfl⟩
  refine (Returns.new (by rw [List.length_take]; omega)).bind fun pfxN hpfxN => ?_
  -- then the new node goes into the emptied one, whatever kind it is
  have main : ∀ s n₀ : Node T, s.pfx = pfxS → s.val = n.val → s.children = n.children →
      s.Agrees → n₀.header = ⟨pfxN, none⟩ → n₀.children = [] → n₀.Agrees →
      Returns room (do let b ← s.pfx.firstByte; n₀.insertChild (childPosFromByte b) s)
        fun n' => ∃ s, SplitInto n m s n' := by
    intro s n₀ hs hsval hscs hsag hhdr hcs hag
    have hsb : s.pfx.bytes = b :: bs := by rw [hs, hpfxS, hb]
    obtain ⟨n', hn', hhdr', hag', hlen', hmem⟩ := hag.insertChild (b := b)
      (by simp [hcs]) (show s.pfx.bytes ≠ [] by simp [hsb]) (key_eq_of_pfx hsb)
    rw [hcs, List.length_nil, Nat.zero_add, List.length_eq_one_iff] at hlen'
    obtain ⟨x, hx⟩ := hlen'
    have hxs : s ∈ n'.children := (hmem s).mpr (Or.inl rfl)
    rw [hx, List.mem_singleton] at hxs
    simp only [Prefix.firstByte, hsb, Rust.ok_bind, hn']
    exact ⟨s, by rw [hs, hpfxS], hsval, hscs, hsag, by rw [Node.pfx, hhdr', hhdr, hpfxN],
      by rw [Node.val, hhdr', hhdr], by rw [hx, hxs], hag'⟩
  cases n with
  | leaf h =>
    obtain ⟨p, v⟩ := h
    cases v <;> exact main _ _ rfl rfl rfl trivial rfl rfl trivial
  | internal h bitmap cs =>
    obtain ⟨p, v⟩ := h
    cases v <;> exact main _ _ rfl rfl rfl hwf.agrees rfl rfl ChildrenAgree.nil

omit [Target] in
/-- **A split moves entries, and changes none.** -/
theorem mem_entries_split {n n' s : Node T} {m : ℕ} (hs : s.pfx.bytes = n.pfx.bytes.drop m)
    (hsval : s.val = n.val) (hscs : s.children = n.children)
    (hpfx : n'.pfx.bytes = n.pfx.bytes.take m) (hval : n'.val = none) (hcs : n'.children = [s])
    (e : Bytes × T) : e ∈ n'.entries ↔ e ∈ n.entries := by
  obtain ⟨k, v⟩ := e
  have hcat : n'.pfx.bytes ++ s.pfx.bytes = n.pfx.bytes := by
    rw [hpfx, hs, List.take_append_drop]
  rw [mem_entries, mem_entries (n := n), hval, hcs]
  simp only [List.mem_singleton, exists_eq_left, mem_entries (n := s), hsval, hscs, reduceCtorEq,
    false_and, false_or]
  constructor
  -- either the child's own value, or an entry of one of its children
  · rintro ⟨k', rfl, ⟨hv, rfl⟩ | ⟨c, hc, k'', rfl, he⟩⟩
    · exact Or.inl ⟨hv, hcat⟩
    · exact Or.inr ⟨c, hc, k'', by rw [← List.append_assoc, hcat], he⟩
  · rintro (⟨hv, rfl⟩ | ⟨c, hc, k'', rfl, he⟩)
    · exact ⟨s.pfx.bytes, hcat.symm, Or.inl ⟨hv, rfl⟩⟩
    · exact ⟨s.pfx.bytes ++ k'', by rw [← List.append_assoc, hcat],
        Or.inr ⟨c, hc, k'', rfl, he⟩⟩

namespace SplitInto

variable {n s n' : Node T} {m : ℕ} (h : SplitInto n m s n')

omit [Target]

include h

/-- The entries are those of the node before. -/
theorem mem_entries (e : Bytes × T) : e ∈ n'.entries ↔ e ∈ n.entries :=
  mem_entries_split h.rest h.rest_val h.rest_children h.pfx h.val h.children e

/-- A split node is well formed again. The new child has what was left of the room
behind the common part, and its children are where they were, as far down. -/
theorem wf {room : ℕ} (hwf : Wf room n) (hm : m < n.pfx.bytes.length) : Wf room n' := by
  have hlen := hwf.len_le
  have hroom : room - m - (n.pfx.bytes.drop m).length = room - n.pfx.bytes.length := by
    rw [List.length_drop]
    omega
  have hswf : Wf (room - m) s := by
    refine Wf.intro (by rw [h.rest, List.length_drop]; omega) h.rest_agrees fun c hc => ?_
    rw [h.rest, hroom]
    exact hwf.child (h.rest_children ▸ hc)
  refine Wf.intro (by rw [h.pfx, List.length_take]; omega) h.agrees fun c hc => ?_
  rw [h.children, List.mem_singleton] at hc
  rw [hc, h.pfx, List.length_take, Nat.min_eq_left hm.le]
  exact hswf

/-- The child of a split node is as full as the node was. -/
theorem full_children {k : ℕ} (hfull : Full k n) : ∀ c ∈ n'.children, Full k c := by
  rw [h.children]
  intro c hc
  obtain rfl := List.mem_singleton.mp hc
  exact Full.intro (by simpa [hasVal, h.rest_val, h.rest_children] using hfull.self) fun c hc =>
    hfull.child (h.rest_children ▸ hc)

/-- Data that goes on after the common part goes on with another byte than the
child. -/
theorem absent {data bs : Bytes} {b : UInt8} (hm : m < n.pfx.bytes.length)
    (hlcp : m = lcpLen n.pfx.bytes data) (hdata : data = n'.pfx.bytes ++ b :: bs) :
    ∀ c ∈ n'.children, c.key ≠ b.toNat := by
  intro c hc hkey
  rw [h.children, List.mem_singleton] at hc
  have hlen : n'.pfx.bytes.length = m := by
    rw [h.pfx, List.length_take, Nat.min_eq_left hm.le]
  have hlt : m < data.length := by
    rw [hdata, List.length_append, List.length_cons]
    omega
  have hb : data[m] = b := by
    simp only [hdata, ← hlen, List.getElem_append_right le_rfl, Nat.sub_self,
      List.getElem_cons_zero]
  have hhead : s.pfx.bytes = n.pfx.bytes[m] :: n.pfx.bytes.drop (m + 1) := by
    rw [h.rest, List.drop_eq_getElem_cons hm]
  subst hlcp
  rw [hc, key_eq_of_pfx hhead, UInt8.toNat_inj, ← hb] at hkey
  exact getElem_lcpLen_ne hm hlt hkey

end SplitInto

/-! ## A new leaf

Where the key goes on with a byte for which there is no child, the rest of it becomes
the prefix of a new one. -/

/-- **What a new leaf makes of a node**: the data is bound past the node's
prefix, and there is one child more. -/
structure LeafAdded (room : ℕ) (n : Node T) (data : Bytes) (val : T) (n' : Node T) : Prop where
  wf : Wf room n'
  pfx_eq : n'.pfx = n.pfx
  val_eq : n'.val = n.val
  update : EntriesUpdate n n' (n.pfx.bytes ++ data) (some val)
  length : n'.children.length = n.children.length + 1
  children : ∀ c ∈ n'.children, c ∈ n.children ∨ ∀ m, Full m c

/-- **A new leaf for an absent byte.** -/
theorem insertLeaf_spec {room : ℕ} {n : Node T} {b : UInt8} {bs : Bytes} (hwf : Wf room n)
    (hlen : (n.pfx.bytes ++ b :: bs).length ≤ room)
    (habsent : ∀ c ∈ n.children, c.key ≠ b.toNat) (val : T) :
    Returns room (do
        let newChild ← Node.new (b :: bs)
        n.insertChild (childPosFromByte b) (newChild.setVal val))
      (LeafAdded room n (b :: bs) val) := by
  rw [List.length_append] at hlen
  refine (Node.returns_new (by omega)).bind ?_
  rintro _ ⟨p, hp, rfl⟩
  set child : Node T := (leaf ⟨p, none⟩).setVal val with hchild
  have hpfx : child.pfx.bytes = b :: bs := hp
  obtain ⟨n', hn', hhdr, hag, hcount, hmem⟩ := hwf.agrees.insertChild (b := b)
    habsent (show child.pfx.bytes ≠ [] by simp [hpfx]) (key_eq_of_pfx hpfx)
  have hpfx' : n'.pfx = n.pfx := by rw [pfx, hhdr]; rfl
  have hval' : n'.val = n.val := by rw [Node.val, hhdr]; rfl
  rw [show n.insertChild _ _ = _ from hn']
  refine ⟨?_, hpfx', hval', ?_, hcount, fun c hc => ?_⟩
  · -- the children are the old ones and the leaf, each within the room
    refine Wf.intro (hpfx' ▸ hwf.len_le) hag fun c hc => hpfx' ▸ ?_
    rcases (hmem c).mp hc with rfl | hc
    · exact wf_leaf (by change p.bytes.length ≤ _; rw [hp]; omega)
    · exact hwf.child hc
  · -- the new child has the one entry `b :: bs`
    intro k v
    have hentries : ∀ k', (k', v) ∈ child.entries ↔ k' = b :: bs ∧ some val = some v := by
      intro k'
      rw [mem_entries_of_children_eq_nil (by rfl), hpfx, and_comm]
      rfl
    have hold : ∀ k', (k', v) ∈ child.entries → (n.pfx.bytes ++ k', v) ∉ n.entries := by
      intro k' he
      rw [((hentries k').mp he).1, hwf.agrees.mem_entries_cons]
      rintro ⟨c, hc, hkey, _⟩
      exact habsent c hc hkey
    rw [mem_entries, hval', hpfx']
    simp only [hmem, or_and_right, exists_or, exists_eq_left]
    rw [or_left_comm, ← mem_entries (n := n)]
    constructor
    · rintro (⟨k', rfl, he⟩ | he)
      · obtain ⟨rfl, hv⟩ := (hentries k').mp he
        exact Or.inl ⟨rfl, hv⟩
      · refine Or.inr ⟨?_, he⟩
        rintro rfl
        obtain ⟨c, hc, hkey, _⟩ := hwf.agrees.mem_entries_cons.mp he
        exact habsent c hc hkey
    · rintro (⟨rfl, hv⟩ | ⟨_, he⟩)
      · exact Or.inl ⟨_, rfl, (hentries _).mpr ⟨rfl, hv⟩⟩
      · exact Or.inr he
  · -- a leaf with a value is as full as can be
    rcases (hmem c).mp hc with rfl | hc
    · exact Or.inr fun m => Full.setVal (fun c hc => by cases hc) val
    · exact Or.inl hc

/-! ## The loop

By induction on the fuel, of which there is enough for the rest of the key. A turn
ends at the node, by a split, a new value or a new leaf, or goes on at the child for
the next byte. The child comes back with its first byte unchanged, so that it can be
put where it was. -/

/-- **What the loop of `insert` makes of a node.** Its prefix is cut down to what it
shares with the key, if it is longer. -/
structure Inserted (room : ℕ) (n : Node T) (data : Bytes) (val : T) (n' : Node T) : Prop where
  wf : Wf room n'
  update : EntriesUpdate n n' data (some val)
  pfx : n'.pfx.bytes = n.pfx.bytes.take (lcpLen n.pfx.bytes data)
  full : ∀ m ≤ 2, Full m n → Full m n'

omit [Target] in
theorem lcpLen_append_right (p : Bytes) (k : Bytes) : lcpLen p (p ++ k) = p.length :=
  lcpLen_eq_length_left.mpr (List.prefix_append p k)

omit [Target] in
/-- The child an insertion went into keeps its first byte. -/
theorem Inserted.exists_pfx {room : ℕ} {c c' : Node T} {b : UInt8} {bs : Bytes} {val : T}
    (h : Inserted room c (b :: bs) val c') (hne : c.pfx.bytes ≠ []) (hkey : c.key = b.toNat) :
    ∃ t, c'.pfx.bytes = b :: t := by
  obtain ⟨t, ht⟩ := exists_pfx_of_key_eq hne hkey
  refine ⟨t.take (lcpLen t bs), ?_⟩
  rw [h.pfx, ht, lcpLen_cons_self, List.take_succ_cons]

/-- **The turn that splits a node** is the last one: the data ends where the
node was split, or goes on with a byte that is not there. -/
theorem insertLoop_split {room : ℕ} {n : Node T} {data : Bytes} (hwf : Wf room n)
    (hdata : data.length ≤ room) (hm : lcpLen n.pfx.bytes data < n.pfx.bytes.length) (val : T)
    (fuel : ℕ) : Returns room (insertLoop (fuel + 1) n data val) (Inserted room n data val) := by
  simp only [insertLoop, Util.lcp_eq_lcpLen, Prefix.len, if_pos hm]
  refine (split_spec hwf hm).bind ?_
  rintro n₁ ⟨s, hsplit⟩
  have hwf₁ := hsplit.wf hwf hm
  have hdata₁ : data = n₁.pfx.bytes ++ data.drop (lcpLen n.pfx.bytes data) := by
    rw [hsplit.pfx, take_lcpLen, List.take_append_drop]
  by_cases hend : lcpLen n.pfx.bytes data = data.length
  · -- the key ends at the split, and the value makes the node full
    rw [if_pos hend]
    rw [hend, List.drop_length, List.append_nil] at hdata₁
    refine ⟨hwf₁.setVal val, ?_, by rw [pfx_setVal, hsplit.pfx],
      fun k _ h => Full.setVal (hsplit.full_children h) val⟩
    rw [hdata₁]
    exact (EntriesUpdate.setHeader hwf₁.agrees).congr_left hsplit.mem_entries
  · -- the key goes on, and its leaf is the second child
    have hlt : lcpLen n.pfx.bytes data < data.length := lt_of_le_of_ne (lcpLen_le_right _ _) hend
    obtain ⟨b, bs, hbs⟩ : ∃ b bs, data.drop (lcpLen n.pfx.bytes data) = b :: bs :=
      List.exists_cons_of_ne_nil (by rw [Ne, List.drop_eq_nil_iff]; omega)
    rw [hbs] at hdata₁
    have habsent := hsplit.absent hm rfl hdata₁
    have hexists : n₁.childExists (childPosFromByte b) = false :=
      Bool.eq_false_iff.mpr fun h => by
        obtain ⟨c, hc, hkey⟩ := (hsplit.agrees.childExists_iff b).mp h
        exact habsent c hc hkey
    simp only [if_neg hend, Rust.sliceFrom_eq_ok hlt.le, hbs, Rust.ok_bind, Rust.index,
      List.getElem?_cons_zero, hexists, Bool.false_eq_true, if_false]
    refine (insertLeaf_spec hwf₁ (hdata₁ ▸ hdata) habsent val).imp fun n' h' =>
      ⟨h'.wf, ?_, by rw [h'.pfx_eq, hsplit.pfx],
        fun k hk h => Full.intro (Or.inr ?_) fun c hc => ?_⟩
    · have hupdate := h'.update.congr_left hsplit.mem_entries
      rwa [← hdata₁] at hupdate
    · rw [h'.length, hsplit.children]
      simpa using hk
    · rcases h'.children c hc with hc | hfull
      · exact hsplit.full_children h c hc
      · exact hfull k

/-- **The loop of `insert`** binds the key, by the four ways a turn of a walk can go. -/
theorem insertLoop_spec {fuel room : ℕ} {n : Node T} {data : Bytes} (hwf : Wf room n)
    (hdata : data.length ≤ room) (hfuel : Enough fuel n data) (val : T) :
    Returns room (insertLoop fuel n data val) (Inserted room n data val) := by
  induction fuel generalizing room n data with
  | zero => exact absurd hfuel.1 (lt_irrefl 0)
  | succ fuel ih =>
    cases walkStep hwf hfuel with
    | mismatch hlcp hpre =>
      have hm : lcpLen n.pfx.bytes data < n.pfx.bytes.length := by
        rw [← Util.lcp_eq_lcpLen]
        exact hlcp
      exact insertLoop_split hwf hdata hm val fuel
    | ends hlcp hdata =>
      subst hdata
      have hstep : insertLoop (fuel + 1) n n.pfx.bytes val = .ok (n.setVal val) := by
        simp [insertLoop, hlcp, Prefix.len]
      rw [hstep]
      exact ⟨hwf.setVal val, EntriesUpdate.setHeader hwf.agrees, by simp [lcpLen_self],
        fun m _ h => Full.setVal (fun c hc => h.child hc) val⟩
    | missing b bs hlcp hdata hexists habsent =>
      subst hdata
      have hstep : insertLoop (fuel + 1) n (n.pfx.bytes ++ b :: bs) val = (do
          let newChild ← Node.new (b :: bs)
          n.insertChild (childPosFromByte b) (newChild.setVal val)) := by
        simp [insertLoop, hlcp, Prefix.len, sliceFrom_append, Rust.index, hexists]
      rw [hstep]
      refine (insertLeaf_spec hwf hdata habsent val).imp fun n' h' =>
        ⟨h'.wf, h'.update, by rw [h'.pfx_eq, lcpLen_append_right, List.take_length],
          fun m _ h => Full.intro ?_ fun c hc => ?_⟩
      · rw [h'.length, hasVal, h'.val_eq]
        exact h.self.imp_right (·.trans (Nat.le_succ _))
      · rcases h'.children c hc with hc | hfull
        · exact h.child hc
        · exact hfull m
    | child b bs c hlcp hdata hexists hget hc hkey hwfc hfuelc =>
      subst hdata
      rw [List.length_append] at hdata
      have hstep : insertLoop (fuel + 1) n (n.pfx.bytes ++ b :: bs) val = (do
          let child ← insertLoop fuel c (b :: bs) val
          .ok (n.setChildByPos (childPosFromByte b) child)) := by
        simp [insertLoop, hlcp, Prefix.len, sliceFrom_append, Rust.index, hexists, hget]
      rw [hstep]
      -- the child's turn has less room, which the node's panics cover
      refine ((ih hwfc (by omega) hfuelc).mono (Nat.sub_le _ _)).bind fun c' hins => ?_
      obtain ⟨t, ht⟩ := hins.exists_pfx (hwf.agrees.nonempty hc) hkey
      have hne' : c'.pfx.bytes ≠ [] := by simp [ht]
      have hkey' := key_eq_of_pfx ht
      exact ⟨hwf.setChildByPos hc hkey hins.wf hne' hkey',
        EntriesUpdate.setChildByPos hwf.agrees hc hkey hne' hkey' hins.update,
        by simp [Node.pfx, lcpLen_append_right],
        fun m hm h => h.setChildByPos hwf.agrees hc hkey hne' hkey' (hins.full m hm (h.child hc))⟩

/-! ## The call -/

/-- **`insert`** of a key that is not empty binds the key, changes no other
entry, and leaves every node full that was. -/
theorem insert_spec {room : ℕ} {m : TrieMap T} (hm : m.Valid room) {key : Bytes} (hne : key ≠ [])
    (hkey : key.length ≤ room) (val : T) :
    Returns room (m.insert key val) fun m' => m'.Valid room
      ∧ (∀ k v, (k, v) ∈ m'.entries
          ↔ (k = key ∧ some val = some v) ∨ (k ≠ key ∧ (k, v) ∈ m.entries))
      ∧ ∀ j ≤ 2, m.AllFull j → m'.AllFull j := by
  have hroot : ∀ root', Wf room root' →
      (∀ k v, (k, v) ∈ root'.entries
        ↔ (k = key ∧ some val = some v) ∨ (k ≠ key ∧ (k, v) ∈ m.entries)) →
      Valid room ⟨some root'⟩ := by
    intro root' hwf hent
    refine ⟨fun r hr => Option.some.inj hr ▸ hwf, fun v => ?_⟩
    rw [entries_some, hent]
    rintro (⟨h, _⟩ | ⟨_, h⟩)
    · exact hne h.symm
    · exact hm.nil v h
  obtain ⟨root⟩ := m
  rw [insert, if_neg hne]
  cases root with
  | none =>
    refine (Node.returns_new hkey).bind ?_
    rintro _ ⟨p, hp, rfl⟩
    have hent : ∀ k v, (k, v) ∈ ((leaf ⟨p, none⟩).setVal val).entries
        ↔ (k = key ∧ some val = some v) ∨ (k ≠ key ∧ (k, v) ∈ entries ⟨none⟩) := by
      intro k v
      rw [mem_entries_of_children_eq_nil (by rfl), val_setVal, pfx_setVal, and_comm]
      simp [pfx, header, hp]
    refine ⟨hroot _ (Wf.setVal (wf_leaf (hp ▸ hkey)) val) hent, hent, fun j _ _ r hr => ?_⟩
    exact Option.some.inj hr ▸ Full.setVal (fun c hc => by cases hc) val
  | some root =>
    refine (insertLoop_spec (hm.wf root rfl) hkey (enough_walkBound root key) val).bind
      fun root' hins => ⟨hroot root' hins.wf hins.update, hins.update, fun j hj h r hr => ?_⟩
    exact Option.some.inj hr ▸ hins.full j hj (h root rfl)

end TrieMap

end Trie
