import Algors.Trie.Compression

/-!
# Insertion order does not matter

A path-compressed tree in which every internal node has children is determined
by its entries: the prefix of a node is what all keys below it have in common,
its value is the entry there, and its children are the branches of the bytes
that follow. Insertion makes such trees only, so two orders of inserting the
same pairs, which give the same entries, give the same tree.
-/

namespace Trie

variable {T : Type}

namespace Node

/-- A child that was read is one. -/
theorem mem_of_getChildByPos {n c : Node T} {pos : ChildPos} (h : n.getChildByPos pos = some c) :
    c ∈ n.children := by
  cases n with
  | leaf _ => cases h
  | internal hdr bitmap cs =>
    simp only [getChildByPos, getChildByIdx, BoundedRawVec.get] at h
    split_ifs at h
    exact List.mem_of_getElem? h

/-- **Every internal node has children.** -/
inductive Branching : Node T → Prop
  | intro {n : Node T} (hself : n.isLeaf = true ∨ n.children ≠ [])
      (hchildren : ∀ c ∈ n.children, Branching c) : Branching n

namespace Branching

variable {n n' c : Node T}

theorem self (h : Branching n) : n.isLeaf = true ∨ n.children ≠ [] := by
  cases h; assumption

theorem child (h : Branching n) (hc : c ∈ n.children) : Branching c := by
  cases h with
  | intro _ hchildren => exact hchildren c hc

theorem leaf (h : Header T) : Branching (leaf h) :=
  intro (Or.inl rfl) fun c hc => by cases hc

theorem setHeader (hn : Branching n) (h : Header T) : Branching (n.setHeader h) :=
  intro (by simpa using hn.self) fun c hc => hn.child (by simpa using hc)

theorem setChildByPos (hn : Branching n) (hc : Branching c) (pos : ChildPos) :
    Branching (n.setChildByPos pos c) := by
  refine intro ?_ fun x hx => ?_
  · rw [isLeaf_setChildByPos, ← List.length_pos_iff, length_children_setChildByPos,
      List.length_pos_iff]
    exact hn.self
  · cases n with
    | leaf _ => cases hx
    | internal hdr bitmap cs =>
      rcases List.mem_or_eq_of_mem_set hx with hx | rfl
      · exact hn.child hx
      · exact hc

/-- A child more. -/
theorem insertChild {pos : ChildPos} (hag : n.Agrees) (hn : ∀ x ∈ n.children, Branching x)
    (hc : Branching c) (h : n.insertChild pos c = .ok n') : Branching n' := by
  have main : ∀ (hdr : Header T) (bitmap : Bitmap) (cs : List (Node T)), ChildrenAgree bitmap cs →
      (∀ x ∈ cs, Branching x) → (internal hdr bitmap cs).insertChild pos c = .ok n' →
      Branching n' := by
    intro hdr bitmap cs hag hcs h
    have hidx : bitmap.childIdx pos ≤ cs.length := by
      rw [hag.childIdx_eq_rank]
      exact List.rank_le_length _ _
    obtain ⟨cs', hins, h⟩ := Rust.bind_eq_ok.mp h
    unfold BoundedRawVec.insert at hins
    split_ifs at hins
    obtain rfl := Except.ok.inj hins
    obtain rfl := Except.ok.inj h
    refine intro (Or.inr ?_) fun x hx => ?_
    · exact List.ne_nil_of_mem ((List.mem_insertIdx hidx).mpr (Or.inl rfl))
    · rcases (List.mem_insertIdx hidx).mp hx with rfl | hx
      · exact hc
      · exact hcs x hx
  cases n with
  | leaf hdr => exact main hdr Bitmap.zero [] .nil (fun x hx => by cases hx) h
  | internal hdr bitmap cs => exact main hdr bitmap cs hag hn h

end Branching

/-- `Node::new` makes a leaf. -/
theorem new_branching [Target] {data : Bytes} {n : Node T}
    (h : (new data : Rust (Node T)) = .ok n) : Branching n := by
  obtain ⟨pfx, -, h⟩ := Rust.bind_eq_ok.mp h
  obtain rfl := Except.ok.inj h
  exact .leaf _

end Node

namespace TrieMap

open Node

variable [Target]

/-- **A split** keeps internal nodes with children: the node that takes over
the children is internal just when the split one was. -/
theorem split_branching {n n' : Node T} {m : ℕ} (hn : Branching n) (h : split n m = .ok n') :
    Branching n' := by
  obtain ⟨splitData, -, h⟩ := Rust.bind_eq_ok.mp h
  obtain ⟨splitNode, hnew, h⟩ := Rust.bind_eq_ok.mp h
  obtain ⟨newData, -, h⟩ := Rust.bind_eq_ok.mp h
  obtain ⟨newPrefix, -, h⟩ := Rust.bind_eq_ok.mp h
  obtain ⟨byte, -, h⟩ := Rust.bind_eq_ok.mp h
  have hleaf := new_branching hnew
  cases n with
  | leaf hdr =>
    refine Branching.insertChild ?_ (fun x hx => by cases hx) ?_ h
    · trivial
    · obtain ⟨pfx, v⟩ := hdr
      cases v with
      | none => exact hleaf
      | some v => exact hleaf.setHeader _
  | internal hdr bitmap cs =>
    refine Branching.insertChild ?_ (fun x hx => by cases hx) ?_ h
    · exact ChildrenAgree.nil
    · exact .intro (Or.inr (hn.self.resolve_left Bool.false_ne_true)) fun c hc => hn.child hc

/-- **The loop of `insert`** keeps internal nodes with children. -/
theorem insertLoop_branching {fuel room : ℕ} {n n' : Node T} {data : Bytes} {val : T}
    (hwf : Wf room n) (hn : Branching n) (h : insertLoop fuel n data val = .ok n') :
    Branching n' := by
  induction fuel generalizing room n n' data with
  | zero => cases h
  | succ fuel ih =>
    -- what a turn does once the node is split where it has to be
    have finish : ∀ {room' : ℕ} {cur : Node T}, Wf room' cur → Branching cur → ∀ lcpLen,
        (if lcpLen = data.length then Except.ok (cur.setVal val) else do
          let curData ← Rust.sliceFrom data lcpLen
          let byte ← Rust.index curData 0
          if cur.childExists (childPosFromByte byte) then do
            let child ← Rust.unwrap (cur.getChildByPos (childPosFromByte byte))
            let child ← insertLoop fuel child curData val
            .ok (cur.setChildByPos (childPosFromByte byte) child)
          else do
            let newChild ← Node.new curData
            cur.insertChild (childPosFromByte byte) (newChild.setVal val)) = .ok n' →
        Branching n' := by
      intro room' cur hwf hn lcpLen h
      split_ifs at h
      · obtain rfl := Except.ok.inj h
        exact hn.setHeader _
      · obtain ⟨curData, -, h⟩ := Rust.bind_eq_ok.mp h
        obtain ⟨byte, -, h⟩ := Rust.bind_eq_ok.mp h
        split_ifs at h
        · obtain ⟨child, hget, h⟩ := Rust.bind_eq_ok.mp h
          obtain ⟨child', hins, h⟩ := Rust.bind_eq_ok.mp h
          obtain rfl := Except.ok.inj h
          have hc := mem_of_getChildByPos (Rust.unwrap_eq_ok.mp hget)
          exact hn.setChildByPos (ih (hwf.child hc) (hn.child hc) hins) _
        · obtain ⟨child, hnew, h⟩ := Rust.bind_eq_ok.mp h
          exact Branching.insertChild hwf.agrees (fun x => hn.child)
            ((new_branching hnew).setHeader _) h
    simp only [insertLoop] at h
    by_cases hlt : Util.lcp n.pfx.bytes data < n.pfx.len
    · rw [if_pos hlt] at h
      obtain ⟨cur, hcur, h⟩ := Rust.bind_eq_ok.mp h
      rw [Util.lcp_eq_lcpLen] at hlt hcur
      obtain ⟨s, hsplit⟩ := (split_spec hwf hlt).of_eq_ok hcur
      exact finish (hsplit.wf hwf hlt) (split_branching hn hcur) _ h
    · rw [if_neg hlt] at h
      exact finish hwf hn _ h

/-- **`insert`** keeps internal nodes with children. -/
theorem insert_branching {room : ℕ} {m m' : TrieMap T} (hm : m.Valid room) {key : Bytes} {val : T}
    (hb : ∀ root, m.root = some root → Branching root) (h : m.insert key val = .ok m') :
    ∀ root, m'.root = some root → Branching root := by
  intro root hroot
  unfold insert at h
  split_ifs at h
  · obtain rfl := Except.ok.inj h
    exact hb root hroot
  · cases hr : m.root with
    | none =>
      rw [hr] at h
      obtain ⟨n, hnew, h⟩ := Rust.bind_eq_ok.mp h
      obtain rfl := Except.ok.inj h
      obtain rfl := Option.some.inj hroot
      exact (new_branching hnew).setHeader _
    | some r =>
      rw [hr] at h
      obtain ⟨n, hloop, h⟩ := Rust.bind_eq_ok.mp h
      obtain rfl := Except.ok.inj h
      obtain rfl := Option.some.inj hroot
      exact insertLoop_branching (hm.wf r hr) (hb r hr) hloop

end TrieMap

/-! ## Trees determined by their entries

Two such trees with the same entries are compared from the root on. Their prefixes are equal,
because each is the longest that all keys have in common; so are the values, and the bytes that
go on. By induction on one tree the children at a byte are equal, having the same entries. -/

namespace Node

/-- What is a prefix of two strings is one of what these have in common. -/
theorem prefix_of_branch {p q bs bs' : Bytes} {b b' : UInt8} (h : p <+: q ++ b :: bs)
    (h' : p <+: q ++ b' :: bs') (hne : b ≠ b') : p <+: q := by
  rcases List.prefix_or_prefix_of_prefix h (List.prefix_append q _) with hp | ⟨t, rfl⟩
  · exact hp
  · rw [List.prefix_append_right_inj] at h h'
    cases t with
    | nil => simp
    | cons a t =>
      obtain ⟨rfl, _⟩ := List.cons_prefix_cons.mp h
      exact absurd (List.cons_prefix_cons.mp h').1 hne

section Determined

variable {n n' c : Node T}

/-- A child of a full node stores a key that starts with its byte. -/
theorem Agrees.exists_entry_child (hn : n.Agrees) (hfull : Full 2 n) (hc : c ∈ n.children) :
    ∃ b bs v, c.key = b.toNat ∧ (b :: bs, v) ∈ c.entries := by
  obtain ⟨b, t, hb⟩ := List.exists_cons_of_ne_nil (hn.nonempty hc)
  have hkey := key_eq_of_pfx hb
  obtain ⟨⟨k, v⟩, he⟩ := ((hfull.child hc).mono one_le_two).exists_entry
  obtain ⟨bs, rfl⟩ := cons_of_mem_entries (hn.nonempty hc) hkey he
  exact ⟨b, bs, v, hkey, he⟩

/-- **The prefix of a full node is what its keys have in common.** -/
theorem Agrees.prefix_pfx (hn : n.Agrees) (hfull : Full 2 n) {p : Bytes}
    (hp : ∀ k v, (k, v) ∈ n.entries → p <+: k) : p <+: n.pfx.bytes := by
  rcases hfull.self with hval | hlen
  · obtain ⟨v, hv⟩ := Option.isSome_iff_exists.mp hval
    exact hp _ v (hn.mem_entries_self.mpr hv)
  · obtain ⟨c, c', cs, hcs⟩ : ∃ c c' cs, n.children = c :: c' :: cs := by
      match n.children, hlen with
      | c :: c' :: cs, _ => exact ⟨c, c', cs, rfl⟩
    have hlt : c.key < c'.key := by
      have hsorted := hn.sorted
      rw [hcs, List.keySorted_cons] at hsorted
      exact hsorted.1 c' (by simp)
    obtain ⟨b, bs, v, hkey, he⟩ := hn.exists_entry_child hfull (show c ∈ n.children by simp [hcs])
    obtain ⟨b', bs', v', hkey', he'⟩ :=
      hn.exists_entry_child hfull (show c' ∈ n.children by simp [hcs])
    refine prefix_of_branch (hp _ v (mem_entries.mpr (Or.inr ⟨c, by simp [hcs], _, rfl, he⟩)))
      (hp _ v' (mem_entries.mpr (Or.inr ⟨c', by simp [hcs], _, rfl, he'⟩))) ?_
    rintro rfl
    omega

/-- **Where two nodes have the same entries, so have their children.** -/
theorem Agrees.exists_child (hn : n.Agrees) (hn' : n'.Agrees) (hfull : Full 2 n)
    (hpfx : n.pfx = n'.pfx) (hent : ∀ e, e ∈ n.entries ↔ e ∈ n'.entries) (hc : c ∈ n.children) :
    ∃ c' ∈ n'.children, ∀ e, e ∈ c.entries ↔ e ∈ c'.entries := by
  obtain ⟨b, bs, v, hkey, he⟩ := hn.exists_entry_child hfull hc
  have hmem := (hent _).mp ((hn.mem_entries_child hc hkey).mpr he)
  rw [hpfx] at hmem
  obtain ⟨c', hc', hkey', -⟩ := hn'.mem_entries_cons.mp hmem
  have hbranch : ∀ bs v, (b :: bs, v) ∈ c.entries ↔ (b :: bs, v) ∈ c'.entries := fun bs v => by
    rw [← hn.mem_entries_child hc hkey, hent, hpfx, hn'.mem_entries_child hc' hkey']
  refine ⟨c', hc', fun ⟨k, w⟩ => ⟨fun he => ?_, fun he => ?_⟩⟩
  · obtain ⟨bs, rfl⟩ := cons_of_mem_entries (hn.nonempty hc) hkey he
    exact (hbranch bs w).mp he
  · obtain ⟨bs, rfl⟩ := cons_of_mem_entries (hn'.nonempty hc') hkey' he
    exact (hbranch bs w).mpr he

/-- Two nodes that store the same are equal once their headers and children
are, when internal nodes have children. -/
theorem eq_of_header_children (hn : n.Agrees) (hn' : n'.Agrees) (hb : Branching n)
    (hb' : Branching n') (hhdr : n.header = n'.header) (hcs : n.children = n'.children) :
    n = n' := by
  cases n with
  | leaf h =>
    cases n' with
    | leaf h' => exact congrArg leaf hhdr
    | internal h' bitmap' cs' =>
      exact absurd hcs.symm (hb'.self.resolve_left Bool.false_ne_true)
  | internal h bitmap cs =>
    cases n' with
    | leaf h' => exact absurd hcs (hb.self.resolve_left Bool.false_ne_true)
    | internal h' bitmap' cs' =>
      obtain rfl : h = h' := hhdr
      obtain rfl : cs = cs' := hcs
      have hbits : bitmap = bitmap' := Bitmap.ext_bit fun i => by
        rw [Bool.eq_iff_iff, ChildrenAgree.bit_iff hn, ChildrenAgree.bit_iff hn']
      rw [hbits]

/-- **A compressed tree is determined by its entries.** -/
theorem eq_of_entries {room room' : ℕ} (hwf : Wf room n) (hfull : Full 2 n) (hb : Branching n)
    (hwf' : Wf room' n') (hfull' : Full 2 n') (hb' : Branching n')
    (hent : ∀ e, e ∈ n.entries ↔ e ∈ n'.entries) : n = n' := by
  induction hfull generalizing room room' n' with
  | @intro n hself hkids ih =>
    have hfull := Full.intro hself hkids
    have hn := hwf.agrees
    have hn' := hwf'.agrees
    have hle : n'.pfx.bytes <+: n.pfx.bytes := hn.prefix_pfx hfull fun k v he =>
      pfx_prefix_of_mem_entries ((hent _).mp he)
    have hge : n.pfx.bytes <+: n'.pfx.bytes := hn'.prefix_pfx hfull' fun k v he =>
      pfx_prefix_of_mem_entries ((hent _).mpr he)
    have hpfx : n.pfx = n'.pfx := Prefix.ext (hge.eq_of_length_le hle.length_le)
    have hval : n.val = n'.val := Option.ext fun v => by
      rw [← hn.mem_entries_self, hent, hpfx, hn'.mem_entries_self]
    have hcs : n.children = n'.children := by
      refine hn.sorted.eq_of_mem_iff hn'.sorted fun c => ⟨fun hc => ?_, fun hc' => ?_⟩
      · obtain ⟨c', hc', hce⟩ := hn.exists_child hn' hfull hpfx hent hc
        rwa [ih c hc (hwf.child hc) (hb.child hc) (hwf'.child hc') (hfull'.child hc')
          (hb'.child hc') hce]
      · obtain ⟨c₀, hc, hce⟩ := hn'.exists_child hn hfull' hpfx.symm (fun e => (hent e).symm) hc'
        rwa [← ih c₀ hc (hwf.child hc) (hb.child hc) (hwf'.child hc') (hfull'.child hc')
          (hb'.child hc') fun e => (hce e).symm]
    have hhdr : n.header = n'.header := by
      cases hh : n.header with
      | mk p v =>
        cases hh' : n'.header with
        | mk p' v' =>
          rw [pfx, pfx, hh, hh'] at hpfx
          rw [val, val, hh, hh'] at hval
          exact congrArg₂ Header.mk hpfx hval
    exact eq_of_header_children hn hn' hb hb' hhdr hcs

end Determined

end Node

/-! ## Inserting pairs in some order

The entries after all insertions are the pairs, whichever came first, as long as no key comes
twice. Where a key does not fit, one order may panic and another not. -/

namespace TrieMap

open Node

variable [Target]

/-- Inserting the pairs of a list, in turn. -/
def insertAll (self : TrieMap T) : List (Bytes × T) → Rust (TrieMap T)
  | [] => .ok self
  | (key, val) :: pairs => do
    let m ← self.insert key val
    m.insertAll pairs

/-- **A map as insertion alone makes it.** -/
structure Canonical (room : ℕ) (m : TrieMap T) : Prop where
  valid : m.Valid room
  full : m.AllFull 2
  branching : ∀ root, m.root = some root → Branching root

omit [Target] in
/-- **Such a map is determined by its entries.** -/
theorem Canonical.eq_of_entries {room : ℕ} {m m' : TrieMap T} (h : Canonical room m)
    (h' : Canonical room m') (hent : ∀ e, e ∈ m.entries ↔ e ∈ m'.entries) : m = m' := by
  have hnone : ∀ {m : TrieMap T} {root : Node T}, Canonical room m → m.root = some root →
      ∃ e, e ∈ m.entries := fun {m root} h hroot => by
    rw [entries, hroot]
    exact ((h.full root hroot).mono one_le_two).exists_entry
  obtain ⟨root⟩ := m
  obtain ⟨root'⟩ := m'
  cases root with
  | none =>
    cases root' with
    | none => rfl
    | some r' =>
      obtain ⟨e, he⟩ := hnone h' rfl
      simpa using (hent e).mpr he
  | some r =>
    cases root' with
    | none =>
      obtain ⟨e, he⟩ := hnone h rfl
      simpa using (hent e).mp he
    | some r' =>
      rw [Node.eq_of_entries (h.valid.wf r rfl) (h.full r rfl) (h.branching r rfl)
        (h'.valid.wf r' rfl) (h'.full r' rfl) (h'.branching r' rfl) hent]

/-- `insert` makes such a map of one. -/
theorem Canonical.insert {room : ℕ} {m : TrieMap T} (h : Canonical room m) {key : Bytes}
    (hne : key ≠ []) (hkey : key.length ≤ room) (val : T) :
    Returns room (m.insert key val) fun m' => Canonical room m'
      ∧ ∀ k v, (k, v) ∈ m'.entries ↔ (k = key ∧ v = val) ∨ (k ≠ key ∧ (k, v) ∈ m.entries) := by
  have hspec := insert_spec h.valid hne hkey val
  cases hins : m.insert key val with
  | error e =>
    rw [hins] at hspec
    exact hspec
  | ok m' =>
    obtain ⟨hvalid, hent, hfull⟩ := hspec.of_eq_ok hins
    refine ⟨⟨hvalid, hfull 2 le_rfl h.full, insert_branching h.valid h.branching hins⟩,
      fun k v => ?_⟩
    rw [hent, Option.some.injEq, eq_comm (a := val)]

/-- **Inserting pairs with distinct keys** adds these entries. -/
theorem Canonical.insertAll {room : ℕ} {m : TrieMap T} (h : Canonical room m)
    {pairs : List (Bytes × T)} (hne : ∀ p ∈ pairs, p.1 ≠ []) (hlen : ∀ p ∈ pairs, p.1.length ≤ room)
    (hkeys : (pairs.map Prod.fst).Nodup) (hfresh : ∀ p ∈ pairs, ∀ v, (p.1, v) ∉ m.entries) :
    Returns room (m.insertAll pairs) fun m' => Canonical room m'
      ∧ ∀ e, e ∈ m'.entries ↔ e ∈ pairs ∨ e ∈ m.entries := by
  induction pairs generalizing m with
  | nil => exact ⟨h, fun e => by simp⟩
  | cons p pairs ih =>
    obtain ⟨key, val⟩ := p
    rw [List.forall_mem_cons] at hne hlen hfresh
    rw [List.map_cons, List.nodup_cons] at hkeys
    refine (h.insert hne.1 hlen.1 val).bind fun m' ⟨h', hent⟩ => ?_
    refine (ih h' hne.2 hlen.2 hkeys.2 fun p hp v hv => ?_).imp fun m'' ⟨h'', hent'⟩ =>
      ⟨h'', fun e => ?_⟩
    · rcases (hent p.1 v).mp hv with ⟨hk, -⟩ | ⟨-, hv⟩
      · exact hkeys.1 (hk ▸ List.mem_map_of_mem hp)
      · exact hfresh.2 p hp v hv
    · obtain ⟨k, v⟩ := e
      rw [hent', hent, List.mem_cons, Prod.mk.injEq]
      have := hfresh.1 v
      constructor
      · rintro (hp | ⟨rfl, rfl⟩ | ⟨-, hv⟩)
        · exact Or.inl (Or.inr hp)
        · exact Or.inl (Or.inl ⟨rfl, rfl⟩)
        · exact Or.inr hv
      · rintro ((hp | hp) | hv)
        · exact Or.inr (Or.inl hp)
        · exact Or.inl hp
        · refine Or.inr (Or.inr ⟨?_, hv⟩)
          rintro rfl
          exact this hv

/-- **Insertion order does not matter**: two orders of inserting pairs with
distinct keys make the same map, node by node, and both insert all of them
when the keys fit: when they are shorter than 2³² bytes and, with pointers of 4
bytes, than `isize::MAX`. -/
theorem insertAll_perm {l l' : List (Bytes × T)} (hperm : l.Perm l')
    (hkeys : (l.map Prod.fst).Nodup) (hne : ∀ p ∈ l, p.1 ≠ []) :
    (∀ m m', insertAll new l = .ok m → insertAll new l' = .ok m' → m = m')
      ∧ ((∀ p ∈ l, Prefix.Fits p.1.length) →
          ∃ m, insertAll new l = .ok m ∧ insertAll new l' = .ok m) := by
  have hnew : ∀ room, Canonical room (new : TrieMap T) := fun room =>
    ⟨valid_none room, allFull_none, fun root hroot => by cases hroot⟩
  have hspec : ∀ room, (∀ p ∈ l, p.1.length ≤ room) → ∀ l₁ : List (Bytes × T), l.Perm l₁ →
      Returns room (insertAll new l₁) fun m => Canonical room m ∧ ∀ e, e ∈ m.entries ↔ e ∈ l := by
    intro room hroom l₁ hp
    refine ((hnew room).insertAll (fun p hp₁ => hne p (hp.mem_iff.mpr hp₁))
      (fun p hp₁ => hroom p (hp.mem_iff.mpr hp₁)) ((hp.map _).nodup_iff.mp hkeys)
      fun p _ v hv => by simp [new] at hv).imp fun m ⟨hm, hent⟩ => ⟨hm, fun e => ?_⟩
    rw [hent, hp.mem_iff]
    simp [new]
  have heq : ∀ room, (∀ p ∈ l, p.1.length ≤ room) → ∀ m m', insertAll new l = .ok m →
      insertAll new l' = .ok m' → m = m' := by
    intro room hroom m m' hm hm'
    obtain ⟨h, hent⟩ := (hspec room hroom l (.refl l)).of_eq_ok hm
    obtain ⟨h', hent'⟩ := (hspec room hroom l' hperm).of_eq_ok hm'
    exact h.eq_of_entries h' fun e => (hent e).trans (hent' e).symm
  constructor
  · obtain ⟨room, hroom⟩ := (l.map fun p => p.1.length).toFinset.exists_le
    exact heq room fun p hp => hroom _ (List.mem_toFinset.mpr (List.mem_map_of_mem hp))
  · intro hfits
    have hroom : ∀ p ∈ l, p.1.length ≤ Prefix.maxLen := fun p hp => (hfits p hp).le_maxLen
    obtain ⟨m, hm, -⟩ := (hspec _ hroom l (.refl l)).exists_ok Prefix.fits_maxLen
    obtain ⟨m', hm', -⟩ := (hspec _ hroom l' hperm).exists_ok Prefix.fits_maxLen
    exact ⟨m, hm, heq _ hroom m m' hm hm' ▸ hm'⟩

omit [Target] in
/-- Three keys, one of them a prefix of the others, in two orders. -/
theorem insertAll_perm_three :
    letI : Target := Target.x86_64
    ∃ m : TrieMap ℕ, insertAll new [([97, 98], 1), ([97], 2), ([97, 99], 3)] = .ok m
      ∧ insertAll new [([97, 99], 3), ([97, 98], 1), ([97], 2)] = .ok m :=
  (@insertAll_perm ℕ Target.x86_64 _ [([97, 99], 3), ([97, 98], 1), ([97], 2)] (by decide)
    (by decide) (by decide)).2 (by decide)

end TrieMap

end Trie
