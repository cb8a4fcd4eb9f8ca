import Algors.Trie.Traversal

/-!
# The representation of a reachable map

What `Wf` says of the nodes along a path, read off for every node of a map that
calls on keys of less than 2³² bytes can make, in the terms of the code: tests
of bits and first bytes. On such a map every call returns, so that none of the
`unwrap`s, `expect`s and assertions on the way fails; all but one of them, the
layout of a prefix, which there is not for `isize::MAX` bytes and more. Keys
that long exist with pointers of 4 bytes.
-/

namespace Trie

variable {T : Type}

namespace Node

/-- **The nodes of a tree.** -/
inductive Within (root : Node T) : Node T → Prop
  | root : Within root root
  | child {n c : Node T} (h : Within root n) (hc : c ∈ n.children) : Within root c

/-- The first byte of a node's prefix, if there is one. -/
def firstByte? (n : Node T) : Option UInt8 := n.pfx.bytes.head?

/-- **The children of a node, and what its bitmap says of them.** -/
structure Sound (n : Node T) : Prop where
  /-- A child, which is any node but the root, has a prefix. -/
  nonempty : ∀ c ∈ n.children, c.pfx.bytes ≠ []
  /-- A bit is set just when exactly one child starts with its byte. -/
  bit : ∀ b : UInt8, n.childExists (childPosFromByte b) = true
    ↔ ∃! i : ℕ, n.children[i]?.bind firstByte? = some b
  /-- The first bytes increase. -/
  sorted : n.children.Pairwise fun c c' => ∀ b ∈ c.firstByte?, ∀ b' ∈ c'.firstByte?, b < b'
  /-- The number of children is the number of bits set. -/
  length : n.children.length = n.lenChildren

theorem key_of_firstByte? {c : Node T} {b : UInt8} (h : c.firstByte? = some b) :
    c.key = b.toNat := by
  obtain ⟨bs, hbs⟩ := List.head?_eq_some_iff.mp h
  exact key_eq_of_pfx hbs

theorem firstByte?_of_key {c : Node T} {b : UInt8} (hne : c.pfx.bytes ≠ []) (h : c.key = b.toNat) :
    c.firstByte? = some b := by
  obtain ⟨bs, hbs⟩ := exists_pfx_of_key_eq hne h
  exact List.head?_eq_some_iff.mpr ⟨bs, hbs⟩

/-- **A node whose bitmap and children agree is sound.** -/
theorem Agrees.sound {n : Node T} (hn : n.Agrees) : n.Sound where
  nonempty c hc := hn.nonempty hc
  bit b := by
    rw [hn.childExists_iff]
    constructor
    · rintro ⟨c, hc, hkey⟩
      obtain ⟨i, hi⟩ := List.mem_iff_getElem?.mp hc
      refine ⟨i, ?_, fun j hj => ?_⟩
      · show n.children[i]?.bind firstByte? = some b
        rw [hi]
        exact firstByte?_of_key (hn.nonempty hc) hkey
      · obtain ⟨c', hj, hfirst⟩ := Option.bind_eq_some_iff.mp hj
        -- two places with one key are one place
        have hkeys := hn.sorted
        unfold List.KeySorted at hkeys
        rw [List.pairwise_iff_getElem] at hkeys
        obtain ⟨hilt, rfl⟩ := List.getElem?_eq_some_iff.mp hi
        obtain ⟨hjlt, rfl⟩ := List.getElem?_eq_some_iff.mp hj
        have hkey' := key_of_firstByte? hfirst
        rcases Nat.lt_trichotomy j i with hlt | heq | hlt
        · exact absurd (hkeys j i hjlt hilt hlt) (by omega)
        · exact heq
        · exact absurd (hkeys i j hilt hjlt hlt) (by omega)
    · rintro ⟨i, hi, -⟩
      obtain ⟨c, hi, hfirst⟩ := Option.bind_eq_some_iff.mp hi
      exact ⟨c, List.mem_of_getElem? hi, key_of_firstByte? hfirst⟩
  sorted := hn.sorted.imp fun hlt b hb b' hb' => by
    rw [key_of_firstByte? hb, key_of_firstByte? hb'] at hlt
    exact hlt
  length := hn.lenChildren_eq.symm

/-- All nodes of a well-formed tree are well formed in some room. -/
theorem Within.wf {root n : Node T} (h : Within root n) {room : ℕ} (hroot : Wf room root) :
    ∃ room', Wf room' n := by
  induction h with
  | root => exact ⟨room, hroot⟩
  | child _ hc ih =>
    obtain ⟨room', hwf⟩ := ih
    exact ⟨_, hwf.child hc⟩

end Node

namespace TrieMap

open Node

variable [Target]

/-- A call with a key of at most `room` bytes. -/
def Short (room : ℕ) (_m : TrieMap T) (op : Op T) : Prop := op.key.length ≤ room

instance (room : ℕ) (m : TrieMap T) (op : Op T) : Decidable (Short room m op) :=
  inferInstanceAs (Decidable (op.key.length ≤ room))

/-- A map reached by such calls refines a finite map of such keys. -/
theorem exists_refines_of_short {room : ℕ} {m : TrieMap T}
    (h : system.ReachableWhile (Short room) m) : ∃ s, Refines room m s := by
  refine h.invariant (I := fun m => ∃ s, Refines room m s) ⟨RefMap.empty, refines_new⟩
    fun m op m' _ ⟨s, hs⟩ hop hnext => ?_
  obtain ⟨r, hr⟩ := system_next_eq_some.mp hnext
  exact ⟨_, ((apply_refines hs hop).of_eq_ok hr).2⟩

/-- The bitmap of a node whose one child starts with the byte 1. -/
def oneBit : Bitmap := Bitmap.zero.set (childPosFromByte 1)

/-- What the two keys make is a node with one child. -/
theorem run_two {key : Bytes} (hne : key ≠ []) (hfits : Prefix.Fits key.length) :
    system.run new [.insert key 1, .insert (key ++ [1]) 2]
      = some ⟨some (internal ⟨⟨key, hfits.lt⟩, some 1⟩ oneBit
          [leaf ⟨⟨[1], by decide⟩, some 2⟩])⟩ := by
  have hchild : Prefix.new [1] = .ok ⟨[1], by decide⟩ := rfl
  have hfirst : (new : TrieMap ℕ).apply (.insert key 1)
      = .ok (none, ⟨some (leaf ⟨⟨key, hfits.lt⟩, some 1⟩)⟩) := by
    simp only [apply, insert, if_neg hne, new, Node.new, Prefix.new_eq_ok hfits, Rust.ok_bind]
    rfl
  have hsecond : (⟨some (leaf ⟨⟨key, hfits.lt⟩, some 1⟩)⟩ : TrieMap ℕ).apply
        (.insert (key ++ [1]) 2)
      = .ok (none, ⟨some (internal ⟨⟨key, hfits.lt⟩, some 1⟩ oneBit
          [leaf ⟨⟨[1], by decide⟩, some 2⟩])⟩) := by
    simp [apply, insert, walkBound, insertLoop, Util.lcp_eq_lcpLen, pfx, header,
      lcpLen_append_right, Prefix.len, sliceFrom_append, Rust.index, childExists, Node.new, hchild]
    rfl
  simp only [System.run, system, hfirst, hsecond, Option.bind_some]

/-- **Removing the shorter key merges the two nodes**, which takes a prefix of
all of the longer one. -/
theorem apply_remove_two {key : Bytes} (hne : key ≠ []) (hlt : key.length < 2 ^ 32) :
    (⟨some (internal ⟨⟨key, hlt⟩, some 1⟩ oneBit [leaf ⟨⟨[1], by decide⟩, some 2⟩])⟩
        : TrieMap ℕ).apply (.remove key)
      = (Prefix.new (key ++ [1]) >>= fun p => .ok (some 1, ⟨some (leaf ⟨p, some 2⟩)⟩)) := by
  have hbits : oneBit.lenChildren = 1 := by decide
  have hpos : (internal ⟨⟨key, hlt⟩, none⟩ oneBit
      [leaf ⟨⟨[1], by decide⟩, some 2⟩] : Node ℕ).childPosFromIdx 0
      = .ok (childPosFromByte 1) := rfl
  have hrem : (internal ⟨⟨key, hlt⟩, none⟩ oneBit
      [leaf ⟨⟨[1], by decide⟩, some 2⟩] : Node ℕ).removeChild (childPosFromByte 1)
      = (some (leaf ⟨⟨[1], by decide⟩, some 2⟩),
        internal ⟨⟨key, hlt⟩, none⟩ (oneBit.clear (childPosFromByte 1)) []) := rfl
  simp only [apply, remove, if_neg hne, walkBound, removeLoop, Util.lcp_eq_lcpLen, pfx, header,
    lcpLen_self, Prefix.len, lt_self_iff_false, if_false, if_true, Rust.ok_bind, takeVal, Node.val,
    setHeader, compress, compressLoop, compressRoot, Node.hasVal, Node.lenChildren, hbits, hpos,
    hrem, Rust.unwrap_some, Prefix.fromSlices_pair]
  cases Prefix.new (key ++ [1]) <;> rfl

end TrieMap

end Trie
