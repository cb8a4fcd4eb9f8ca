import Algors.Trie.Children
import Algors.Trie.Map

/-!
# What a trie stores

`Node.entries` lists the keys and values stored at and below a node, the keys
from the node's own prefix on, in the order of a depth-first walk. It is the
abstraction every operation is specified against: an operation on a tree is
right when it changes the entries in the right way.

`Node.Wf room` is the representation invariant: along every path, bitmap and
children agree, and the prefixes add up to at most `room` bytes. Below 2³² the
bound keeps every concatenation of prefixes within a `u32` length; above it, a
call may fail on one that is longer.

`walkStep` says once what a turn of any walk down the tree finds, so that the
loops, which differ only in what they do with it, are specified by cases on
it.
-/

namespace Trie

variable {T : Type}

namespace Node

/-- The entry of the node itself. -/
def ownEntry (h : Header T) : List (Bytes × T) :=
  (h.val.map fun v => (h.pfx.bytes, v)).toList

mutual

/-- **The entries at and below a node**, in depth-first order. -/
def entries : Node T → List (Bytes × T)
  | leaf h => ownEntry h
  | internal h _ cs => ownEntry h ++ (entriesList cs).map fun e => (h.pfx.bytes ++ e.1, e.2)

/-- The entries of a list of siblings. -/
def entriesList : List (Node T) → List (Bytes × T)
  | [] => []
  | c :: cs => c.entries ++ entriesList cs

end

theorem mem_ownEntry {h : Header T} {k : Bytes} {v : T} :
    (k, v) ∈ ownEntry h ↔ h.val = some v ∧ k = h.pfx.bytes := by
  unfold ownEntry
  cases h.val with
  | none => simp
  | some w => simp [and_comm, eq_comm]

theorem mem_entriesList {cs : List (Node T)} {e : Bytes × T} :
    e ∈ entriesList cs ↔ ∃ c ∈ cs, e ∈ c.entries := by
  induction cs with
  | nil => simp [entriesList]
  | cons c cs ih => simp [entriesList, ih]

/-- **An entry is the node's own or a child's**, with the node's prefix in
front. -/
theorem mem_entries {n : Node T} {k : Bytes} {v : T} :
    (k, v) ∈ n.entries ↔ (n.val = some v ∧ k = n.pfx.bytes)
      ∨ ∃ c ∈ n.children, ∃ k', k = n.pfx.bytes ++ k' ∧ (k', v) ∈ c.entries := by
  cases n with
  | leaf h => simp [entries, mem_ownEntry, children, val, pfx, header]
  | internal h bitmap cs =>
    simp only [entries, List.mem_append, mem_ownEntry, List.mem_map, mem_entriesList, Prod.exists,
      Prod.mk.injEq, children, val, pfx, header]
    refine or_congr_right ⟨?_, ?_⟩
    · rintro ⟨k', v', ⟨c, hc, he⟩, rfl, rfl⟩
      exact ⟨c, hc, k', rfl, he⟩
    · rintro ⟨c, hc, k', rfl, he⟩
      exact ⟨k', v, ⟨c, hc, he⟩, rfl, rfl⟩

/-- Without children there is at most the node's own entry. -/
theorem mem_entries_of_children_eq_nil {n : Node T} (h : n.children = []) {k : Bytes} {v : T} :
    (k, v) ∈ n.entries ↔ n.val = some v ∧ k = n.pfx.bytes := by
  rw [mem_entries, h]
  simp

/-- Every key below a node starts with its prefix. -/
theorem pfx_prefix_of_mem_entries {n : Node T} {k : Bytes} {v : T} (h : (k, v) ∈ n.entries) :
    n.pfx.bytes <+: k := by
  rcases mem_entries.mp h with ⟨_, rfl⟩ | ⟨c, _, k', rfl, _⟩
  · exact List.prefix_rfl
  · exact List.prefix_append _ _

/-! ## The representation invariant -/

/-- **A well-formed node with `room` bytes left for its path**: its prefix
fits, its bitmap agrees with its children, and these are well formed in the
room that remains. -/
inductive Wf : ℕ → Node T → Prop
  | intro {room : ℕ} {n : Node T} (hlen : n.pfx.bytes.length ≤ room) (hagrees : n.Agrees)
      (hchildren : ∀ c ∈ n.children, Wf (room - n.pfx.bytes.length) c) : Wf room n

namespace Wf

variable {room : ℕ} {n : Node T}

theorem len_le (h : Wf room n) : n.pfx.bytes.length ≤ room := by
  cases h; assumption

theorem agrees (h : Wf room n) : n.Agrees := by
  cases h; assumption

theorem child (h : Wf room n) {c : Node T} (hc : c ∈ n.children) :
    Wf (room - n.pfx.bytes.length) c := by
  cases h with
  | intro _ _ hchildren => exact hchildren c hc

/-- More room does no harm. -/
theorem mono {room' : ℕ} (h : Wf room n) (hle : room ≤ room') : Wf room' n := by
  induction h generalizing room' with
  | intro hlen hagrees _ ih =>
    exact intro (hlen.trans hle) hagrees fun c hc => ih c hc (Nat.sub_le_sub_right hle _)

/-- The value of a node is free. -/
theorem of_children_eq {m : Node T} (h : Wf room n) (hpfx : m.pfx = n.pfx) (hm : m.Agrees)
    (hcs : ∀ c ∈ m.children, c ∈ n.children) : Wf room m :=
  intro (hpfx ▸ h.len_le) hm fun c hc => hpfx ▸ h.child (hcs c hc)

theorem setHeader_val (h : Wf room n) (v : Option T) :
    Wf room (n.setHeader { n.header with val := v }) :=
  h.of_children_eq (by simp [Node.pfx]) (agrees_setHeader.mpr h.agrees) (by simp)

/-- Writing back a well-formed child of the same first byte. -/
theorem setChildByPos (h : Wf room n) {b : UInt8} {c c' : Node T} (hc : c ∈ n.children)
    (hkey : c.key = b.toNat) (hc' : Wf (room - n.pfx.bytes.length) c') (hne : c'.pfx.bytes ≠ [])
    (hkey' : c'.key = b.toNat) : Wf room (n.setChildByPos (childPosFromByte b) c') := by
  obtain ⟨hagrees, hmem⟩ := h.agrees.setChildByPos hc hkey hne hkey'
  have hpfx : (n.setChildByPos (childPosFromByte b) c').pfx = n.pfx := by simp [Node.pfx]
  refine intro (hpfx ▸ h.len_le) hagrees fun x hx => hpfx ▸ ?_
  rcases (hmem x).mp hx with rfl | ⟨hx, _⟩
  · exact hc'
  · exact h.child hx

theorem setVal (h : Wf room n) (v : T) : Wf room (n.setVal v) := h.setHeader_val _

theorem takeVal (h : Wf room n) : Wf room n.takeVal.2 := h.setHeader_val _

end Wf

/-- A leaf is well formed when its prefix fits. -/
theorem wf_leaf {room : ℕ} {h : Header T} (hlen : h.pfx.bytes.length ≤ room) :
    Wf room (leaf h) :=
  Wf.intro hlen trivial fun c hc => by cases hc

/-- **Every node at or below has a value or `m` children.** With one child
asked for no leaf is without a value; with two the tree is path-compressed. -/
inductive Full (m : ℕ) : Node T → Prop
  | intro {n : Node T} (hself : n.hasVal = true ∨ m ≤ n.children.length)
      (hchildren : ∀ c ∈ n.children, Full m c) : Full m n

namespace Full

variable {m : ℕ} {n : Node T}

theorem self (h : Full m n) : n.hasVal = true ∨ m ≤ n.children.length := by
  cases h; assumption

theorem child (h : Full m n) {c : Node T} (hc : c ∈ n.children) : Full m c := by
  cases h with
  | intro _ hchildren => exact hchildren c hc

/-- Fewer children may be asked for. -/
theorem mono {m' : ℕ} (h : Full m n) (hle : m' ≤ m) : Full m' n := by
  induction h with
  | intro hself _ ih => exact intro (hself.imp_right hle.trans) ih

/-- A node with a value is full when its children are. -/
theorem setVal (h : ∀ c ∈ n.children, Full m c) (v : T) : Full m (n.setVal v) :=
  intro (Or.inl (by simp [hasVal])) (by simpa using h)

/-- Writing back a full child. -/
theorem setChildByPos (h : Full m n) (hn : n.Agrees) {b : UInt8} {c c' : Node T}
    (hc : c ∈ n.children) (hkey : c.key = b.toNat) (hne : c'.pfx.bytes ≠ [])
    (hkey' : c'.key = b.toNat) (hc' : Full m c') :
    Full m (n.setChildByPos (childPosFromByte b) c') := by
  obtain ⟨_, hmem⟩ := hn.setChildByPos hc hkey hne hkey'
  refine intro ?_ fun x hx => ?_
  · simpa [hasVal, val] using h.self
  · rcases (hmem x).mp hx with rfl | ⟨hx, _⟩
    · exact hc'
    · exact h.child hx

end Full

/-- A node without value and children. -/
def Dead (n : Node T) : Prop := n.val = none ∧ n.children = []

theorem dead_iff {n : Node T} (hn : n.Agrees) :
    n.lenChildren = 0 ∧ n.hasVal = false ↔ Dead n := by
  rw [hn.lenChildren_eq, List.length_eq_zero_iff, hasVal, Option.isSome_eq_false_iff,
    Option.isNone_iff_eq_none, and_comm]
  rfl

/-- A dead node stores nothing. -/
theorem Dead.not_mem_entries {n : Node T} (h : Dead n) (e : Bytes × T) : e ∉ n.entries := by
  obtain ⟨k, v⟩ := e
  rw [mem_entries_of_children_eq_nil h.2, h.1]
  simp

/-- A full node is not dead. -/
theorem Full.not_dead {j : ℕ} {n : Node T} (hj : 0 < j) (h : Full j n) : ¬ Dead n := by
  rintro ⟨hval, hcs⟩
  rcases h.self with hv | hlen
  · simp [hasVal, hval] at hv
  · rw [hcs, List.length_nil] at hlen
    omega

/-! ## The branch of a child

The keys below a child are the keys that go on, past the node's prefix, with
the child's first byte. -/

section Branch

variable {n : Node T} {b : UInt8} {c : Node T}

/-- A key of a child starts with the child's byte. -/
theorem cons_of_mem_entries {k : Bytes} {v : T} (hne : c.pfx.bytes ≠ []) (hkey : c.key = b.toNat)
    (h : (k, v) ∈ c.entries) : ∃ bs, k = b :: bs := by
  obtain ⟨t, ht⟩ := exists_pfx_of_key_eq hne hkey
  obtain ⟨rest, rfl⟩ := pfx_prefix_of_mem_entries h
  exact ⟨t ++ rest, by rw [ht]; rfl⟩

/-- **The entry at the prefix itself** is the node's own. -/
theorem Agrees.mem_entries_self (hn : n.Agrees) {v : T} :
    (n.pfx.bytes, v) ∈ n.entries ↔ n.val = some v := by
  rw [mem_entries]
  constructor
  · rintro (⟨hv, _⟩ | ⟨c, hc, k', hk, he⟩)
    · exact hv
    · obtain rfl : k' = [] := by simpa using hk
      exact absurd (List.prefix_nil.mp (pfx_prefix_of_mem_entries he)) (hn.nonempty hc)
  · exact fun hv => Or.inl ⟨hv, rfl⟩

/-- **The entries past the prefix** are those of the child for the next byte. -/
theorem Agrees.mem_entries_cons (hn : n.Agrees) {bs : Bytes} {v : T} :
    (n.pfx.bytes ++ b :: bs, v) ∈ n.entries
      ↔ ∃ c ∈ n.children, c.key = b.toNat ∧ (b :: bs, v) ∈ c.entries := by
  rw [mem_entries]
  constructor
  · rintro (⟨_, hk⟩ | ⟨c, hc, k', hk, he⟩)
    · simp at hk
    · obtain rfl := List.append_cancel_left hk
      obtain ⟨t, ht⟩ := pfx_prefix_of_mem_entries he
      obtain ⟨a, as, hp⟩ := List.exists_cons_of_ne_nil (hn.nonempty hc)
      rw [hp, List.cons_append] at ht
      obtain ⟨rfl, _⟩ := List.cons.inj ht
      exact ⟨c, hc, key_eq_of_pfx hp, he⟩
  · rintro ⟨c, hc, _, he⟩
    exact Or.inr ⟨c, hc, _, rfl, he⟩

/-- Where a child is for the next byte, the entries past it are its own. -/
theorem Agrees.mem_entries_child (hn : n.Agrees) (hc : c ∈ n.children) (hkey : c.key = b.toNat)
    {bs : Bytes} {v : T} :
    (n.pfx.bytes ++ b :: bs, v) ∈ n.entries ↔ (b :: bs, v) ∈ c.entries := by
  rw [hn.mem_entries_cons]
  constructor
  · rintro ⟨c', hc', hkey', he⟩
    rwa [hn.sorted.eq_of_key_eq hc' hc (hkey'.trans hkey.symm)] at he
  · exact fun he => ⟨c, hc, hkey, he⟩

/-- The entries below a child are the entries in its branch. -/
theorem Agrees.mem_branch (hn : n.Agrees) (hc : c ∈ n.children) (hkey : c.key = b.toNat)
    {k : Bytes} {v : T} :
    (∃ k', k = n.pfx.bytes ++ k' ∧ (k', v) ∈ c.entries)
      ↔ (k, v) ∈ n.entries ∧ n.pfx.bytes ++ [b] <+: k := by
  constructor
  · rintro ⟨k', rfl, he⟩
    obtain ⟨bs, rfl⟩ := cons_of_mem_entries (hn.nonempty hc) hkey he
    exact ⟨mem_entries.mpr (Or.inr ⟨c, hc, _, rfl, he⟩), ⟨bs, by simp⟩⟩
  · rintro ⟨he, bs, rfl⟩
    rw [List.append_assoc, List.singleton_append] at he ⊢
    exact ⟨_, rfl, (hn.mem_entries_child hc hkey).mp he⟩

/-- An entry outside the branch of `b` is the node's own or of a child with
another byte. -/
theorem Agrees.mem_entries_not_branch (hn : n.Agrees) {k : Bytes} {v : T} :
    (k, v) ∈ n.entries ∧ ¬ n.pfx.bytes ++ [b] <+: k
      ↔ (n.val = some v ∧ k = n.pfx.bytes)
        ∨ ∃ c ∈ n.children, c.key ≠ b.toNat
            ∧ ∃ k', k = n.pfx.bytes ++ k' ∧ (k', v) ∈ c.entries := by
  rw [mem_entries]
  constructor
  · rintro ⟨⟨hv, rfl⟩ | ⟨c, hc, k', rfl, he⟩, hnot⟩
    · exact Or.inl ⟨hv, rfl⟩
    · refine Or.inr ⟨c, hc, fun hkey => hnot ?_, k', rfl, he⟩
      exact ((hn.mem_branch hc hkey).mp ⟨k', rfl, he⟩).2
  · rintro (⟨hv, rfl⟩ | ⟨c, hc, hkey, k', rfl, he⟩)
    · exact ⟨Or.inl ⟨hv, rfl⟩, fun h => by simpa using h.length_le⟩
    · refine ⟨Or.inr ⟨c, hc, k', rfl, he⟩, fun h => hkey ?_⟩
      rw [List.prefix_append_right_inj] at h
      obtain ⟨t, ht⟩ := pfx_prefix_of_mem_entries he
      obtain ⟨bs, hbs⟩ := h
      obtain ⟨a, as, hp⟩ := List.exists_cons_of_ne_nil (hn.nonempty hc)
      rw [← ht, hp] at hbs
      simp only [List.cons_append, List.cons.injEq] at hbs
      rw [key_eq_of_pfx hp, hbs.1]

/-- **Writing a child back** replaces its branch by the entries of the new
child. -/
theorem Agrees.mem_entries_setChildByPos (hn : n.Agrees) (hc : c ∈ n.children)
    (hkey : c.key = b.toNat) {c' : Node T} (hne : c'.pfx.bytes ≠ []) (hkey' : c'.key = b.toNat)
    {k : Bytes} {v : T} :
    (k, v) ∈ (n.setChildByPos (childPosFromByte b) c').entries
      ↔ (∃ k', k = n.pfx.bytes ++ k' ∧ (k', v) ∈ c'.entries)
        ∨ ((k, v) ∈ n.entries ∧ ¬ n.pfx.bytes ++ [b] <+: k) := by
  obtain ⟨_, hmem⟩ := hn.setChildByPos hc hkey hne hkey'
  rw [hn.mem_entries_not_branch, mem_entries]
  simp only [hmem, val, pfx, header_setChildByPos]
  constructor
  · rintro (h | ⟨x, rfl | ⟨hx, hxkey⟩, hk⟩)
    · exact Or.inr (Or.inl h)
    · exact Or.inl hk
    · exact Or.inr (Or.inr ⟨x, hx, hxkey, hk⟩)
  · rintro (hk | h | ⟨x, hx, hxkey, hk⟩)
    · exact Or.inr ⟨c', Or.inl rfl, hk⟩
    · exact Or.inl h
    · exact Or.inr ⟨x, Or.inr ⟨hx, hxkey⟩, hk⟩

/-- **Removing a child** removes its branch. -/
theorem Agrees.mem_entries_removeChild (hn : n.Agrees) (hc : c ∈ n.children)
    (hkey : c.key = b.toNat) {k : Bytes} {v : T} :
    (k, v) ∈ (n.removeChild (childPosFromByte b)).2.entries
      ↔ (k, v) ∈ n.entries ∧ ¬ n.pfx.bytes ++ [b] <+: k := by
  obtain ⟨_, _, _, hmem⟩ := hn.removeChild hc hkey
  rw [hn.mem_entries_not_branch, mem_entries]
  simp only [hmem, val, pfx, header_removeChild]
  simp only [and_assoc]

end Branch

/-! ## Changing one entry -/

/-- **The entries of `n'` are those of `n` with `key` bound to `r`**: to a
value, or to nothing. -/
def EntriesUpdate (n n' : Node T) (key : Bytes) (r : Option T) : Prop :=
  ∀ k v, (k, v) ∈ n'.entries ↔ (k = key ∧ r = some v) ∨ (k ≠ key ∧ (k, v) ∈ n.entries)

namespace EntriesUpdate

variable {n n' : Node T} {b : UInt8} {c c' : Node T} {r : Option T}

/-- Only the entries of the node updated matter. -/
theorem congr_left {m : Node T} {key : Bytes} (h : EntriesUpdate m n' key r)
    (hm : ∀ e, e ∈ m.entries ↔ e ∈ n.entries) : EntriesUpdate n n' key r := by
  intro k v
  rw [h k v, hm]

/-- Changing the value of a node binds its prefix. -/
theorem setHeader (hn : n.Agrees) :
    EntriesUpdate n (n.setHeader { n.header with val := r }) n.pfx.bytes r := by
  intro k v
  have hself : ∀ c ∈ n.children, ∀ k', (k', v) ∈ c.entries → n.pfx.bytes ++ k' ≠ n.pfx.bytes := by
    intro c hc k' he hk
    obtain rfl : k' = [] := by simpa using hk
    exact hn.nonempty hc (List.prefix_nil.mp (pfx_prefix_of_mem_entries he))
  rw [mem_entries, mem_entries]
  simp only [val, pfx, header_setHeader, children_setHeader]
  constructor
  · rintro (⟨hv, rfl⟩ | ⟨c, hc, k', rfl, he⟩)
    · exact Or.inl ⟨rfl, hv⟩
    · exact Or.inr ⟨hself c hc k' he, Or.inr ⟨c, hc, k', rfl, he⟩⟩
  · rintro (⟨rfl, hv⟩ | ⟨hne, ⟨_, rfl⟩ | h⟩)
    · exact Or.inl ⟨hv, rfl⟩
    · exact absurd rfl hne
    · exact Or.inr h

/-- **An update of a child is an update of the node**, with the node's prefix
in front of the key. -/
theorem setChildByPos (hn : n.Agrees) (hc : c ∈ n.children) (hkey : c.key = b.toNat)
    (hne : c'.pfx.bytes ≠ []) (hkey' : c'.key = b.toNat) {bs : Bytes}
    (h : EntriesUpdate c c' (b :: bs) r) :
    EntriesUpdate n (n.setChildByPos (childPosFromByte b) c') (n.pfx.bytes ++ b :: bs) r := by
  intro k v
  rw [hn.mem_entries_setChildByPos hc hkey hne hkey']
  constructor
  · rintro (⟨k', rfl, he⟩ | ⟨he, hnot⟩)
    · rcases (h k' v).mp he with ⟨rfl, hv⟩ | ⟨hk, he'⟩
      · exact Or.inl ⟨rfl, hv⟩
      · exact Or.inr ⟨fun heq => hk (List.append_cancel_left heq),
          ((hn.mem_branch hc hkey).mp ⟨k', rfl, he'⟩).1⟩
    · exact Or.inr ⟨fun heq => hnot ⟨bs, by simp [heq]⟩, he⟩
  · rintro (⟨rfl, hv⟩ | ⟨hk, he⟩)
    · exact Or.inl ⟨_, rfl, (h _ v).mpr (Or.inl ⟨rfl, hv⟩)⟩
    · by_cases hbranch : n.pfx.bytes ++ [b] <+: k
      · obtain ⟨k', rfl, he'⟩ := (hn.mem_branch hc hkey).mpr ⟨he, hbranch⟩
        exact Or.inl ⟨k', rfl, (h k' v).mpr (Or.inr ⟨fun heq => hk (by rw [heq]), he'⟩)⟩
      · exact Or.inr ⟨he, hbranch⟩

end EntriesUpdate

end Node

/-! ## The map -/

namespace TrieMap

open Node

/-- What the map stores. -/
def entries (m : TrieMap T) : List (Bytes × T) :=
  match m.root with
  | none => []
  | some root => root.entries

/-- **A valid map, with keys of at most `room` bytes**: its root is well
formed, and the empty key is not stored. -/
structure Valid (room : ℕ) (m : TrieMap T) : Prop where
  wf : ∀ root, m.root = some root → Wf room root
  nil : ∀ v, ([], v) ∉ m.entries

@[simp] theorem entries_none : entries (⟨none⟩ : TrieMap T) = [] := rfl

@[simp] theorem entries_some (root : Node T) : entries ⟨some root⟩ = root.entries := rfl

theorem valid_none (room : ℕ) : Valid room (⟨none⟩ : TrieMap T) where
  wf _ h := by cases h
  nil v := by simp

/-- All nodes of a map are full. -/
def AllFull (j : ℕ) (m : TrieMap T) : Prop := ∀ root, m.root = some root → Full j root

theorem allFull_none {j : ℕ} : AllFull j (⟨none⟩ : TrieMap T) := fun _ h => by cases h

theorem Valid.mono {room room' : ℕ} {m : TrieMap T} (h : m.Valid room) (hle : room ≤ room') :
    m.Valid room' :=
  ⟨fun root hroot => (h.wf root hroot).mono hle, h.nil⟩

end TrieMap

/-! ## One turn of a walk -/

/-- Turns enough for a walk from a node: one more than the bytes left, and
only as many as these at a node whose prefix uses one up. -/
def Enough (fuel : ℕ) (n : Node T) (data : Bytes) : Prop :=
  0 < fuel ∧ data.length < fuel + if n.pfx.bytes = [] then 0 else 1

theorem enough_walkBound (n : Node T) (key : Bytes) : Enough (walkBound key) n key := by
  unfold Enough walkBound
  split_ifs <;> omega

variable [Target]

open Node

/-- **What a turn of a walk finds** at a node with `data` left to match: the
node's prefix is not a prefix of it; it is the prefix; or it goes on with a
byte for which there is no child, or with one for which there is. -/
inductive WalkStep (fuel room : ℕ) (n : Node T) (data : Bytes) : Prop
  | mismatch (hlcp : Util.lcp n.pfx.bytes data < n.pfx.len) (hpre : ¬ n.pfx.bytes <+: data)
  | ends (hlcp : Util.lcp n.pfx.bytes data = n.pfx.len) (hdata : data = n.pfx.bytes)
  | missing (b : UInt8) (bs : Bytes) (hlcp : Util.lcp n.pfx.bytes data = n.pfx.len)
      (hdata : data = n.pfx.bytes ++ b :: bs)
      (hexists : n.childExists (childPosFromByte b) = false)
      (habsent : ∀ c ∈ n.children, c.key ≠ b.toNat)
  | child (b : UInt8) (bs : Bytes) (c : Node T) (hlcp : Util.lcp n.pfx.bytes data = n.pfx.len)
      (hdata : data = n.pfx.bytes ++ b :: bs)
      (hexists : n.childExists (childPosFromByte b) = true)
      (hget : n.getChildByPos (childPosFromByte b) = some c) (hc : c ∈ n.children)
      (hkey : c.key = b.toNat) (hwf : Wf (room - n.pfx.bytes.length) c)
      (hfuel : Enough fuel c (b :: bs))

/-- **A walk has one of the four cases** at every well-formed node. -/
theorem walkStep {fuel room : ℕ} {n : Node T} {data : Bytes} (hwf : Wf room n)
    (hfuel : Enough (fuel + 1) n data) : WalkStep fuel room n data := by
  have hlcp := Util.lcp_eq_lcpLen n.pfx.bytes data
  by_cases hpre : n.pfx.bytes <+: data
  · have hlen : Util.lcp n.pfx.bytes data = n.pfx.len := by
      rw [hlcp, lcpLen_eq_length_left.mpr hpre, Prefix.len]
    obtain ⟨rest, rfl⟩ := hpre
    cases rest with
    | nil => exact WalkStep.ends hlen (List.append_nil _)
    | cons b bs =>
      by_cases hex : ∃ c ∈ n.children, c.key = b.toNat
      · obtain ⟨c, hc, hkey⟩ := hex
        refine WalkStep.child b bs c hlen rfl ((hwf.agrees.childExists_iff b).mpr ⟨c, hc, hkey⟩)
          (hwf.agrees.getChildByPos_eq hc hkey) hc hkey (hwf.child hc) ?_
        have hne := hwf.agrees.nonempty hc
        obtain ⟨_, hlt⟩ := hfuel
        rw [List.length_append, List.length_cons] at hlt
        refine ⟨?_, ?_⟩
        · split_ifs at hlt with hnil
          · omega
          · have := List.length_pos_of_ne_nil hnil
            omega
        · rw [if_neg hne, List.length_cons]
          split_ifs at hlt with hnil
          · omega
          · have := List.length_pos_of_ne_nil hnil
            omega
      · refine WalkStep.missing b bs hlen rfl ?_ fun c hc hkey => hex ⟨c, hc, hkey⟩
        exact Bool.eq_false_iff.mpr fun h => hex ((hwf.agrees.childExists_iff b).mp h)
  · refine WalkStep.mismatch (lt_of_le_of_ne ?_ fun h => hpre ?_) hpre
    · rw [hlcp]
      exact lcpLen_le_left _ _
    · exact lcpLen_eq_length_left.mp (hlcp ▸ h)

end Trie
