import Algors.Lib.Separation
import Algors.Trie.Placed
import Mathlib.Tactic.Abel

/-!
# What is owned of the memory

The memory of a trie as one that is shared out: its keys are the addresses of the blocks of
nodes, of the buffers, of the bytes and of the blocks of bytes, and the variable of the root;
the values that live in it are those in the slots. For each step on the memory there is what
it needs to own and what it leaves, and for each constructor of prefixes and the end of one.

`Sound` is all that is assumed of the allocator: that it returns null, or an address that is
aligned as it was asked, with nothing at it. Then a call that returns in the trie without
blocks may stop for lack of memory here; `MayStop` is that, and nothing else is allowed for.
-/

namespace Trie

namespace Placed

open Owned (Slot)

variable [Target]

/-- **The keys of the memory.** -/
inductive Key where
  | node (a : Usize)
  | buffer (a : Usize)
  | cell (a : ℕ)
  | chunk (a : ℕ)
  | root
deriving DecidableEq

/-- **What is at a key.** -/
inductive Content (T : Type) where
  | node (b : Block Layout (NodeBlock T))
  | buffer (b : Block Layout Node)
  | cell (c : Cell)
  | chunk (layout : Layout)
  | root (w : Option Node)

variable {T : Type}

instance : Store (Heap T) Key (Content T) T where
  view h
    | .node a => (h.nodes a).map .node
    | .buffer a => (h.buffers a).map .buffer
    | .cell a => if h.bytes a = .free then none else some (.cell (h.bytes a))
    | .chunk a => (h.chunks a).map .chunk
    | .root => some (.root h.root)
  dropped h := h.dropped

/-- What a part of a program owns of the memory. -/
abbrev Held (T : Type) := Holdings Key (Content T) T

/-- **The one way a call may stop** that returns without blocks: the allocator has none. -/
def MayStop (e : Stop) : Prop := e = .allocError

/-- **The address has room for a block.** -/
structure Heap.Unused (h : Heap T) (a : Usize) (layout : Layout) : Prop where
  node : h.nodes a = none
  buffer : h.buffers a = none
  chunk : h.chunks a.toNat = none
  bytes : ∀ i < layout.size, h.bytes (a.toNat + i) = .free

/-- **What may be assumed of an allocator.** -/
def Allocator.Sound (A : Allocator T) : Prop :=
  ∀ h layout, A h layout ≠ 0 → layout.align ∣ (A h layout).toNat ∧ h.Unused (A h layout) layout

/-! ## Memory that changed at a key

Each part of the memory has its own kind of key. A step that writes at one key leaves what is
seen at all others, and these lemmas say so for each part. -/

/-- How often the allocator was asked does not matter. -/
theorem has_ticks {h : Heap T} {total : Multiset T} {held : Held T} (hh : Has total h held)
    (n : ℕ) : Has total { h with ticks := n } held := ⟨hh.owns, hh.values⟩

section Views

variable (h : Heap T)

theorem view_nodes (a : Usize) (b : Option (Block Layout (NodeBlock T))) :
    Store.view { h with nodes := Function.update h.nodes a b }
      = Function.update (Store.view h) (.node a) (b.map .node) := by
  funext k
  cases k with
  | node a' =>
    by_cases ha : a' = a
    · subst ha
      rw [Function.update_self]
      exact congrArg (Option.map _) (Function.update_self ..)
    · rw [Function.update_of_ne (fun h => ha (Key.node.inj h))]
      exact congrArg (Option.map _) (Function.update_of_ne ha ..)
  | buffer | cell | chunk | root => exact (Function.update_of_ne (by simp) ..).symm

theorem view_buffers (a : Usize) (b : Option (Block Layout Node)) :
    Store.view { h with buffers := Function.update h.buffers a b }
      = Function.update (Store.view h) (.buffer a) (b.map .buffer) := by
  funext k
  cases k with
  | buffer a' =>
    by_cases ha : a' = a
    · subst ha
      rw [Function.update_self]
      exact congrArg (Option.map _) (Function.update_self ..)
    · rw [Function.update_of_ne (fun h => ha (Key.buffer.inj h))]
      exact congrArg (Option.map _) (Function.update_of_ne ha ..)
  | node | cell | chunk | root => exact (Function.update_of_ne (by simp) ..).symm

theorem view_chunks (a : ℕ) (layout : Option Layout) :
    Store.view { h with chunks := Function.update h.chunks a layout }
      = Function.update (Store.view h) (.chunk a) (layout.map .chunk) := by
  funext k
  cases k with
  | chunk a' =>
    by_cases ha : a' = a
    · subst ha
      rw [Function.update_self]
      exact congrArg (Option.map _) (Function.update_self ..)
    · rw [Function.update_of_ne (fun h => ha (Key.chunk.inj h))]
      exact congrArg (Option.map _) (Function.update_of_ne ha ..)
  | node | buffer | cell | root => exact (Function.update_of_ne (by simp) ..).symm

theorem view_root (w : Option Node) :
    Store.view { h with root := w }
      = Function.update (Store.view h) Key.root (some (.root w)) := by
  funext k
  cases k with
  | root =>
    rw [Function.update_self]
    rfl
  | node | buffer | cell | chunk => exact (Function.update_of_ne (by simp) ..).symm

end Views

variable {stops : Stop → Prop} {a : Usize} {layout : Layout}

/-! ## Values and the root

A value is owned by who has to drop it. The variable of the root is a place like a slot of a
buffer, and is there for as long as the map. -/

/-- The value, if there is one. -/
def valueOf : Option T → Held T
  | none => 0
  | some v => Holdings.value v

theorem realizes_dispose (v : T) : Realizes stops (dispose v) (Holdings.value v)
    (.ok () : Rust Unit) fun _ _ kept => kept = 0 :=
  fun _ _ h _ _ hh => Or.inr ⟨(), { h with dropped := v :: h.dropped }, 0, rfl, rfl,
    (zero_add (_ : Held T)).symm ▸ hh.drop rfl rfl⟩

/-- The word in the variable of the root. -/
def rootAt (w : Option Node) : Held T := Holdings.single .root (.root w)

theorem looks_getRoot (w : Option Node) :
    Looks (getRoot : Prog T (Option Node)) (rootAt w) (.ok w : Rust _) := by
  rintro _ ⟨⟩ h total frame hh
  have hroot : h.root = w := Content.root.inj (Option.some.inj hh.get)
  exact congrArg (fun w => Except.ok (w, h)) hroot

theorem realizes_setRoot (w w' : Option Node) : Realizes stops (setRoot w' : Prog T Unit)
    (rootAt w) (.ok () : Rust Unit) fun _ _ kept => kept = rootAt w' :=
  fun _ _ h _ _ hh => Or.inr ⟨(), { h with root := w' }, _, rfl, rfl, hh.set (view_root h w') rfl⟩

/-- A step that has no part in the memory. -/
theorem looks_lift {α : Type} {x : Raw α} {p : Rust α} {given : Held T}
    (h : ∀ a, p = .ok a → x = .ok a) : Looks (lift x : Prog T α) given p := by
  intro a ha s _ _ _
  rw [lift, h a ha]
  rfl

theorem lift_ok_bind {α β : Type} (a : α) (f : α → Prog T β) : lift (.ok a) >>= f = f a := rfl

theorem looks_lift_lift {α : Type} (p : Rust α) {given : Held T} :
    Looks (lift (Raw.lift p) : Prog T α) given p :=
  looks_lift fun a ha => by rw [ha]; rfl

/-! ## The blocks of nodes

A block that was just allocated has no content yet; reading a node from it fails. Freeing takes
the block with the layout that it was allocated with, and with another one it would fail. -/

/-- The block of a node, which has one cell. -/
def nodeAt (a : Usize) (layout : Layout) (c : Option (NodeBlock T)) : Held T :=
  Holdings.single (.node a) (.node ⟨layout, [c]⟩)

theorem nodes_of_has {h : Heap T} {total : Multiset T} {c : Option (NodeBlock T)}
    {frame : Held T} (hh : Has total h (nodeAt a layout c + frame)) :
    h.nodes a = some ⟨layout, [c]⟩ := by
  obtain ⟨b, hb, heq⟩ := Option.map_eq_some_iff.mp hh.get
  rw [hb, Content.node.inj heq]

theorem looks_readNode (b : NodeBlock T) :
    Looks (readNode ⟨a, 0⟩) (nodeAt a layout (some b)) (.ok b : Rust _) := by
  rintro _ ⟨⟩ h total frame hh
  rw [readNode, Blocks.read, nodes_of_has hh]
  rfl

theorem realizes_writeNode (c : Option (NodeBlock T)) (b : NodeBlock T) :
    Realizes stops (writeNode ⟨a, 0⟩ b) (nodeAt a layout c) (.ok () : Rust Unit)
      fun _ _ kept => kept = nodeAt a layout (some b) := by
  rintro _ ⟨⟩ h total frame hh
  refine Or.inr ⟨(), { h with nodes := h.nodes.place a ⟨layout, [some b]⟩ }, _, ?_, rfl,
    hh.set (view_nodes h a _) rfl⟩
  rw [writeNode, Blocks.write, nodes_of_has hh]
  rfl

theorem realizes_allocNode {A : Allocator T} (hA : A.Sound) (layout : Layout) :
    Realizes MayStop (allocNode A layout) 0 (.ok () : Rust Unit) fun p _ kept =>
      ∃ a, p = ⟨a, 0⟩ ∧ a ≠ 0 ∧ layout.align ∣ a.toNat ∧ kept = nodeAt a layout none := by
  rintro _ ⟨⟩ h total frame hh
  rw [zero_add] at hh
  rw [allocNode]
  dsimp only
  split_ifs with hnull
  · exact Or.inl ⟨_, rfl, rfl⟩
  · obtain ⟨halign, hunused⟩ := hA h layout hnull
    refine Or.inr ⟨_, _, _, rfl, ⟨_, rfl, hnull, halign, rfl⟩, ?_⟩
    exact hh.insert (congrArg (Option.map _) hunused.node) (view_nodes h _ _) rfl

theorem realizes_freeNode (c : Option (NodeBlock T)) :
    Realizes stops (freeNode ⟨a, 0⟩ layout) (nodeAt a layout c) (.ok () : Rust Unit)
      fun _ _ kept => kept = 0 := by
  rintro _ ⟨⟩ h total frame hh
  refine Or.inr ⟨(), { h with nodes := Function.update h.nodes a none }, 0, ?_, rfl, ?_⟩
  · rw [freeNode, Blocks.deallocate, nodes_of_has hh]
    exact congrArg (Raw.defined · >>= _) (if_pos ⟨rfl, rfl⟩)
  · rw [zero_add]
    exact hh.erase (view_nodes h a none) rfl

/-! ## Buffers

A buffer is owned as a whole, with the words in its cells. A read or a write has to be in
bounds, which the vectors see to. -/

/-- A buffer. -/
def bufferAt (a : Usize) (b : Block Layout Node) : Held T :=
  Holdings.single (.buffer a) (.buffer b)

section Buffers

variable {b : Block Layout Node} {i n : ℕ} {w : Node}

theorem buffers_of_has {h : Heap T} {total : Multiset T} {frame : Held T}
    (hh : Has total h (bufferAt a b + frame)) : h.buffers a = some b := by
  obtain ⟨b', hb, heq⟩ := Option.map_eq_some_iff.mp hh.get
  rw [hb, Content.buffer.inj heq]

theorem looks_readWord (hw : b.cells[i]? = some (some w)) :
    Looks (readWord ⟨a, i⟩ : Prog T Node) (bufferAt a b) (.ok w : Rust _) := by
  rintro _ ⟨⟩ h total frame hh
  have hread : h.buffers.read ⟨a, i⟩ = some w := by
    rw [Blocks.read, buffers_of_has hh]
    exact congrArg (· >>= fun cell => cell) hw
  rw [readWord, hread]
  rfl

theorem looks_addWords (hn : i + n ≤ b.cells.length) :
    Looks (addWords ⟨a, i⟩ n : Prog T (Ptr Usize)) (bufferAt a b) (.ok ⟨a, i + n⟩ : Rust _) := by
  rintro _ ⟨⟩ h total frame hh
  rw [addWords, Blocks.add_eq_some (buffers_of_has hh) hn]
  rfl

theorem realizes_writeWord (hi : i < b.cells.length) (w : Node) :
    Realizes stops (writeWord ⟨a, i⟩ w : Prog T Unit) (bufferAt a b) (.ok () : Rust Unit)
      fun _ _ kept => kept = bufferAt a { b with cells := b.cells.set i (some w) } := by
  rintro _ ⟨⟩ h total frame hh
  refine Or.inr ⟨(), { h with
    buffers := h.buffers.place a { b with cells := b.cells.set i (some w) } }, _, ?_, rfl,
    hh.set (view_buffers h a _) rfl⟩
  rw [writeWord, Blocks.write, buffers_of_has hh]
  exact congrArg (Raw.defined · >>= _) (if_pos hi)

theorem realizes_freeBuffer :
    Realizes stops (freeBuffer ⟨a, 0⟩ b.layout : Prog T Unit) (bufferAt a b) (.ok () : Rust Unit)
      fun _ _ kept => kept = 0 := by
  rintro _ ⟨⟩ h total frame hh
  refine Or.inr ⟨(), { h with buffers := Function.update h.buffers a none }, 0, ?_, rfl, ?_⟩
  · rw [freeBuffer, Blocks.deallocate, buffers_of_has hh]
    exact congrArg (Raw.defined · >>= _) (if_pos ⟨rfl, rfl⟩)
  · rw [zero_add]
    exact hh.erase (view_buffers h a none) rfl

end Buffers

/-! ## Prefixes

A short prefix is all in its own bytes; the data of a longer one is in a block, which is owned.
What is read through it is what it was made of. -/

/-- The block of a long prefix: its layout, and the bytes in its cells. -/
def chunkAt (pt : ℕ) (d : Bytes) : Held T :=
  Holdings.single (.chunk pt) (.chunk ⟨d.length, 2⟩)
    + Holdings.row .cell pt (d.map fun b => .cell (.byte b))

/-- **A packed prefix stands for data**: its 16 bytes are those of inline data, or they are
the fields of a block that has the data. -/
inductive PrefixHolds (p : Packed) : Bytes → Held T → Prop
  | inline {d : Bytes} (hd : d.length ≤ INLINE_CAP) (hp : p.bytes = Packed.inlineBytes d) :
      PrefixHolds p d 0
  | chunk {d : Bytes} {pt : ℕ} {first : UInt8} (hd : ¬ d.length ≤ INLINE_CAP)
      (hlt : d.length < 2 ^ 32) (hlayout : d.length < isizeMax) (heven : 2 ∣ pt)
      (hpt : pt < 2 ^ (8 * PTR_SIZE)) (hfirst : d.head? = some first)
      (hp : p.bytes = Packed.allocBytes d.length first pt) : PrefixHolds p d (chunkAt pt d)

section Prefixes

variable {p : Packed} {d : Bytes} {r : Held T} {h : Heap T} {total : Multiset T}
  {frame : Held T}

/-- The bytes in the cells of a block. -/
theorem bytes_of_has {pt : ℕ} (hh : Has total h (chunkAt pt d + frame)) (i : ℕ) (b : UInt8)
    (hb : d[i]? = some b) : h.bytes (pt + i) = .byte b := by
  rw [chunkAt, add_right_comm, add_comm _ (Holdings.row _ _ _)] at hh
  have hcell := hh.getRow (i := i) (c := .cell (.byte b)) (by rw [List.getElem?_map, hb]; rfl)
  change (if h.bytes (pt + i) = .free then none else some (.cell (h.bytes (pt + i))))
    = some (Content.cell (.byte b)) at hcell
  split_ifs at hcell
  exact Content.cell.inj (Option.some.inj hcell)

theorem view_bytes (bytes : Memory) (k : Key) (hk : ∀ a, k = .cell a → bytes a = h.bytes a) :
    Store.view { h with bytes := bytes } k = Store.view h k := by
  cases k with
  | cell a =>
    show (if bytes a = .free then none else some (Content.cell (bytes a))) = _
    rw [hk a rfl]
    rfl
  | node | buffer | chunk | root => rfl

variable [hwidth : PointerWidth]

/-- **Who owns the prefix can read it.** -/
theorem PrefixHolds.decodes (hp : PrefixHolds p d r) (hh : Has total h (r + frame)) :
    Packed.Decodes h.bytes p d := by
  cases hp with
  | inline hd hp => exact Packed.decodes_inline hwidth.eq hd hp
  | chunk hd hlt hlayout heven hpt hfirst hp =>
    exact Packed.decodes_alloc hwidth.eq hd hlt heven hpt (Memory.read_eq (bytes_of_has hh)) hfirst
      hp

theorem looks_asRef (hp : PrefixHolds p d r) : Looks (asRef p) r (.ok d : Rust _) := by
  rintro _ ⟨⟩ h total frame hh
  obtain ⟨hasRef, -, -, -⟩ := hp.decodes hh
  rw [asRef, hasRef]
  rfl

theorem looks_len (hp : PrefixHolds p d r) :
    Looks (lift p.len : Prog T ℕ) r (.ok d.length : Rust _) := by
  rintro _ ⟨⟩ h total frame hh
  obtain ⟨-, hlen, -, -⟩ := hp.decodes hh
  rw [lift, hlen]
  rfl

theorem looks_firstByte {pre : Prefix} (hp : PrefixHolds p pre.bytes r) :
    Looks (lift p.firstByte : Prog T UInt8) r pre.firstByte := by
  intro b hb h total frame hh
  obtain ⟨d, hlt⟩ := pre
  cases d with
  | nil => cases hb
  | cons b' d =>
    obtain rfl := Except.ok.inj hb
    obtain ⟨-, -, -, hfirst⟩ := hp.decodes hh
    rw [lift, hfirst b' rfl]
    rfl

/-! ### The constructors

Both take the data and make the same prefix, one from a slice and one from several. Where the
data does not fit they panic before anything is allocated. -/

/-- Data that fits inline. -/
theorem new_inline_eq (alloc : Layout → ℕ) (mem : Memory) (hd : d.length ≤ INLINE_CAP) :
    ∃ p, Packed.new alloc mem d = .ok (p, mem) ∧ p.bytes = Packed.inlineBytes d := by
  obtain ⟨htagwithin, hdatawithin⟩ := (Packed.fieldsApart hwidth.eq).inlineWithin
  obtain ⟨p₁, hset, hp₁⟩ := Packed.set_eq Packed.zero (Packed.tagByte d.length) htagwithin
  have hroom : INLINE_DATA + d.length ≤ PREFIX_SIZE := by omega
  obtain ⟨p₂, hwrite, hp₂⟩ := Packed.write_eq p₁ hroom
  refine ⟨p₂, ?_, by rw [hp₂, hp₁]; rfl⟩
  simp only [Packed.new, if_pos hd, hset, Raw.ok_bind, hwrite]

/-- Data in a block, and nothing else is written. -/
theorem new_chunk_eq (alloc : Layout → ℕ) (mem : Memory) (hd : ¬ d.length ≤ INLINE_CAP)
    (hlt : d.length < 2 ^ 32) (hlayout : d.length < isizeMax) (hnull : alloc ⟨d.length, 2⟩ ≠ 0)
    {pt : ℕ} (hpt : alloc ⟨d.length, 2⟩ = pt) :
    ∃ p mem' first, Packed.new alloc mem d = .ok (p, mem') ∧ d.head? = some first
      ∧ p.bytes = Packed.allocBytes d.length first pt
      ∧ (∀ i b, d[i]? = some b → mem' (pt + i) = .byte b)
      ∧ ∀ a, a < pt ∨ pt + d.length ≤ a → mem' a = mem a := by
  obtain ⟨b, hhead, hindex⟩ : ∃ b, d.head? = some b ∧ Rust.index d 0 = .ok b := by
    cases d with
    | nil => exact absurd (Nat.zero_le _) hd
    | cons b rest => exact ⟨b, rfl, rfl⟩
  have hblock : ∀ a, pt ≤ a → a < pt + d.length → mem.allocate pt d.length a ≠ .free :=
    fun a hle hltend => by
      rw [Memory.allocate, if_pos ⟨hle, hltend⟩]
      exact Cell.noConfusion
  obtain ⟨mem', hwrite, hin, hout⟩ := Memory.write_eq hblock
  obtain ⟨p, hself, hbytes⟩ := Packed.allocated_eq hwidth.eq d.length b pt
  refine ⟨p, mem', b, ?_, hhead, hbytes, hin, fun a ha => ?_⟩
  · simp only [Packed.new, if_neg hd, Packed.allocateData_eq hwidth.eq hlt hlayout hnull,
      Raw.ok_bind, hpt, hwrite, hindex, hself]
  · rw [hout a ha, Memory.allocate, if_neg (by omega)]

/-- **A constructor of prefixes** takes a block where it needs one. -/
theorem realizes_construct {A : Allocator T} (hA : A.Sound)
    {make : (Layout → ℕ) → Memory → Raw (Packed × Memory)}
    (hmake : ∀ alloc mem, make alloc mem = Packed.new alloc mem d) :
    Realizes MayStop (construct A d.length make) 0 (Prefix.new d)
      fun p pre kept => pre.bytes = d ∧ PrefixHolds p d kept := by
  intro pre hpre h total frame hh
  rw [zero_add] at hh
  have hfits := Prefix.fits_of_new hpre
  obtain ⟨hlt, hlayout⟩ := (Prefix.fits_iff hwidth.eq).mp hfits
  rw [Prefix.new_eq_ok hfits] at hpre
  obtain rfl := Except.ok.inj hpre
  rw [construct]
  dsimp only
  by_cases hd : d.length ≤ INLINE_CAP
  · obtain ⟨p, hnew, hp⟩ := new_inline_eq (fun l => (A h l).toNat) h.bytes hd
    rw [hmake, hnew, if_pos hd]
    exact Or.inr ⟨p, _, 0, rfl, ⟨rfl, .inline hd hp⟩, (zero_add frame).symm ▸ has_ticks hh _⟩
  by_cases hnull : A h ⟨d.length, 2⟩ = 0
  · -- there is no room
    refine Or.inl ⟨.allocError, rfl, ?_⟩
    have hzero : (A h ⟨d.length, 2⟩).toNat = 0 := by
      rw [hnull]
      exact Nat.zero_mod _
    rw [hmake]
    simp only [Packed.new, if_neg hd, Packed.allocateData, toU32, if_pos hlt, Rust.expect_some,
      Raw.lift_ok, Raw.ok_bind, Prefix.fromSizeAlign_two hwidth.eq, if_pos hlayout, if_pos hzero]
    rfl
  · obtain ⟨halign, hunused⟩ := hA h ⟨d.length, 2⟩ hnull
    have hne : (A h ⟨d.length, 2⟩).toNat ≠ 0 := fun hzero => hnull (BitVec.eq_of_toNat_eq hzero)
    obtain ⟨p, mem', first, hnew, hfirst, hp, hin, hout⟩ :=
      new_chunk_eq (fun l => (A h l).toNat) h.bytes hd hlt hlayout hne rfl
    rw [hmake, hnew, if_neg hd]
    refine Or.inr ⟨p, _, _, rfl,
      ⟨rfl, .chunk hd hlt hlayout halign (A h ⟨d.length, 2⟩).isLt hfirst hp⟩, ?_⟩
    have hchunk := hh.insert (k := Key.chunk (A h ⟨d.length, 2⟩).toNat)
      (congrArg (Option.map Content.chunk) hunused.chunk)
      (view_chunks h (A h ⟨d.length, 2⟩).toNat (some ⟨d.length, 2⟩)) rfl
    rw [chunkAt, add_right_comm, add_comm _ (Holdings.row _ _ _)]
    refine hchunk.insertRow (fun a b hab => Key.cell.inj hab) (fun i hi => ?_)
      (fun i c hc => ?_) (fun k hk => ?_) rfl
    · rw [List.length_map] at hi
      exact if_pos (hunused.bytes i hi)
    · rw [List.getElem?_map] at hc
      obtain ⟨b, hb, rfl⟩ := Option.map_eq_some_iff.mp hc
      show (if mem' _ = .free then none else some (Content.cell (mem' _))) = _
      rw [hin i b hb]
      rfl
    · refine view_bytes (h := { h with
        chunks := Function.update h.chunks (A h ⟨d.length, 2⟩).toNat (some ⟨d.length, 2⟩)
        ticks := h.ticks + 1 }) _ k fun a ha => hout a ?_
      by_contra hin
      refine hk (a - (A h ⟨d.length, 2⟩).toNat) (by rw [List.length_map]; omega) ?_
      rw [ha]
      congr 1
      omega

theorem realizes_newPrefix {A : Allocator T} (hA : A.Sound) (d : Bytes) :
    Realizes MayStop (newPrefix A d) 0 (Prefix.new d)
      fun p pre kept => pre.bytes = d ∧ PrefixHolds p d kept :=
  realizes_construct hA fun _ _ => rfl

theorem realizes_fromSlices {A : Allocator T} (hA : A.Sound) (slices : List Bytes) :
    Realizes MayStop (fromSlices A slices) 0 (Prefix.fromSlices slices)
      fun p pre kept => pre.bytes = slices.flatten ∧ PrefixHolds p slices.flatten kept := by
  intro pre hpre
  refine realizes_construct hA (fun alloc mem => ?_) pre hpre
  have hlt := (Prefix.fits_of_new hpre).lt
  refine Packed.fromSlices_eq_new hwidth.eq (hlt.trans_le ?_)
  have hpow : 4 ≤ PTR_SIZE := by
    have := hwidth.eq
    omega
  exact Nat.pow_le_pow_right (by decide) (Nat.mul_le_mul_left 8 hpow)

/-! ### The end of a prefix

A prefix that has a block gives it back. The pointer is taken apart and put together again on
the way, which loses nothing of it. -/

/-- The pointer of a long prefix. -/
theorem ptrAlloc_eq {len pt : ℕ} {first : UInt8} (hpt : pt < 2 ^ (8 * PTR_SIZE))
    (hp : p.bytes = Packed.allocBytes len first pt) : p.ptrAlloc = .ok pt := by
  obtain ⟨hptrwithin, hlenwithin, hfirstwithin⟩ := (Packed.fieldsApart hwidth.eq).allocWithin
  have hlen : (overwrite Packed.zero.bytes ALLOC_LEN (toBytes ALLOC_LEN_SIZE len)).length
      = PREFIX_SIZE := by
    rw [length_overwrite (by rwa [Packed.length_toBytes, Packed.zero.length_eq])]
    exact Packed.zero.length_eq
  have hfirst : (overwrite (overwrite Packed.zero.bytes ALLOC_LEN (toBytes ALLOC_LEN_SIZE len))
      ALLOC_FIRST_BYTE [first]).length = PREFIX_SIZE := by
    rwa [length_overwrite (by rw [hlen]; exact hfirstwithin)]
  have hrun : run p.bytes ALLOC_DATA_PTR PTR_SIZE = toBytes PTR_SIZE pt := by
    have hroom : ALLOC_DATA_PTR + (toBytes PTR_SIZE pt).length ≤ PREFIX_SIZE := by
      rwa [Packed.length_toBytes]
    have hself := run_overwrite_self (hfirst.symm ▸ hroom)
    rw [Packed.length_toBytes] at hself
    rw [hp]
    exact hself
  rw [Packed.ptrAlloc, Packed.read, if_pos hptrwithin, hrun, Raw.ok_bind,
    Packed.ofBytes_toBytes hpt]

omit hwidth in
/-- **The block is freed** with the layout it was allocated with. -/
theorem realizes_freeChunk {pt : ℕ} :
    Realizes stops (freeChunk pt ⟨d.length, 2⟩ : Prog T Unit) (chunkAt pt d) (.ok () : Rust Unit)
      fun _ _ kept => kept = 0 := by
  rintro _ ⟨⟩ h total frame hh
  have hchunk : h.chunks pt = some ⟨d.length, 2⟩ := by
    rw [chunkAt, add_assoc] at hh
    obtain ⟨b, hb, heq⟩ := Option.map_eq_some_iff.mp hh.get
    rw [hb, Content.chunk.inj heq]
  refine Or.inr ⟨(), _, 0, if_pos hchunk, rfl, ?_⟩
  rw [chunkAt, add_assoc] at hh
  have herase := hh.erase (view_chunks h pt none) rfl
  rw [zero_add]
  refine herase.eraseRow (fun i hi => ?_) (fun k hk => ?_) rfl
  · rw [List.length_map] at hi
    exact if_pos (if_pos ⟨Nat.le_add_right _ _, Nat.add_lt_add_left hi _⟩)
  · refine view_bytes (h := { h with chunks := Function.update h.chunks pt none }) _ k
      fun a ha => if_neg ?_
    rintro ⟨hle, hlt⟩
    dsimp only at hlt
    refine hk (a - pt) (by rw [List.length_map]; omega) ?_
    rw [ha]
    congr 1
    omega

/-- **`Prefix::drop`** gives the block back. -/
theorem realizes_dropPrefix (hp : PrefixHolds p d r) :
    Realizes stops (dropPrefix p : Prog T Unit) r (.ok () : Rust Unit)
      fun _ _ kept => kept = 0 := by
  rintro _ ⟨⟩ h total frame hh
  obtain ⟨-, hlen, hinline, -⟩ := hp.decodes hh
  cases hp with
  | inline hd hp =>
    refine Or.inr ⟨(), h, 0, ?_, rfl, hh⟩
    rw [dropPrefix, hinline, decide_eq_true hd, lift_ok_bind, if_pos rfl]
    rfl
  | @chunk pt first hd hlt hlayout heven hpt hfirst hp =>
    rw [decide_eq_false hd] at hinline
    have hlenAlloc : p.lenAlloc = .ok d.length := by
      rw [Packed.len, hinline] at hlen
      exact hlen
    rw [dropPrefix, hinline, lift_ok_bind, if_neg Bool.false_ne_true, hlenAlloc, lift_ok_bind,
      Prefix.fromSizeAlign_two hwidth.eq, if_pos hlayout, Rust.unwrap_some, Raw.lift_ok,
      lift_ok_bind, ptrAlloc_eq hpt hp, lift_ok_bind]
    exact realizes_freeChunk () rfl h total frame hh

end Prefixes

end Placed

end Trie
