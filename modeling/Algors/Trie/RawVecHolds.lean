import Algors.Trie.Node
import Algors.Trie.RawVec
import Mathlib.Order.Basic

/-!
# What a vector holds

`Holds` is the invariant that relates a vector and the memory to a list: the vector is
null and the list is empty, or the vector is a tagged address, where there is a buffer
of the size that the tag stands for, which holds the list in its first slots. The memory
apart from the buffer is that of the others.

Every operation keeps it and does to the list what it is to do. `insert` may also panic,
where the buffer is full and no layout can be made for a larger one. It never reaches
the assertion that guards growth with less than 256 elements.
-/

namespace Trie

variable [Target]

namespace RawVec

/-! ## Addresses and tags -/

/-- The bits of the tag. -/
theorem getLsbD_tagMask {i : ℕ} :
    TAG_MASK.getLsbD i = (decide (i < 8 * Target.ptrSize) && decide (i < 3)) := by
  rw [TAG_MASK]
  show (BitVec.ofNat _ 7).getLsbD i = _
  rw [BitVec.getLsbD_ofNat, show (7 : ℕ) = 2 ^ 3 - 1 from rfl, Nat.testBit_two_pow_sub_one]

/-- **An address that a tag fits beside**: not null, and a multiple of 8. -/
structure Address (a : Usize) : Prop where
  ne_zero : a ≠ 0
  align : a.toNat % 8 = 0

namespace Address

variable {a : Usize} {t : ℕ}

theorem getLsbD (h : Address a) {i : ℕ} (hi : i < 3) : a.getLsbD i = false := by
  have hbit := Nat.testBit_mod_two_pow a.toNat 3 i
  rw [show 2 ^ 3 = 8 from rfl, h.align, Nat.zero_testBit, decide_eq_true hi, Bool.true_and] at hbit
  exact hbit.symm

theorem ptrSize_pos (h : Address a) : 0 < Target.ptrSize := by
  by_contra hzero
  have hpow : 2 ^ (8 * Target.ptrSize) = 1 := by
    rw [Nat.eq_zero_of_not_pos hzero, Nat.mul_zero, Nat.pow_zero]
  have hlt : a.toNat < 1 := hpow ▸ a.isLt
  refine h.ne_zero (BitVec.eq_of_toNat_eq ?_)
  rw [Nat.lt_one_iff.mp hlt]
  exact (Nat.zero_mod _).symm

/-- A tag has three bits. -/
theorem getLsbD_tag (ht : t < 8) {i : ℕ} (hi : 3 ≤ i) :
    (BitVec.ofNat (8 * Target.ptrSize) t).getLsbD i = false := by
  have hpow : 2 ^ 3 ≤ 2 ^ i := Nat.pow_le_pow_right (by decide) hi
  rw [BitVec.getLsbD_ofNat, Nat.testBit_lt_two_pow (ht.trans_le hpow), Bool.and_false]

/-- **The tag is read back**, -/
theorem or_tag_and_mask (h : Address a) (ht : t < 8) :
    ((a ||| BitVec.ofNat _ t) &&& TAG_MASK).toNat = t := by
  have hword : (a ||| BitVec.ofNat _ t) &&& TAG_MASK = BitVec.ofNat _ t := by
    refine BitVec.eq_of_getLsbD_eq fun i hi => ?_
    rw [BitVec.getLsbD_and, BitVec.getLsbD_or, getLsbD_tagMask, decide_eq_true hi, Bool.true_and]
    by_cases hlow : i < 3
    · rw [h.getLsbD hlow, decide_eq_true hlow, Bool.false_or, Bool.and_true]
    · rw [getLsbD_tag ht (by omega), decide_eq_false hlow, Bool.and_false]
  have hpow : 2 ^ 3 ≤ 2 ^ (8 * Target.ptrSize) :=
    Nat.pow_le_pow_right (by decide) (by have := h.ptrSize_pos; omega)
  rw [hword, BitVec.toNat_ofNat, Nat.mod_eq_of_lt (ht.trans_le hpow)]

/-- and so is the address. -/
theorem or_tag_and_not_mask (h : Address a) (ht : t < 8) :
    (a ||| BitVec.ofNat _ t) &&& ~~~TAG_MASK = a := by
  refine BitVec.eq_of_getLsbD_eq fun i hi => ?_
  rw [BitVec.getLsbD_and, BitVec.getLsbD_or, BitVec.getLsbD_not, getLsbD_tagMask,
    decide_eq_true hi, Bool.true_and]
  by_cases hlow : i < 3
  · rw [h.getLsbD hlow, decide_eq_true hlow, Bool.and_true, Bool.not_true, Bool.and_false]
  · rw [getLsbD_tag ht (by omega), decide_eq_false hlow, Bool.or_false, Bool.and_false,
      Bool.not_false, Bool.and_true]

theorem or_tag_ne_zero (h : Address a) (ht : t < 8) : a ||| BitVec.ofNat _ t ≠ 0 := by
  intro hzero
  have := h.or_tag_and_not_mask ht
  rw [hzero] at this
  exact h.ne_zero (this.symm.trans BitVec.zero_and)

end Address

section Holds

variable {T : Type} [Elem T] {others mem : Buffers T} {v : RawVec} {xs : List T}
  {i n : ℕ} {a : Usize} {t : ℕ} {b : Block Layout T}

/-- **A buffer with its tag**: the slots that the tag stands for, allocated with the
layout for as many. -/
structure Sized (t : ℕ) (b : Block Layout T) : Prop where
  lt : t < 8
  layout : Layout.fromSizeAlign (Elem.size T * 2 ^ (t + 1)) (alignment T) = some b.layout
  cells : b.cells.length = 2 ^ (t + 1)

/-- The same buffer with other contents. -/
theorem Sized.with_cells (h : Sized t b) {cells : List (Option T)}
    (hlen : cells.length = b.cells.length) : Sized t { b with cells := cells } :=
  ⟨h.lt, h.layout, hlen.trans h.cells⟩

/-- **The vector holds the elements of a list**: it is null and there are none, or it is
the address of a buffer with its tag, and the buffer holds them in its first slots. The
memory is that of the others, with the buffer. -/
inductive Holds (others : Buffers T) : Buffers T → RawVec → List T → Prop
  | null : Holds others others new []
  | buffer {a : Usize} {t : ℕ} {b : Block Layout T} {xs : List T} (ha : Address a)
      (hfree : others a = none) (hb : Sized t b) (hxs : Filled b.cells xs) :
      Holds others (others.place a b) ⟨a ||| BitVec.ofNat _ t⟩ xs

/-- What a tagged address says. -/
theorem Address.capacity (h : Address a) (ht : t < 8) :
    (⟨a ||| BitVec.ofNat _ t⟩ : RawVec).capacity = 2 ^ (t + 1) := by
  rw [RawVec.capacity, if_neg (h.or_tag_ne_zero ht), capTag, h.or_tag_and_mask ht,
    Nat.one_shiftLeft]

theorem Address.asMutPtr (h : Address a) (ht : t < 8) :
    (⟨a ||| BitVec.ofNat _ t⟩ : RawVec).asMutPtr = ⟨a, 0⟩ :=
  congrArg (Ptr.mk · 0) (h.or_tag_and_not_mask ht)

omit [Elem T] in
/-- A place that holds an element. -/
theorem deref_eq {p : Ptr Usize} {x : T} (h : mem.read p = some x) : deref mem p = .ok p := by
  rw [deref, h]
  rfl

/-- The slots of the elements can be pointed to, and the end of them. -/
theorem Holds.add (h : Holds others mem v xs) (hne : xs ≠ []) (hi : i + n ≤ xs.length) :
    mem.add ⟨v.asMutPtr.base, i⟩ n = some ⟨v.asMutPtr.base, i + n⟩ := by
  cases h with
  | null => exact absurd rfl hne
  | buffer ha hfree hb hxs =>
    rw [ha.asMutPtr hb.lt]
    exact Blocks.add_place (hi.trans hxs.length_le)

/-- **The slots hold the elements**, -/
theorem Holds.read (h : Holds others mem v xs) {x : T} (hx : xs[i]? = some x) :
    mem.read ⟨v.asMutPtr.base, i⟩ = some x := by
  cases h with
  | null => cases hx
  | buffer ha hfree hb hxs =>
    rw [ha.asMutPtr hb.lt]
    exact Blocks.read_place (hxs i x hx)

/-- and one can be written over. -/
theorem Holds.write (h : Holds others mem v xs) (hi : i < xs.length) (x : T) :
    ∃ mem', mem.write ⟨v.asMutPtr.base, i⟩ x = some mem' ∧ Holds others mem' v (xs.set i x) := by
  cases h with
  | null => cases hi
  | buffer ha hfree hb hxs =>
    rw [ha.asMutPtr hb.lt]
    exact ⟨_, Blocks.write_place (hi.trans_le hxs.length_le) x,
      .buffer ha hfree (hb.with_cells (List.length_set ..)) (hxs.set hi)⟩

/-- A vector that holds something is not null. -/
theorem Holds.tagged_ne_zero (h : Holds others mem v xs) (hne : xs ≠ []) : v.tagged ≠ 0 := by
  cases h with
  | null => exact absurd rfl hne
  | buffer ha hfree hb hxs => exact ha.or_tag_ne_zero hb.lt

/-- **`get`** refers to the element there is, or there is none. -/
theorem get_spec (h : Holds others mem v xs) (i : ℕ) :
    ∃ r, v.get i xs.length mem = .ok r ∧ r.bind mem.read = xs[i]? ∧ (r = none ↔ xs.length ≤ i) := by
  rcases Nat.lt_or_ge i xs.length with hi | hi
  · have hne : xs ≠ [] := List.ne_nil_of_length_pos (Nat.zero_lt_of_lt hi)
    have hread := h.read (List.getElem?_eq_getElem hi)
    refine ⟨some ⟨v.asMutPtr.base, i⟩, ?_, hread.trans (List.getElem?_eq_getElem hi).symm,
      by simpa using hi⟩
    rw [get, if_neg (not_or.mpr ⟨h.tagged_ne_zero hne, Nat.not_le.mpr hi⟩),
      show v.asMutPtr = ⟨v.asMutPtr.base, 0⟩ from rfl,
      h.add hne (by rw [Nat.zero_add]; exact hi.le), Raw.defined_bind, Nat.zero_add,
      deref_eq hread]
    rfl
  · exact ⟨none, if_pos (Or.inr hi), (List.getElem?_eq_none hi).symm, by simpa using hi⟩

/-! ### Insertion -/

/-- **Room for an element** at `i`: what `insert` writes there completes the list. -/
inductive Gap (others : Buffers T) (xs : List T) (i : ℕ) :
    Ptr Usize × RawVec × Buffers T → Prop
  | intro {a : Usize} {t : ℕ} {b : Block Layout T} (ha : Address a) (hfree : others a = none)
      (hb : Sized t b) (hi : i < b.cells.length)
      (hxs : ∀ x, Filled (b.cells.set i (some x)) (xs.insertIdx i x)) :
      Gap others xs i (⟨a, 0⟩, ⟨a ||| BitVec.ofNat _ t⟩, others.place a b)

omit [Target] [Elem T] in
theorem subUsize_eq_ok {m n : ℕ} (h : n ≤ m) : subUsize m n = .ok (m - n) := if_pos h

/-- **In a buffer with room** the elements from `i` on move up. -/
theorem makeRoom_spec (h : Holds others mem v xs) (hi : i ≤ xs.length)
    (hroom : xs.length < v.capacity) :
    ∃ r, v.makeRoom i xs.length mem = .ok r ∧ Gap others xs i r := by
  cases h with
  | null => cases hroom
  | @buffer a t b xs ha hfree hb hxs =>
    rw [ha.capacity hb.lt, ← hb.cells] at hroom
    have hrun : (run b.cells i (xs.length - i)).length = xs.length - i := length_run (by omega)
    have hover : (overwrite b.cells (i + 1) (run b.cells i (xs.length - i))).length
        = b.cells.length := length_overwrite (by omega)
    refine ⟨_, ?_, .intro (t := t) ha hfree (hb.with_cells hover) ?_ fun x =>
      hxs.shift_up hi hroom⟩
    · rw [makeRoom, ha.asMutPtr hb.lt, Blocks.add_place (by omega), Raw.defined_bind,
        Blocks.add_place (by omega), Raw.defined_bind, subUsize_eq_ok hi, Raw.lift_ok_bind,
        Nat.zero_add, Nat.zero_add, Blocks.copy_place (by omega) (by omega)]
      rfl
    · dsimp only
      omega

/-! ### Growth -/

omit [Elem T] in
theorem toUsize_eq_ok {n : ℕ} (h : n < 2 ^ (8 * Target.ptrSize)) : toUsize n = .ok n := if_pos h

omit [Elem T] in
/-- What has a layout can be doubled without overflow. -/
theorem two_mul_lt_of_le_isizeMax {n : ℕ} (h : n ≤ isizeMax) :
    2 * n < 2 ^ (8 * Target.ptrSize) := by
  rw [isizeMax] at h
  have hpos := Nat.two_pow_pos (8 * Target.ptrSize - 1)
  rcases Nat.eq_zero_or_pos (8 * Target.ptrSize) with hzero | hword
  · rw [hzero] at h ⊢
    omega
  · have hpow : 2 ^ (8 * Target.ptrSize) = 2 * 2 ^ (8 * Target.ptrSize - 1) := by
      rw [← Nat.pow_succ', Nat.succ_eq_add_one, Nat.sub_add_cancel hword]
    omega

omit [Elem T] in
theorem layout_eq {size align : ℕ} {layout : Layout}
    (h : Layout.fromSizeAlign size align = some layout) : layout = ⟨size, align⟩ := by
  unfold Layout.fromSizeAlign at h
  split_ifs at h
  exact (Option.some.inj h).symm

omit [Elem T] in
theorem size_le_of_layout {size align : ℕ} {layout : Layout} (halign : 0 < align)
    (h : Layout.fromSizeAlign size align = some layout) : size ≤ isizeMax := by
  unfold Layout.fromSizeAlign at h
  split_ifs at h with hvalid
  refine le_trans ?_ hvalid.2
  have hdiv := Nat.div_add_mod (size + align - 1) align
  have hmod := Nat.mod_lt (size + align - 1) halign
  rw [Nat.mul_comm] at hdiv
  omega

theorem alignment_pos : 0 < alignment T := lt_of_lt_of_le (by decide) (Nat.le_max_right _ 8)

/-- The size of a buffer with a layout. -/
theorem Sized.size_le (h : Sized t b) : Elem.size T * 2 ^ (t + 1) ≤ isizeMax :=
  size_le_of_layout alignment_pos h.layout

/-- **What may be assumed of the allocator**: it returns an address that is not null and
a multiple of 8, where there is no buffer. -/
def Allocates (mem : Buffers T) (alloc : Layout → Usize) : Prop :=
  ∀ layout, Address (alloc layout) ∧ mem (alloc layout) = none

/-- The layout of a buffer of the size class of `t`. -/
def layoutOf (T : Type) [Elem T] (t : ℕ) : Option Layout :=
  Layout.fromSizeAlign (Elem.size T * 2 ^ (t + 1)) (alignment T)

/-- The layout of the buffer that a full one is replaced by, with twice as many slots. -/
def newLayout (T : Type) [Elem T] (v : RawVec) : Option Layout :=
  Layout.fromSizeAlign (Elem.size T * if v.capacity = 0 then 2 else 2 * v.capacity) (alignment T)

/-- **A new buffer** has the slots of its size class. -/
theorem newBuffer_eq_ok {alloc : Layout → Usize} {layout : Layout} (halloc : Allocates mem alloc)
    (hsize : Elem.size T * 2 ^ (t + 1) < 2 ^ (8 * Target.ptrSize))
    (hlayout : layoutOf T t = some layout) :
    newBuffer alloc t mem = .ok (alloc layout,
      mem.place (alloc layout) ⟨layout, List.replicate (2 ^ (t + 1)) none⟩) := by
  have hcells : layout.size / Elem.size T = 2 ^ (t + 1) := by
    rw [layout_eq hlayout]
    exact Nat.mul_div_cancel_left _ Elem.size_pos
  rw [newBuffer, Nat.one_shiftLeft, toUsize_eq_ok hsize, Raw.lift_ok_bind,
    show Layout.fromSizeAlign _ _ = some layout from hlayout, Rust.expect_some,
    Raw.lift_ok_bind, if_neg (halloc layout).1.ne_zero, hcells]
  rfl

/-- Without a layout there is none, and the code panics. -/
theorem newBuffer_eq_error {alloc : Layout → Usize}
    (hsize : Elem.size T * 2 ^ (t + 1) < 2 ^ (8 * Target.ptrSize)) (hlayout : layoutOf T t = none) :
    newBuffer alloc t mem = .error (.panic (.expectFailed layoutMsg)) := by
  rw [newBuffer, Nat.one_shiftLeft, toUsize_eq_ok hsize, Raw.lift_ok_bind,
    show Layout.fromSizeAlign _ _ = none from hlayout]
  rfl

/-- **The elements move** to a larger buffer, and the old one is freed. -/
theorem moveTo_spec {a' : Usize} {b' : Block Layout T} {len : ℕ} (ha : Address a)
    (hfree : others a = none) (hne : a ≠ a') (hb : Sized t b) (hfull : len = b.cells.length)
    (hlen : len < b'.cells.length) (hi : i ≤ len) :
    moveTo ⟨a, 0⟩ ⟨a', 0⟩ i len (2 ^ (t + 1)) ((others.place a b).place a' b')
      = .ok (others.place a' { b' with
          cells := overwrite (overwrite b'.cells 0 (run b.cells 0 i)) (i + 1)
            (run b.cells i (len - i)) }) := by
  have hlow : (run b.cells 0 i).length = i := length_run (by omega)
  have hover : (overwrite b'.cells 0 (run b.cells 0 i)).length = b'.cells.length :=
    length_overwrite (by omega)
  have hsize : toUsize (2 ^ (t + 1) * Elem.size T) = .ok (Elem.size T * 2 ^ (t + 1)) := by
    rw [Nat.mul_comm]
    have := two_mul_lt_of_le_isizeMax hb.size_le
    exact toUsize_eq_ok (by omega)
  have hat : (others.place a b) a = some b := Blocks.place_self a b
  -- the elements below the gap
  rw [moveTo, if_neg ha.ne_zero, Blocks.copyNonoverlapping_place hat hne (by omega) (by omega),
    Raw.defined_bind]
  -- the elements above it
  rw [Blocks.add_eq_some (b := b) ((Blocks.place_of_ne hne _).trans hat) (by omega),
    Raw.defined_bind, Blocks.add_place (by dsimp only; omega), Raw.defined_bind,
    subUsize_eq_ok hi, Raw.lift_ok_bind, Nat.zero_add, Nat.zero_add,
    Blocks.copyNonoverlapping_place hat hne (by omega) (by dsimp only; omega), Raw.defined_bind]
  -- the old buffer
  rw [hsize, Raw.lift_ok_bind, hb.layout, Rust.unwrap_some, Raw.lift_ok_bind,
    Blocks.deallocate_place hfree hne]
  rfl

/-- Room in the first buffer. -/
theorem grow_null (hsize : Elem.size T * 2 ^ (0 + 1) < 2 ^ (8 * Target.ptrSize))
    {alloc : Layout → Usize} {layout : Layout} (halloc : Allocates others alloc)
    (hlayout : layoutOf T 0 = some layout) :
    ∃ r, new.grow alloc 0 0 others = .ok r ∧ Gap others ([] : List T) 0 r := by
  have hcells : (List.replicate (2 ^ (0 + 1)) (none : Option T)).length = 2 ^ (0 + 1) :=
    List.length_replicate
  have hpos : 0 < (List.replicate (2 ^ (0 + 1)) (none : Option T)).length :=
    hcells ▸ Nat.two_pow_pos 1
  refine ⟨_, ?_, .intro (t := 0) (b := ⟨layout, List.replicate (2 ^ (0 + 1)) none⟩)
    (halloc layout).1 (halloc layout).2 ⟨by decide, hlayout, hcells⟩ hpos fun x => ?_⟩
  · have htag : new.nextTag = .ok 0 := rfl
    have hnull : new.asMutPtr.base = 0 := BitVec.zero_and
    rw [grow, htag, Raw.ok_bind, newBuffer_eq_ok halloc hsize hlayout, Raw.ok_bind]
    dsimp only
    rw [moveTo, if_pos hnull]
    rfl
  · have hnil : Filled (List.replicate (2 ^ (0 + 1)) none) ([] : List T) := fun _ _ h => by cases h
    refine hnil.insertIdx (Nat.le_refl 0) (fun j hj => absurd hj (Nat.not_lt_zero j))
      (List.getElem?_set_self hpos) fun j hj hle => ?_
    exact absurd (hj.trans_le hle) (Nat.lt_irrefl 0)

/-- Room in a buffer of the next size class. -/
theorem grow_buffer (ha : Address a) (hfree : others a = none) (hb : Sized t b) (ht : t < 7)
    (hxs : Filled b.cells xs) (hfull : xs.length = b.cells.length) (hi : i ≤ xs.length)
    (hsize : Elem.size T * 2 ^ (t + 1 + 1) < 2 ^ (8 * Target.ptrSize))
    {alloc : Layout → Usize} {layout : Layout} (halloc : Allocates (others.place a b) alloc)
    (hlayout : layoutOf T (t + 1) = some layout)
    (htag : (⟨a ||| BitVec.ofNat _ t⟩ : RawVec).nextTag = .ok (t + 1)) :
    ∃ r, (⟨a ||| BitVec.ofNat _ t⟩ : RawVec).grow alloc i xs.length (others.place a b) = .ok r
      ∧ Gap others xs i r := by
  have hfresh := (halloc layout).2
  have hne : a ≠ alloc layout := by
    rintro heq
    rw [← heq, Blocks.place_self] at hfresh
    cases hfresh
  rw [Blocks.place_of_ne hne.symm] at hfresh
  have hcells : (List.replicate (2 ^ (t + 1 + 1)) (none : Option T)).length = 2 ^ (t + 1 + 1) :=
    List.length_replicate
  have hroom : xs.length < (List.replicate (2 ^ (t + 1 + 1)) (none : Option T)).length := by
    rw [hcells, hfull, hb.cells]
    exact Nat.pow_lt_pow_right (by decide) (Nat.lt_succ_self _)
  have hover := (Filled.length_copy_apart hi hfull hroom).trans hcells
  refine ⟨_, ?_, .intro (t := t + 1) (b := ⟨layout, _⟩) (halloc layout).1 hfresh
    ⟨by omega, hlayout, hover⟩ (lt_of_le_of_lt hi (hroom.trans_eq (hcells.trans hover.symm)))
    fun x => hxs.copy_apart hi hfull hroom⟩
  rw [grow, htag, Raw.ok_bind, newBuffer_eq_ok halloc hsize hlayout, Raw.ok_bind]
  dsimp only
  rw [ha.capacity hb.lt, ha.asMutPtr hb.lt, moveTo_spec ha hfree hne hb hfull hroom hi]
  rfl

/-- **A buffer that is full** is replaced by one of the next size class, with room for an
element at `i`; without a layout for it the code panics. -/
theorem grow_spec (h : Holds others mem v xs) (hi : i ≤ xs.length) (hlen : xs.length < 256)
    (hfull : xs.length = v.capacity) {alloc : Layout → Usize} (halloc : Allocates mem alloc) :
    (newLayout T v = none
      → v.grow alloc i xs.length mem = .error (.panic (.expectFailed layoutMsg)))
    ∧ ∀ layout, newLayout T v = some layout
      → ∃ r, v.grow alloc i xs.length mem = .ok r ∧ Gap others xs i r := by
  cases h with
  | null =>
    have hsize : Elem.size T * 2 ^ (0 + 1) < 2 ^ (8 * Target.ptrSize) := by
      have := two_mul_lt_of_le_isizeMax (Elem.size_le (T := T))
      omega
    obtain rfl : i = 0 := Nat.le_zero.mp hi
    refine ⟨fun hnone => ?_, fun layout hlayout => grow_null hsize halloc hlayout⟩
    have htag : new.nextTag = .ok 0 := rfl
    rw [grow, htag, Raw.ok_bind, newBuffer_eq_error hsize hnone]
    rfl
  | @buffer a t b xs ha hfree hb hxs =>
    rw [ha.capacity hb.lt, ← hb.cells] at hfull
    -- the last size class has 256 slots
    have ht : t < 7 := by
      by_contra hge
      obtain rfl : t = 7 := by
        have := hb.lt
        omega
      rw [hb.cells] at hfull
      omega
    have hnext : newLayout T ⟨a ||| BitVec.ofNat _ t⟩ = layoutOf T (t + 1) := by
      rw [newLayout, ha.capacity hb.lt, if_neg (Nat.two_pow_pos _).ne', ← Nat.pow_succ', layoutOf]
    have hsize : Elem.size T * 2 ^ (t + 1 + 1) < 2 ^ (8 * Target.ptrSize) := by
      have := two_mul_lt_of_le_isizeMax hb.size_le
      rw [Nat.pow_succ 2 (t + 1), ← Nat.mul_assoc]
      omega
    have htag : (⟨a ||| BitVec.ofNat _ t⟩ : RawVec).nextTag = .ok (t + 1) := by
      rw [nextTag, ha.capacity hb.lt, if_neg (Nat.two_pow_pos _).ne', capTag,
        ha.or_tag_and_mask hb.lt]
      exact if_pos ht
    rw [hnext]
    refine ⟨fun hnone => ?_, fun layout hlayout =>
      grow_buffer ha hfree hb ht hxs hfull hi hsize halloc hlayout htag⟩
    rw [grow, htag, Raw.ok_bind, newBuffer_eq_error hsize hnone]
    rfl

/-- There are no more elements than slots. -/
theorem Holds.le_capacity (h : Holds others mem v xs) : xs.length ≤ v.capacity := by
  cases h with
  | null => exact Nat.zero_le _
  | buffer ha hfree hb hxs =>
    rw [ha.capacity hb.lt, ← hb.cells]
    exact hxs.length_le

/-- **`insert`** puts the element where it is to be; where the buffer is full and there is
no layout for a larger one it panics. -/
theorem insert_spec (h : Holds others mem v xs) (hi : i ≤ xs.length) (hlen : xs.length < 256)
    {alloc : Layout → Usize} (halloc : Allocates mem alloc) (x : T) :
    (xs.length = v.capacity ∧ newLayout T v = none
      → v.insert alloc i x xs.length mem = .error (.panic (.expectFailed layoutMsg)))
    ∧ (¬ (xs.length = v.capacity ∧ newLayout T v = none)
      → ∃ v' mem', v.insert alloc i x xs.length mem = .ok (v', mem')
        ∧ Holds others mem' v' (xs.insertIdx i x)) := by
  refine ⟨fun ⟨hfull, hnone⟩ => ?_, fun hok => ?_⟩
  · rw [insert, makeGap, if_pos hfull, (grow_spec h hi hlen hfull halloc).1 hnone]
    rfl
  obtain ⟨r, hr, hgap⟩ : ∃ r, v.makeGap alloc i xs.length mem = .ok r ∧ Gap others xs i r := by
    unfold makeGap
    by_cases hfull : xs.length = v.capacity
    · obtain ⟨layout, hlayout⟩ := Option.ne_none_iff_exists'.mp fun hnone => hok ⟨hfull, hnone⟩
      rw [if_pos hfull]
      exact (grow_spec h hi hlen hfull halloc).2 layout hlayout
    · rw [if_neg hfull]
      exact makeRoom_spec h hi (lt_of_le_of_ne h.le_capacity hfull)
  cases hgap with
  | intro ha hfree hb hin hxs =>
    refine ⟨_, _, ?_, .buffer ha hfree (hb.with_cells (List.length_set ..)) (hxs x)⟩
    rw [insert, hr, Raw.ok_bind]
    dsimp only
    rw [Blocks.add_place (by omega), Raw.defined_bind, Nat.zero_add, Blocks.write_place hin]
    rfl

/-! ### Removal -/

/-- **`remove`** hands the element back that was there, and closes the gap. -/
theorem remove_spec (h : Holds others mem v xs) (i : ℕ) :
    ∃ mem', v.remove i xs.length mem = .ok (xs[i]?, mem')
      ∧ Holds others mem' v (xs.eraseIdx i) := by
  rcases Nat.lt_or_ge i xs.length with hi | hi
  · cases h with
    | null => cases hi
    | @buffer a t b xs ha hfree hb hxs =>
      have hle := hxs.length_le
      have hnull : ¬ (a ||| BitVec.ofNat _ t = 0 ∨ xs.length ≤ i) := by
        rintro (hzero | hle)
        · exact ha.or_tag_ne_zero hb.lt hzero
        · omega
      have hrun : (run b.cells (i + 1) (xs.length - i - 1)).length = xs.length - i - 1 :=
        length_run (by omega)
      have hover : (overwrite b.cells i (run b.cells (i + 1) (xs.length - i - 1))).length
          = b.cells.length := length_overwrite (by omega)
      refine ⟨_, ?_, .buffer ha hfree (hb.with_cells hover) (hxs.shift_down hi)⟩
      rw [remove, if_neg hnull, ha.asMutPtr hb.lt]
      dsimp only
      rw [Blocks.add_place (by omega), Raw.defined_bind, Nat.zero_add,
        Blocks.read_place (hxs i xs[i] (List.getElem?_eq_getElem hi)), Raw.defined_bind,
        Blocks.add_place (by omega), Raw.defined_bind, Nat.zero_add,
        Blocks.copy_place (by omega) (by omega), List.getElem?_eq_getElem hi]
      rfl
  · rw [List.getElem?_eq_none hi, List.eraseIdx_of_length_le hi]
    exact ⟨mem, if_pos (Or.inr hi), h⟩

/-! ### The vector of the nodes -/

/-- **The vector of a node's children**, which is a list with the operations of
`BoundedRawVec`, is what a vector in one word holds. -/
theorem holds_boundedRawVec (h : Holds others mem v xs) (hlen : xs.length < 256) (i : ℕ) :
    (∃ r, v.get i xs.length mem = .ok r ∧ r.bind mem.read = BoundedRawVec.get xs i xs.length)
    ∧ (∃ mem', v.remove i xs.length mem = .ok ((BoundedRawVec.remove xs i xs.length).1, mem')
        ∧ Holds others mem' v (BoundedRawVec.remove xs i xs.length).2)
    ∧ ∀ x alloc, i ≤ xs.length → Allocates mem alloc →
        ¬ (xs.length = v.capacity ∧ newLayout T v = none) →
        ∃ v' mem' ys, v.insert alloc i x xs.length mem = .ok (v', mem')
          ∧ BoundedRawVec.insert xs i x xs.length = .ok ys ∧ Holds others mem' v' ys := by
  refine ⟨?_, ?_, fun x alloc hi halloc hlaid => ?_⟩
  · obtain ⟨r, hget, hr, -⟩ := get_spec h i
    refine ⟨r, hget, ?_⟩
    rw [hr, BoundedRawVec.get]
    split_ifs with hle
    · exact List.getElem?_eq_none hle
    · rfl
  · obtain ⟨mem', hremove, hholds⟩ := remove_spec h i
    refine ⟨mem', ?_⟩
    rw [BoundedRawVec.remove]
    split_ifs with hle
    · rw [List.getElem?_eq_none hle] at hremove
      rw [List.eraseIdx_of_length_le hle] at hholds
      exact ⟨hremove, hholds⟩
    · exact ⟨hremove, hholds⟩
  · obtain ⟨v', mem', hinsert, hholds⟩ := (insert_spec h hi hlen halloc x).2 hlaid
    exact ⟨v', mem', _, hinsert, if_neg hlen.ne, hholds⟩

end Holds

end RawVec

end Trie
