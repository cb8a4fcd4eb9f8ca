import Algors.Lib.BitCount
import Algors.Trie.Node
import Mathlib

/-!
# The children of a node as a finite map

The vector of children carries neither its length nor its keys; the bitmap
beside it carries both. `ChildrenAgree` says what makes the two one map from
first bytes to children: the children have non-empty prefixes and stand in
increasing order of first byte, and the bits set are the first bytes that
occur. Under it the two counts the code reads off the bitmap are the length
of the vector and the rank of a byte among the first bytes, and the
operations on a child are the operations of the map: test, read, write back,
insert and remove, each touching the one key and leaving the header alone.
-/

namespace Trie

variable {T : Type}

/-! ## Bits of the bitmap -/

/-- The position as a number, the byte it stands for. -/
def ChildPos.toNat (pos : ChildPos) : ℕ := 64 * pos.idx.val + pos.bit.val

theorem ChildPos.toNat_div (pos : ChildPos) : pos.toNat / 64 = pos.idx.val := by
  have := pos.bit.isLt
  unfold toNat
  omega

theorem ChildPos.toNat_mod (pos : ChildPos) : pos.toNat % 64 = pos.bit.val := by
  have := pos.bit.isLt
  unfold toNat
  omega

@[simp] theorem toNat_childPosFromByte (b : UInt8) : (childPosFromByte b).toNat = b.toNat := by
  unfold ChildPos.toNat childPosFromByte
  dsimp only
  rw [Nat.shiftRight_eq_div_pow, show 63 = 2 ^ 6 - 1 from rfl, Nat.and_two_pow_sub_one_eq_mod]
  omega

namespace Bitmap

/-- The bit of a byte. -/
def bit (bitmap : Bitmap) (i : ℕ) : Bool :=
  if h : i / 64 < 4 then bitmap[i / 64].getLsbD (i % 64) else false

@[simp] theorem bit_zero (i : ℕ) : zero.bit i = false := by
  unfold bit zero
  split_ifs <;> simp

theorem bit_of_div_eq {bitmap : Bitmap} {i idx : ℕ} (hidx : idx < 4) (h : i / 64 = idx) :
    bitmap.bit i = bitmap[idx].getLsbD (i % 64) := by
  unfold bit
  rw [dif_pos (h ▸ hidx)]
  simp only [h]

theorem test_eq_bit (bitmap : Bitmap) (pos : ChildPos) :
    bitmap.test pos = bitmap.bit pos.toNat := by
  rw [bit_of_div_eq pos.idx.isLt pos.toNat_div, pos.toNat_mod, test,
    BitVec.and_one_shiftLeft_ne_zero pos.bit.isLt, Fin.getElem_fin]

/-- A bitmap is its bits. -/
theorem ext_bit {bitmap bitmap' : Bitmap} (h : ∀ i, bitmap.bit i = bitmap'.bit i) :
    bitmap = bitmap' := by
  refine Vector.ext fun j hj => BitVec.eq_of_getLsbD_eq fun k hk => ?_
  have hbit := h (64 * j + k)
  rw [bit_of_div_eq hj (by omega), bit_of_div_eq hj (by omega),
    show (64 * j + k) % 64 = k by omega] at hbit
  exact hbit

/-- Changing one word to `word` changes its bits only. -/
theorem bit_vectorSet (bitmap : Bitmap) {idx : ℕ} (hidx : idx < 4) (word : BitVec 64) (i : ℕ) :
    bit (Vector.set bitmap idx word hidx) i
      = if i / 64 = idx then word.getLsbD (i % 64) else bitmap.bit i := by
  unfold bit
  by_cases h : i / 64 < 4
  · rw [dif_pos h, dif_pos h, Vector.getElem_set]
    by_cases hi : i / 64 = idx
    · rw [if_pos hi.symm, if_pos hi]
    · rw [if_neg (Ne.symm hi), if_neg hi]
  · rw [dif_neg h, dif_neg h, if_neg (by omega)]

theorem eq_toNat_iff (pos : ChildPos) (i : ℕ) :
    i = pos.toNat ↔ i / 64 = pos.idx.val ∧ i % 64 = pos.bit.val := by
  have := pos.bit.isLt
  unfold ChildPos.toNat
  omega

/-- **Setting a bit.** -/
theorem bit_set (bitmap : Bitmap) (pos : ChildPos) (i : ℕ) :
    (bitmap.set pos).bit i = true ↔ i = pos.toNat ∨ bitmap.bit i = true := by
  unfold set
  rw [bit_vectorSet, eq_toNat_iff]
  by_cases hi : i / 64 = pos.idx.val
  · rw [if_pos hi, BitVec.getLsbD_or, BitVec.getLsbD_one_shiftLeft pos.bit.isLt,
      bit_of_div_eq pos.idx.isLt hi]
    simp [hi, or_comm]
  · simp [hi]

/-- **Clearing a bit.** -/
theorem bit_clear (bitmap : Bitmap) (pos : ChildPos) (i : ℕ) :
    (bitmap.clear pos).bit i = true ↔ bitmap.bit i = true ∧ i ≠ pos.toNat := by
  unfold clear
  rw [bit_vectorSet, Ne, eq_toNat_iff]
  by_cases hi : i / 64 = pos.idx.val
  · have : i % 64 < 64 := Nat.mod_lt _ (by omega)
    rw [if_pos hi, BitVec.getLsbD_and, BitVec.getLsbD_not,
      BitVec.getLsbD_one_shiftLeft pos.bit.isLt, bit_of_div_eq pos.idx.isLt hi]
    simp [hi, this]
  · simp [hi]

theorem count_word (bitmap : Bitmap) {j : ℕ} (hj : j < 4) (n : ℕ) (hn : n ≤ 64) :
    Nat.count (fun i => bitmap.bit (64 * j + i) = true) n
      = Nat.count (fun i => bitmap[j].getLsbD i = true) n := by
  rw [Nat.count_eq_card_filter_range, Nat.count_eq_card_filter_range]
  refine congrArg Finset.card (Finset.filter_congr fun i hi => ?_)
  rw [Finset.mem_range] at hi
  unfold bit
  rw [dif_pos (by omega)]
  simp only [show (64 * j + i) / 64 = j by omega, show (64 * j + i) % 64 = i by omega]

/-- A whole word counts its own bits. -/
theorem count_word_eq_cpop (bitmap : Bitmap) {j : ℕ} (hj : j < 4) :
    Nat.count (fun i => bitmap.bit (64 * j + i) = true) 64 = bitmap[j].cpop.toNat := by
  rw [count_word bitmap hj 64 le_rfl, BitVec.toNat_cpop_eq_count]

/-- The first of four summands, picked by comparisons without a branch. -/
theorem sum_range_eq (f : ℕ → ℕ) (q : Fin 5) :
    ((List.range q.val).map f).sum
      = (decide (0 < q)).toNat * f 0 + (decide (1 < q)).toNat * f 1
        + (decide (2 < q)).toNat * f 2 + (decide (3 < q)).toNat * f 3 := by
  fin_cases q <;> simp [List.range_succ] <;> omega

/-- **The length is the number of bits set.** -/
theorem lenChildren_eq_count (bitmap : Bitmap) :
    bitmap.lenChildren = Nat.count (fun i => bitmap.bit i = true) 256 := by
  have hwords := Nat.count_words (fun i => bitmap.bit i = true) 64 4 0
  rw [Nat.count_zero, Nat.add_zero] at hwords
  rw [show 256 = 64 * 4 + 0 from rfl, hwords, show 4 = (4 : Fin 5).val from rfl, sum_range_eq]
  simp (disch := omega) only [count_word_eq_cpop]
  unfold lenChildren
  simp

/-- **The index is the number of bits set below the position.** -/
theorem childIdx_eq_count (bitmap : Bitmap) (pos : ChildPos) :
    bitmap.childIdx pos = Nat.count (fun i => bitmap.bit i = true) pos.toNat := by
  obtain ⟨idx, b⟩ := pos
  have hsafe : idx &&& 3 = idx := by revert idx; decide
  have hcurrent : (bitmap[idx] &&& ((1#64 <<< b.val) - 1#64)).cpop.toNat
      = Nat.count (fun i => bitmap.bit (64 * idx.val + i) = true) b := by
    rw [count_word bitmap idx.isLt _ b.isLt.le, BitVec.toNat_cpop_and_mask b.isLt]
    rfl
  have hbefore := sum_range_eq
    (fun j => Nat.count (fun i => bitmap.bit (64 * j + i) = true) 64) idx.castSucc
  simp (disch := omega) only [count_word_eq_cpop] at hbefore
  unfold ChildPos.toNat
  simp only [childIdx, hsafe, Nat.count_words, hcurrent]
  rw [show idx.val = idx.castSucc.val from rfl, hbefore]
  fin_cases idx <;> simp

end Bitmap

/-! ## Agreement of a node's bitmap with its children -/

/-- The first byte of a node's prefix, the key of the child map. -/
def Node.key (c : Node T) : ℕ := (c.pfx.bytes.headD 0).toNat

/-- **The bitmap, the order and the number of children agree**: the first
bytes of the children increase, and they are the bytes whose bits are set. -/
structure ChildrenAgree (bitmap : Bitmap) (cs : List (Node T)) : Prop where
  sorted : cs.KeySorted Node.key
  bit_iff : ∀ i, bitmap.bit i = true ↔ ∃ c ∈ cs, c.key = i
  nonempty : ∀ c ∈ cs, c.pfx.bytes ≠ []

/-- Agreement of a node, which in a leaf says nothing. -/
def Node.Agrees : Node T → Prop
  | .leaf _ => True
  | .internal _ bitmap cs => ChildrenAgree bitmap cs

theorem Node.key_lt (c : Node T) : c.key < 256 := UInt8.toNat_lt _

theorem Node.key_eq_of_pfx {c : Node T} {b : UInt8} {bs : Bytes} (h : c.pfx.bytes = b :: bs) :
    c.key = b.toNat := by
  rw [key, h]
  rfl

/-- A non-empty prefix begins with the byte that is its key. -/
theorem Node.exists_pfx_of_key_eq {c : Node T} {b : UInt8} (hne : c.pfx.bytes ≠ [])
    (h : c.key = b.toNat) : ∃ bs, c.pfx.bytes = b :: bs := by
  rw [key] at h
  cases hp : c.pfx.bytes with
  | nil => exact absurd hp hne
  | cons a bs =>
    rw [hp, List.headD_cons] at h
    exact ⟨bs, by rw [UInt8.toNat_inj.mp h]⟩

namespace ChildrenAgree

variable {bitmap : Bitmap} {cs : List (Node T)}

theorem nil : ChildrenAgree Bitmap.zero ([] : List (Node T)) where
  sorted := List.keySorted_nil
  bit_iff i := by simp
  nonempty c hc := by cases hc

/-- **The index read off the bitmap is the rank among the first bytes.** -/
theorem childIdx_eq_rank (h : ChildrenAgree bitmap cs) (pos : ChildPos) :
    bitmap.childIdx pos = cs.rank Node.key pos.toNat := by
  rw [Bitmap.childIdx_eq_count, h.sorted.count_eq_rank _ h.bit_iff]

/-- **The length read off the bitmap is the length of the vector.** -/
theorem lenChildren_eq_length (h : ChildrenAgree bitmap cs) :
    bitmap.lenChildren = cs.length := by
  rw [Bitmap.lenChildren_eq_count, h.sorted.count_eq_length _ h.bit_iff fun c _ => c.key_lt]

/-- A vector without some first byte has room for it. -/
theorem length_ne_of_absent (h : ChildrenAgree bitmap cs) {b : UInt8}
    (hb : ∀ c ∈ cs, c.key ≠ b.toNat) : cs.length ≠ 256 := by
  intro hlen
  rw [← h.lenChildren_eq_length, Bitmap.lenChildren_eq_count, Nat.count_iff_forall] at hlen
  obtain ⟨c, hc, hkey⟩ := (h.bit_iff _).mp (hlen _ b.toNat_lt)
  exact hb c hc hkey

theorem insert (h : ChildrenAgree bitmap cs) {b : UInt8} {child : Node T}
    (hb : ∀ c ∈ cs, c.key ≠ b.toNat) (hchild : child.pfx.bytes ≠ []) (hkey : child.key = b.toNat) :
    ChildrenAgree (bitmap.set (childPosFromByte b))
      (cs.insertIdx (cs.rank Node.key b.toNat) child) where
  sorted := by
    rw [← hkey]
    exact h.sorted.insertIdx_rank fun c hc => by rw [hkey]; exact hb c hc
  bit_iff i := by
    rw [Bitmap.bit_set, toNat_childPosFromByte, h.bit_iff, ← hkey]
    simp only [List.mem_insertIdx_rank, exists_eq_or_imp, eq_comm (a := i)]
  nonempty c hc := by
    rw [← hkey] at hc
    rcases List.mem_insertIdx_rank.mp hc with rfl | hc
    · exact hchild
    · exact h.nonempty c hc

theorem remove (h : ChildrenAgree bitmap cs) {b : UInt8} {child : Node T} (hc : child ∈ cs)
    (hkey : child.key = b.toNat) :
    ChildrenAgree (bitmap.clear (childPosFromByte b))
      (cs.eraseIdx (cs.rank Node.key b.toNat)) where
  sorted := h.sorted.eraseIdx _
  bit_iff i := by
    rw [Bitmap.bit_clear, toNat_childPosFromByte, h.bit_iff, ← hkey]
    simp only [h.sorted.mem_eraseIdx_rank hc]
    constructor
    · rintro ⟨⟨c, hc, rfl⟩, hne⟩
      exact ⟨c, ⟨hc, hne⟩, rfl⟩
    · rintro ⟨c, ⟨hc, hne⟩, rfl⟩
      exact ⟨⟨c, hc, rfl⟩, hne⟩
  nonempty c hc' := by
    rw [← hkey, h.sorted.mem_eraseIdx_rank hc] at hc'
    exact h.nonempty c hc'.1

theorem replace (h : ChildrenAgree bitmap cs) {b : UInt8} {child child' : Node T}
    (hc : child ∈ cs) (hkey : child.key = b.toNat) (hne : child'.pfx.bytes ≠ [])
    (hkey' : child'.key = b.toNat) :
    ChildrenAgree bitmap (cs.set (cs.rank Node.key b.toNat) child') where
  sorted := by
    rw [← hkey]
    exact h.sorted.set_rank hc (hkey'.trans hkey.symm)
  bit_iff i := by
    have hmap := h.sorted.map_key_set_rank hc (hkey'.trans hkey.symm)
    rw [h.bit_iff, ← List.mem_map, ← List.mem_map, ← hkey, hmap]
  nonempty c hc' := by
    rw [← hkey, h.sorted.mem_set_rank hc] at hc'
    rcases hc' with rfl | ⟨hc', _⟩
    · exact hne
    · exact h.nonempty c hc'

end ChildrenAgree

/-! ## The operations on a child -/

namespace Node

/-- Agreement says nothing about the header. -/
@[simp] theorem agrees_setHeader {n : Node T} {h : Header T} :
    (n.setHeader h).Agrees ↔ n.Agrees := by
  cases n <;> rfl

theorem Agrees.nonempty {n : Node T} (hn : n.Agrees) {c : Node T} (hc : c ∈ n.children) :
    c.pfx.bytes ≠ [] := by
  cases n with
  | leaf h => cases hc
  | internal h bitmap cs => exact ChildrenAgree.nonempty hn c hc

theorem Agrees.sorted {n : Node T} (hn : n.Agrees) : n.children.KeySorted key := by
  cases n with
  | leaf h => exact List.keySorted_nil
  | internal h bitmap cs => exact ChildrenAgree.sorted hn

theorem Agrees.lenChildren_eq {n : Node T} (hn : n.Agrees) :
    n.lenChildren = n.children.length := by
  cases n with
  | leaf h => rfl
  | internal h bitmap cs => exact ChildrenAgree.lenChildren_eq_length hn

/-- **`child_exists` finds exactly the first bytes that occur.** -/
theorem Agrees.childExists_iff {n : Node T} (hn : n.Agrees) (b : UInt8) :
    n.childExists (childPosFromByte b) = true ↔ ∃ c ∈ n.children, c.key = b.toNat := by
  cases n with
  | leaf h => simp [childExists, children]
  | internal h bitmap cs =>
    rw [childExists, Bitmap.test_eq_bit, toNat_childPosFromByte]
    exact ChildrenAgree.bit_iff hn _

/-- **`get_child_by_pos` finds the child** that starts with the byte. -/
theorem Agrees.getChildByPos_eq {n : Node T} (hn : n.Agrees) {b : UInt8} {c : Node T}
    (hc : c ∈ n.children) (hkey : c.key = b.toNat) :
    n.getChildByPos (childPosFromByte b) = some c := by
  cases n with
  | leaf h => cases hc
  | internal h bitmap cs =>
    have hget := (ChildrenAgree.sorted hn).getElem?_rank hc
    have hlt : cs.rank key c.key < cs.length := (List.getElem?_eq_some_iff.mp hget).1
    simp only [getChildByPos, getChildByIdx, childIdxFromPos, BoundedRawVec.get,
      ChildrenAgree.childIdx_eq_rank hn, ChildrenAgree.lenChildren_eq_length hn,
      toNat_childPosFromByte]
    rw [← hkey, if_neg (by omega)]
    exact hget

/-- **Writing a child back** replaces it, when it keeps its first byte. -/
theorem Agrees.setChildByPos {n : Node T} (hn : n.Agrees) {b : UInt8} {c c' : Node T}
    (hc : c ∈ n.children) (hkey : c.key = b.toNat) (hne : c'.pfx.bytes ≠ [])
    (hkey' : c'.key = b.toNat) :
    (n.setChildByPos (childPosFromByte b) c').Agrees
      ∧ ∀ x, x ∈ (n.setChildByPos (childPosFromByte b) c').children
          ↔ x = c' ∨ (x ∈ n.children ∧ x.key ≠ b.toNat) := by
  cases n with
  | leaf h => cases hc
  | internal h bitmap cs =>
    simp only [Node.setChildByPos, ChildrenAgree.childIdx_eq_rank hn, toNat_childPosFromByte]
    refine ⟨ChildrenAgree.replace hn hc hkey hne hkey', fun x => ?_⟩
    rw [← hkey]
    exact (ChildrenAgree.sorted hn).mem_set_rank hc

@[simp] theorem length_children_setChildByPos (n : Node T) (pos : ChildPos) (c : Node T) :
    (n.setChildByPos pos c).children.length = n.children.length := by
  cases n with
  | leaf h => rfl
  | internal h bitmap cs => exact List.length_set

/-- **`insert_child` adds the child**, when its first byte is new. -/
theorem Agrees.insertChild {n : Node T} (hn : n.Agrees) {b : UInt8} {child : Node T}
    (hb : ∀ c ∈ n.children, c.key ≠ b.toNat) (hne : child.pfx.bytes ≠ [])
    (hkey : child.key = b.toNat) :
    ∃ n', n.insertChild (childPosFromByte b) child = .ok n' ∧ n'.header = n.header ∧ n'.Agrees
      ∧ n'.children.length = n.children.length + 1
      ∧ ∀ x, x ∈ n'.children ↔ x = child ∨ x ∈ n.children := by
  have main : ∀ (h : Header T) (bitmap : Bitmap) (cs : List (Node T)), ChildrenAgree bitmap cs →
      (∀ c ∈ cs, c.key ≠ b.toNat) →
      ∃ n', (internal h bitmap cs).insertChild (childPosFromByte b) child = .ok n'
        ∧ n'.header = h ∧ n'.Agrees ∧ n'.children.length = cs.length + 1
        ∧ ∀ x, x ∈ n'.children ↔ x = child ∨ x ∈ cs := by
    intro h bitmap cs hag hb
    refine ⟨internal h (bitmap.set (childPosFromByte b)) (cs.insertIdx (cs.rank key b.toNat) child),
      ?_, rfl, hag.insert hb hne hkey, List.length_insertIdx_of_le_length
        (List.rank_le_length _ _) _, fun x => ?_⟩
    · simp only [Node.insertChild, upgradeToInternal, BoundedRawVec.insert,
        BoundedRawVec.CAPACITY_MAX, hag.lenChildren_eq_length, if_neg (hag.length_ne_of_absent hb),
        hag.childIdx_eq_rank, toNat_childPosFromByte, Rust.ok_bind, Rust.pure_eq_ok]
    · rw [← hkey]
      exact List.mem_insertIdx_rank
  cases n with
  | leaf h => exact main h Bitmap.zero [] ChildrenAgree.nil hb
  | internal h bitmap cs => exact main h bitmap cs hn hb

/-- **`remove_child` takes the child out**, and leaves the others. -/
theorem Agrees.removeChild {n : Node T} (hn : n.Agrees) {b : UInt8} {c : Node T}
    (hc : c ∈ n.children) (hkey : c.key = b.toNat) :
    (n.removeChild (childPosFromByte b)).1 = some c
      ∧ (n.removeChild (childPosFromByte b)).2.Agrees
      ∧ (n.removeChild (childPosFromByte b)).2.children.length + 1 = n.children.length
      ∧ ∀ x, x ∈ (n.removeChild (childPosFromByte b)).2.children
          ↔ x ∈ n.children ∧ x.key ≠ b.toNat := by
  cases n with
  | leaf h => cases hc
  | internal h bitmap cs =>
    have hget := (ChildrenAgree.sorted hn).getElem?_rank hc
    have hlt : cs.rank key c.key < cs.length := (List.getElem?_eq_some_iff.mp hget).1
    simp only [Node.removeChild, BoundedRawVec.remove, ChildrenAgree.childIdx_eq_rank hn,
      ChildrenAgree.lenChildren_eq_length hn, toNat_childPosFromByte]
    rw [← hkey, if_neg (by omega)]
    refine ⟨hget, ?_, ?_, fun x => (ChildrenAgree.sorted hn).mem_eraseIdx_rank hc⟩
    · rw [hkey]
      exact ChildrenAgree.remove hn hc hkey
    · simp only [children, List.length_eraseIdx, if_pos hlt]
      omega

/-- **`child_pos_from_idx` names the position of the only child.** -/
theorem Agrees.childPosFromIdx_zero {n : Node T} (hn : n.Agrees) {c : Node T} {b : UInt8}
    {bs : Bytes} (hc : n.children = [c]) (hb : c.pfx.bytes = b :: bs) :
    n.childPosFromIdx 0 = .ok (childPosFromByte b) := by
  cases n with
  | leaf h => cases hc
  | internal h bitmap cs =>
    have hlen : bitmap.lenChildren = 1 := by
      rw [ChildrenAgree.lenChildren_eq_length hn, show cs = [c] from hc]
      rfl
    simp [childPosFromIdx, getChildByIdx, BoundedRawVec.get, hlen, show cs = [c] from hc,
      Prefix.firstByte, hb]

end Node

end Trie
