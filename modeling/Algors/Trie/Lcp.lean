import Algors.Basic
import Algors.Lib.CommonPrefix
import Mathlib.Order.Bounds.Defs

/-!
# The longest common prefix of two slices

`util::lcp` compares slices a word at a time: 16 bytes while that many are
left, and for shorter slices two words of 8, 4 or 2 bytes that may overlap in
the middle. Where two words differ the first differing byte is found by
counting zero bits of their exclusive or, at the end of the word at which the
byte order of the target puts the first byte.

`lcp_eq_lcpLen` says that all of this computes the length of the longest
common prefix, on slices of any lengths and for both byte orders.
-/

variable [Target]

namespace Util

/-- `p.add(off).cast::<uN>().read_unaligned()`: the word of `n` bytes at
offset `off`. -/
def readUnaligned (n : ℕ) (buf : Bytes) (off : ℕ) : BitVec (8 * n) :=
  match Target.endian with
  | .little => leWord n ((buf.drop off).take n)
  | .big => beWord n ((buf.drop off).take n)

/-- The byte at which two words with exclusive or `diff` first differ: zero
bits counted from the first byte in memory, eight to a byte. -/
def firstDiffByte {n : ℕ} (diff : BitVec (8 * n)) : ℕ :=
  match Target.endian with
  | .little => diff.ctz.toNat / 8
  | .big => diff.clz.toNat / 8

/-- The `diff!` macro: return from `lcp` where the words read at `offset`
differ, and go on where they do not. -/
def diff (n : ℕ) (buf1 buf2 : Bytes) (offset : ℕ) : Option ℕ :=
  let x := readUnaligned n buf1 offset
  let y := readUnaligned n buf2 offset
  if x ≠ y then some (offset + firstDiffByte (x ^^^ y)) else none

/-- The loop over whole 16-byte words. -/
def lcpLoop (buf1 buf2 : Bytes) (len i : ℕ) : Option ℕ :=
  if i + 16 ≤ len then
    match diff 16 buf1 buf2 i with
    | some r => some r
    | none => lcpLoop buf1 buf2 len (i + 16)
  else none
termination_by len - i

/-- Two words of `n` bytes, the first at the front and the second at the
tail: the shape of the branches for 8, 4 and 2 bytes. -/
def lcpTwo (n : ℕ) (buf1 buf2 : Bytes) (len : ℕ) : ℕ :=
  match diff n buf1 buf2 0 with
  | some r => r
  | none =>
    match diff n buf1 buf2 (len - n) with
    | some r => r
    | none => len

/-- `util::lcp`. -/
def lcp (buf1 buf2 : Bytes) : ℕ :=
  let len := min buf1.length buf2.length
  if len = 0 then 0
  else if 16 ≤ len then
    match lcpLoop buf1 buf2 len 0 with
    | some r => r
    | none =>
      match diff 16 buf1 buf2 (len - 16) with
      | some r => r
      | none => len
  else if 8 ≤ len then lcpTwo 8 buf1 buf2 len
  else if 4 ≤ len then lcpTwo 4 buf1 buf2 len
  else if 2 ≤ len then lcpTwo 2 buf1 buf2 len
  else if buf1[0]? ≠ buf2[0]? then 0
  else 1

/-- Two equal words are equal runs of bytes. -/
theorem eq_of_readUnaligned_eq {n : ℕ} {buf1 buf2 : Bytes} {off : ℕ}
    (h₁ : off + n ≤ buf1.length) (h₂ : off + n ≤ buf2.length)
    (h : readUnaligned n buf1 off = readUnaligned n buf2 off) :
    (buf1.drop off).take n = (buf2.drop off).take n := by
  unfold readUnaligned at h
  have l₁ : ((buf1.drop off).take n).length = n := by simp; omega
  have l₂ : ((buf2.drop off).take n).length = n := by simp; omega
  cases he : Target.endian with
  | little => rw [he] at h; exact eq_of_leWord_eq l₁ l₂ h
  | big => rw [he] at h; exact eq_of_beWord_eq l₁ l₂ h

/-- **Two differing words locate the first differing byte** of the runs they
were read from. -/
theorem firstDiffByte_eq {n : ℕ} {buf1 buf2 : Bytes} {off : ℕ}
    (h₁ : off + n ≤ buf1.length) (h₂ : off + n ≤ buf2.length)
    (h : readUnaligned n buf1 off ≠ readUnaligned n buf2 off) :
    firstDiffByte (readUnaligned n buf1 off ^^^ readUnaligned n buf2 off)
      = lcpLen ((buf1.drop off).take n) ((buf2.drop off).take n) := by
  unfold readUnaligned firstDiffByte at *
  have l₁ : ((buf1.drop off).take n).length = n := by simp; omega
  have l₂ : ((buf2.drop off).take n).length = n := by simp; omega
  cases he : Target.endian with
  | little => rw [he] at h; exact (lcpLen_of_ctz l₁ l₂ h).symm
  | big => rw [he] at h; exact (lcpLen_of_clz l₁ l₂ h).symm

/-- The slices agree on their first `n` bytes. -/
def AgreeUpTo (buf1 buf2 : Bytes) (n : ℕ) : Prop := buf1.take n = buf2.take n

omit [Target] in
/-- Agreement on a run that starts within an agreeing front extends it. -/
theorem AgreeUpTo.append {buf1 buf2 : Bytes} {i off n : ℕ} (h : AgreeUpTo buf1 buf2 i)
    (hoff : off ≤ i) (hrun : (buf1.drop off).take n = (buf2.drop off).take n) :
    AgreeUpTo buf1 buf2 (off + n) := by
  have hfront : buf1.take off = buf2.take off := by
    have := congrArg (List.take off) h
    rwa [List.take_take, List.take_take, Nat.min_eq_left hoff] at this
  unfold AgreeUpTo
  rw [List.take_add, List.take_add, hfront, hrun]

/-- **What `diff!` decides**: a return value is the length of the common
prefix, and without one the slices agree through the end of the word. -/
theorem diff_spec (n : ℕ) (buf1 buf2 : Bytes) (off : ℕ) {i : ℕ} (hagree : AgreeUpTo buf1 buf2 i)
    (hoff : off ≤ i) (h₁ : off + n ≤ buf1.length) (h₂ : off + n ≤ buf2.length) :
    match diff n buf1 buf2 off with
    | some r => r = lcpLen buf1 buf2
    | none => AgreeUpTo buf1 buf2 (off + n) := by
  have hfront : buf1.take off = buf2.take off := by
    have := congrArg (List.take off) hagree
    rwa [List.take_take, List.take_take, Nat.min_eq_left hoff] at this
  unfold diff
  by_cases hw : readUnaligned n buf1 off = readUnaligned n buf2 off
  · rw [if_neg (not_not.mpr hw)]
    exact hagree.append hoff (eq_of_readUnaligned_eq h₁ h₂ hw)
  · rw [if_pos hw]
    dsimp only
    rw [firstDiffByte_eq h₁ h₂ hw, lcpLen_append (n := off) (by omega) (by omega) hfront]
    congr 1
    -- the words differ, so the common prefix of the tails ends inside them
    refine lcpLen_take ?_
    intro hrun
    exact hw (by unfold readUnaligned; rw [hrun])

omit [Target] in
/-- Agreement through the shorter length is a common prefix of that length. -/
theorem lcpLen_of_agreeUpTo {buf1 buf2 : Bytes} {n : ℕ}
    (h : AgreeUpTo buf1 buf2 (min buf1.length buf2.length))
    (hn : n = min buf1.length buf2.length) : n = lcpLen buf1 buf2 := by
  subst hn
  exact le_antisymm (le_lcpLen (min_le_left _ _) (min_le_right _ _) h)
    (le_min (lcpLen_le_left _ _) (lcpLen_le_right _ _))

/-- **The loop over 16-byte words**: it returns the length of the common
prefix, or ends with fewer than 16 bytes not known to agree. -/
theorem lcpLoop_spec (buf1 buf2 : Bytes) (len i : ℕ) (h₁ : len ≤ buf1.length)
    (h₂ : len ≤ buf2.length) (hagree : AgreeUpTo buf1 buf2 i) :
    match lcpLoop buf1 buf2 len i with
    | some r => r = lcpLen buf1 buf2
    | none => ∃ j, len < j + 16 ∧ AgreeUpTo buf1 buf2 j := by
  induction i using lcpLoop.induct buf1 buf2 len with
  | case1 i hi r hr =>
    have hd := diff_spec 16 buf1 buf2 i hagree le_rfl (hi.trans h₁) (hi.trans h₂)
    rw [hr] at hd
    rw [lcpLoop, if_pos hi, hr]
    exact hd
  | case2 i hi hr ih =>
    have hd := diff_spec 16 buf1 buf2 i hagree le_rfl (hi.trans h₁) (hi.trans h₂)
    rw [hr] at hd
    rw [lcpLoop, if_pos hi, hr]
    exact ih hd
  | case3 i hi =>
    rw [lcpLoop, if_neg hi]
    exact ⟨i, by omega, hagree⟩

/-- **The branches for short slices**: two words that between them cover
everything. -/
theorem lcpTwo_spec {n : ℕ} {buf1 buf2 : Bytes} {len : ℕ}
    (hlen : len = min buf1.length buf2.length) (hn : n ≤ len) (hcover : len ≤ n + n) :
    lcpTwo n buf1 buf2 len = lcpLen buf1 buf2 := by
  have hfront := diff_spec n buf1 buf2 0 (i := 0) rfl le_rfl (by omega) (by omega)
  unfold lcpTwo
  cases hd : diff n buf1 buf2 0 with
  | some r => rw [hd] at hfront; exact hfront
  | none =>
    rw [hd] at hfront
    have htail := diff_spec n buf1 buf2 (len - n) hfront (by omega) (by omega) (by omega)
    dsimp only
    cases ht : diff n buf1 buf2 (len - n) with
    | some r => rw [ht] at htail; exact htail
    | none =>
      rw [ht, Nat.sub_add_cancel hn, hlen] at htail
      exact lcpLen_of_agreeUpTo htail hlen

/-- **`lcp` is the length of the longest common prefix**, on slices of any
lengths and whatever the byte order of the target. -/
theorem lcp_eq_lcpLen (buf1 buf2 : Bytes) : lcp buf1 buf2 = lcpLen buf1 buf2 := by
  unfold lcp
  generalize hlen : min buf1.length buf2.length = len
  dsimp only
  split_ifs with h0 h16 h8 h4 h2 h1
  · -- one of the slices is empty
    refine (Nat.le_zero.mp ?_).symm
    rw [← h0, ← hlen]
    exact le_min (lcpLen_le_left _ _) (lcpLen_le_right _ _)
  · have hloop := lcpLoop_spec buf1 buf2 len 0 (by omega) (by omega) rfl
    cases hl : lcpLoop buf1 buf2 len 0 with
    | some r => rw [hl] at hloop; exact hloop
    | none =>
      rw [hl] at hloop
      obtain ⟨j, hj, hagree⟩ := hloop
      have htail := diff_spec 16 buf1 buf2 (len - 16) hagree (by omega) (by omega) (by omega)
      dsimp only
      cases ht : diff 16 buf1 buf2 (len - 16) with
      | some r => rw [ht] at htail; exact htail
      | none =>
        rw [ht, Nat.sub_add_cancel h16, ← hlen] at htail
        exact lcpLen_of_agreeUpTo htail hlen.symm
  · exact lcpTwo_spec hlen.symm h8 (by omega)
  · exact lcpTwo_spec hlen.symm h4 (by omega)
  · exact lcpTwo_spec hlen.symm h2 (by omega)
  · -- a single byte, and the slices differ in it
    rcases buf1 with - | ⟨a, xs⟩
    · simp
    rcases buf2 with - | ⟨b, ys⟩
    · simp
    exact (lcpLen_cons_ne (by simpa using h1) xs ys).symm
  · -- a single byte, and the slices agree in it
    have hmin : min buf1.length buf2.length = 1 := by omega
    refine lcpLen_of_agreeUpTo ?_ hmin.symm
    rw [hmin]
    rcases buf1 with - | ⟨a, xs⟩ <;> rcases buf2 with - | ⟨b, ys⟩ <;> simp_all [AgreeUpTo]

/-- **`lcp` is what the loop over single bytes computes**, the largest number of
bytes that the slices begin with in common. -/
theorem lcp_isGreatest (buf1 buf2 : Bytes) : lcp buf1 buf2 = lcpLen buf1 buf2
    ∧ IsGreatest {n | n ≤ min buf1.length buf2.length ∧ buf1.take n = buf2.take n}
      (lcp buf1 buf2) := by
  rw [lcp_eq_lcpLen]
  have hle : lcpLen buf1 buf2 ≤ min buf1.length buf2.length :=
    le_min (lcpLen_le_left buf1 buf2) (lcpLen_le_right buf1 buf2)
  refine ⟨rfl, ⟨hle, take_lcpLen buf1 buf2⟩, ?_⟩
  rintro n ⟨hn, htake⟩
  exact le_lcpLen (hn.trans (min_le_left ..)) (hn.trans (min_le_right ..)) htake

end Util
