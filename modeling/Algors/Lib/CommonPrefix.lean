import Mathlib.Data.List.Basic
import Mathlib.Data.Nat.Bitwise
import Mathlib.Tactic

/-!
# Common prefixes, and where two words first differ

The length of the longest common prefix of two lists, and the way it can be
read off machine words instead of off elements: pack equally long byte lists
into words, take the exclusive or, and count the zero bits at the end the
first byte sits at. Eight of them make one equal byte, so the count divided
by eight is the length of the common prefix
(`lcpLen_of_ctz`, `lcpLen_of_clz`).

Both byte orders rest on one fact about bits, `lcpLen_of_firstDiff`: if every
element is determined by `k` bits, the first bit at which two lists differ
lies in the first element at which they differ.
-/

variable {α : Type}

/-- **The length of the longest common prefix** of two lists, element by
element. -/
def lcpLen [DecidableEq α] : List α → List α → ℕ
  | [], _ => 0
  | _ :: _, [] => 0
  | a :: xs, b :: ys => if a = b then lcpLen xs ys + 1 else 0

section LcpLen

variable [DecidableEq α]

@[simp] theorem lcpLen_nil_left (ys : List α) : lcpLen [] ys = 0 := by rw [lcpLen]

@[simp] theorem lcpLen_nil_right (xs : List α) : lcpLen xs [] = 0 := by
  cases xs <;> rfl

@[simp] theorem lcpLen_cons_self (a : α) (xs ys : List α) :
    lcpLen (a :: xs) (a :: ys) = lcpLen xs ys + 1 := by
  rw [lcpLen, if_pos rfl]

theorem lcpLen_cons_ne {a b : α} (h : a ≠ b) (xs ys : List α) :
    lcpLen (a :: xs) (b :: ys) = 0 := by
  rw [lcpLen, if_neg h]

theorem lcpLen_le_left (xs ys : List α) : lcpLen xs ys ≤ xs.length := by
  induction xs, ys using lcpLen.induct with
  | case1 ys => simp
  | case2 a xs => simp
  | case3 xs a ys ih => rw [lcpLen_cons_self, List.length_cons]; omega
  | case4 a xs b ys hne => rw [lcpLen_cons_ne hne]; omega

theorem lcpLen_comm (xs ys : List α) : lcpLen xs ys = lcpLen ys xs := by
  induction xs, ys using lcpLen.induct with
  | case1 ys => simp
  | case2 a xs => simp
  | case3 xs a ys ih => rw [lcpLen_cons_self, lcpLen_cons_self, ih]
  | case4 a xs b ys hne => rw [lcpLen_cons_ne hne, lcpLen_cons_ne (Ne.symm hne)]

theorem lcpLen_le_right (xs ys : List α) : lcpLen xs ys ≤ ys.length :=
  lcpLen_comm xs ys ▸ lcpLen_le_left ys xs

/-- The two lists agree on their common prefix. -/
theorem take_lcpLen (xs ys : List α) :
    xs.take (lcpLen xs ys) = ys.take (lcpLen xs ys) := by
  induction xs, ys using lcpLen.induct with
  | case1 ys => simp
  | case2 a xs => simp
  | case3 xs a ys ih => rw [lcpLen_cons_self, List.take_succ_cons, List.take_succ_cons, ih]
  | case4 a xs b ys hne => rw [lcpLen_cons_ne hne, List.take_zero, List.take_zero]

/-- A common prefix of length `n` is within the longest one. -/
theorem le_lcpLen {xs ys : List α} {n : ℕ} (hx : n ≤ xs.length) (hy : n ≤ ys.length)
    (h : xs.take n = ys.take n) : n ≤ lcpLen xs ys := by
  induction xs, ys using lcpLen.induct generalizing n with
  | case1 ys => simpa using hx
  | case2 a xs => simpa using hy
  | case3 xs a ys ih =>
    cases n with
    | zero => exact Nat.zero_le _
    | succ n =>
      rw [lcpLen_cons_self]
      simp only [List.take_succ_cons, List.cons.injEq, true_and, List.length_cons] at h hx hy
      exact Nat.succ_le_succ (ih (by omega) (by omega) h)
  | case4 a xs b ys hne =>
    cases n with
    | zero => exact Nat.zero_le _
    | succ n =>
      simp only [List.take_succ_cons, List.cons.injEq] at h
      exact absurd h.1 hne

/-- **The longest common prefix is characterized** by agreement up to `n` and
a difference at `n`. -/
theorem lcpLen_eq {xs ys : List α} {n : ℕ} (hx : n < xs.length) (hy : n < ys.length)
    (h : xs.take n = ys.take n) (hne : xs[n] ≠ ys[n]) : lcpLen xs ys = n := by
  refine le_antisymm ?_ (le_lcpLen hx.le hy.le h)
  by_contra hlt
  have hn : n < lcpLen xs ys := Nat.lt_of_not_le hlt
  have hget := congrArg (fun l => l[n]?) (take_lcpLen xs ys)
  simp only [List.getElem?_take, if_pos hn, List.getElem?_eq_getElem hx,
    List.getElem?_eq_getElem hy, Option.some.injEq] at hget
  exact hne hget

/-- A common prefix can be split off: what follows a prefix on which both
agree decides the rest. -/
theorem lcpLen_append {xs ys : List α} {n : ℕ} (hx : n ≤ xs.length) (hy : n ≤ ys.length)
    (h : xs.take n = ys.take n) :
    lcpLen xs ys = n + lcpLen (xs.drop n) (ys.drop n) := by
  induction n generalizing xs ys with
  | zero => simp
  | succ n ih =>
    rcases xs with - | ⟨a, xs⟩
    · simp at hx
    rcases ys with - | ⟨b, ys⟩
    · simp at hy
    simp only [List.take_succ_cons, List.cons.injEq, List.length_cons] at h hx hy
    obtain ⟨rfl, h⟩ := h
    rw [lcpLen_cons_self, ih (by omega) (by omega) h, List.drop_succ_cons, List.drop_succ_cons]
    omega

/-- A difference within the first `n` elements is found within them. -/
theorem lcpLen_take {xs ys : List α} {n : ℕ} (h : xs.take n ≠ ys.take n) :
    lcpLen (xs.take n) (ys.take n) = lcpLen xs ys := by
  induction xs, ys using lcpLen.induct generalizing n with
  | case1 ys => simp
  | case2 a xs => simp
  | case3 xs a ys ih =>
    cases n with
    | zero => simp at h
    | succ n =>
      rw [List.take_succ_cons, List.take_succ_cons, lcpLen_cons_self, lcpLen_cons_self, ih]
      simpa only [List.take_succ_cons, ne_eq, List.cons.injEq, true_and] using h
  | case4 a xs b ys hne =>
    cases n with
    | zero => simp at h
    | succ n =>
      rw [List.take_succ_cons, List.take_succ_cons, lcpLen_cons_ne hne, lcpLen_cons_ne hne]

theorem lcpLen_self (xs : List α) : lcpLen xs xs = xs.length :=
  le_antisymm (lcpLen_le_left xs xs) (le_lcpLen le_rfl le_rfl rfl)

/-- The common prefix is all of the left list exactly when that is a prefix
of the right one. -/
theorem lcpLen_eq_length_left {xs ys : List α} :
    lcpLen xs ys = xs.length ↔ xs <+: ys := by
  constructor
  · intro h
    have htake := take_lcpLen xs ys
    rw [h, List.take_length] at htake
    exact List.prefix_iff_eq_take.mpr htake
  · rintro ⟨zs, rfl⟩
    exact le_antisymm (lcpLen_le_left _ _)
      (le_lcpLen le_rfl (by simp) (by simp))

/-- The same for the right list. -/
theorem lcpLen_eq_length_right {xs ys : List α} : lcpLen xs ys = ys.length ↔ ys <+: xs := by
  rw [lcpLen_comm, lcpLen_eq_length_left]

/-- Where a list goes on past the common prefix, and so does the other, they
go on differently. -/
theorem getElem_lcpLen_ne {xs ys : List α} (hx : lcpLen xs ys < xs.length)
    (hy : lcpLen xs ys < ys.length) : xs[lcpLen xs ys] ≠ ys[lcpLen xs ys] := by
  intro heq
  have hle : lcpLen xs ys + 1 ≤ lcpLen xs ys := by
    refine le_lcpLen hx hy ?_
    rw [List.take_succ_eq_append_getElem hx, List.take_succ_eq_append_getElem hy, take_lcpLen,
      heq]
  omega

/-- **The first differing bit lies in the first differing element.** The bits
of an element are given by `bit`, `k` of them, and they determine it; `p` is
the first position at which the two bit strings differ. -/
theorem lcpLen_of_firstDiff {k : ℕ} (hk : 0 < k) (bit : α → ℕ → Bool)
    (hbit : ∀ a b, (∀ j < k, bit a j = bit b j) → a = b)
    {xs ys : List α} {p : ℕ} (hx : p / k < xs.length) (hy : p / k < ys.length)
    (hlt : ∀ i < p, ∀ (hx' : i / k < xs.length) (hy' : i / k < ys.length),
      bit xs[i / k] (i % k) = bit ys[i / k] (i % k))
    (hne : bit xs[p / k] (p % k) ≠ bit ys[p / k] (p % k)) :
    lcpLen xs ys = p / k := by
  refine lcpLen_eq hx hy (List.ext_getElem (by simp; omega) fun i h₁ h₂ => ?_)
    fun h => hne (by rw [h])
  simp only [List.length_take, lt_inf_iff] at h₁ h₂
  rw [List.getElem_take, List.getElem_take]
  refine hbit _ _ fun j hj => ?_
  have hdiv : (k * i + j) / k = i := by
    rw [Nat.mul_add_div hk, Nat.div_eq_of_lt hj, Nat.add_zero]
  have hmod : (k * i + j) % k = j := by
    rw [Nat.mul_add_mod, Nat.mod_eq_of_lt hj]
  have hip : k * i + j < p := by
    have := Nat.div_add_mod p k
    have : k * (i + 1) ≤ k * (p / k) := Nat.mul_le_mul_left k h₁.1
    rw [Nat.mul_add] at this
    omega
  have := hlt (k * i + j) hip (by rw [hdiv]; omega) (by rw [hdiv]; omega)
  simpa only [hdiv, hmod] using this

end LcpLen

/-! ## Bytes packed into words -/

/-- The number a byte string is in little-endian order. -/
def leNat : List UInt8 → ℕ
  | [] => 0
  | b :: bs => 2 ^ 8 * leNat bs + b.toNat

theorem testBit_leNat (bs : List UInt8) (i : ℕ) :
    (leNat bs).testBit i = (bs.getD (i / 8) 0).toNat.testBit (i % 8) := by
  induction bs generalizing i with
  | nil => simp [leNat]
  | cons b bs ih =>
    rw [leNat, Nat.testBit_two_pow_mul_add _ b.toNat_lt]
    by_cases hi : i < 8
    · rw [if_pos hi, Nat.div_eq_of_lt hi, Nat.mod_eq_of_lt hi]
      rfl
    · rw [if_neg hi, ih]
      obtain ⟨j, rfl⟩ := Nat.exists_eq_add_of_le (Nat.le_of_not_lt hi)
      rw [Nat.add_sub_cancel_left, Nat.add_div_left j (by omega), Nat.add_mod_left]
      rfl

/-- The `n` low bytes of a number, in little-endian order. -/
def leBytes : ℕ → ℕ → List UInt8
  | 0, _ => []
  | n + 1, value => UInt8.ofNat (value % 2 ^ 8) :: leBytes n (value / 2 ^ 8)

@[simp] theorem length_leBytes (n value : ℕ) : (leBytes n value).length = n := by
  induction n generalizing value with
  | zero => rfl
  | succ n ih => rw [leBytes, List.length_cons, ih]

/-- **A number that has no more bytes is read back.** -/
theorem leNat_leBytes {n value : ℕ} (h : value < 2 ^ (8 * n)) :
    leNat (leBytes n value) = value := by
  induction n generalizing value with
  | zero =>
    rw [Nat.mul_zero, Nat.pow_zero] at h
    exact (Nat.lt_one_iff.mp h).symm
  | succ n ih =>
    have hdiv : value / 2 ^ 8 < 2 ^ (8 * n) := by
      rw [Nat.div_lt_iff_lt_mul (by decide), ← Nat.pow_add]
      exact h
    have hmod : (UInt8.ofNat (value % 2 ^ 8)).toNat = value % 2 ^ 8 := by
      rw [UInt8.toNat_ofNat']
      exact Nat.mod_mod _ _
    rw [leBytes, leNat, ih hdiv, hmod, Nat.div_add_mod]

/-- The word of `n` bytes a byte string is in little-endian order. -/
def leWord (n : ℕ) (bs : List UInt8) : BitVec (8 * n) := BitVec.ofNat _ (leNat bs)

/-- The word of `n` bytes a byte string is in big-endian order. -/
def beWord (n : ℕ) (bs : List UInt8) : BitVec (8 * n) := BitVec.ofNat _ (leNat bs.reverse)

theorem getLsbD_leWord (n : ℕ) (bs : List UInt8) (i : ℕ) (hi : i < 8 * n) :
    (leWord n bs).getLsbD i = (bs.getD (i / 8) 0).toNat.testBit (i % 8) := by
  rw [leWord, BitVec.getLsbD_ofNat, decide_eq_true hi, Bool.true_and, testBit_leNat]

/-- Counted from the most significant bit, a big-endian word is the bytes in
order, each from its own most significant bit. -/
theorem getMsbD_beWord {n : ℕ} {bs : List UInt8} (hbs : bs.length = n) (i : ℕ)
    (hi : i < 8 * n) :
    (beWord n bs).getMsbD i = (bs.getD (i / 8) 0).toNat.testBit (7 - i % 8) := by
  rw [BitVec.getMsbD_eq_getLsbD, decide_eq_true hi, Bool.true_and, beWord, BitVec.getLsbD_ofNat,
    decide_eq_true (by omega), Bool.true_and, testBit_leNat]
  have hdiv : (8 * n - 1 - i) / 8 = n - 1 - i / 8 := by omega
  have hmod : (8 * n - 1 - i) % 8 = 7 - i % 8 := by omega
  rw [hdiv, hmod, List.getD_eq_getElem?_getD, List.getD_eq_getElem?_getD,
    List.getElem?_reverse (by omega), hbs]
  congr 4
  omega

/-- A byte is its bits. -/
theorem UInt8.eq_of_testBit {a b : UInt8} (h : ∀ j < 8, a.toNat.testBit j = b.toNat.testBit j) :
    a = b := by
  refine UInt8.toNat_inj.mp (Nat.eq_of_testBit_eq fun j => ?_)
  by_cases hj : j < 8
  · exact h j hj
  · have hpow : (2 : ℕ) ^ 8 ≤ 2 ^ j := Nat.pow_le_pow_right (by omega) (by omega)
    rw [Nat.testBit_lt_two_pow (a.toNat_lt.trans_le hpow),
      Nat.testBit_lt_two_pow (b.toNat_lt.trans_le hpow)]

/-- **Equal words are equal bytes**, in little-endian order. -/
theorem eq_of_leWord_eq {n : ℕ} {xs ys : List UInt8} (hx : xs.length = n) (hy : ys.length = n)
    (h : leWord n xs = leWord n ys) : xs = ys := by
  refine List.ext_getElem (by omega) fun i h₁ h₂ => UInt8.eq_of_testBit fun j hj => ?_
  have hbit := congrArg (fun w => w.getLsbD (8 * i + j)) h
  simp only [getLsbD_leWord n _ (8 * i + j) (by omega)] at hbit
  rwa [show (8 * i + j) / 8 = i by omega, show (8 * i + j) % 8 = j by omega,
    List.getD_eq_getElem _ _ h₁, List.getD_eq_getElem _ _ h₂] at hbit

/-- **Equal words are equal bytes**, in big-endian order. -/
theorem eq_of_beWord_eq {n : ℕ} {xs ys : List UInt8} (hx : xs.length = n) (hy : ys.length = n)
    (h : beWord n xs = beWord n ys) : xs = ys := by
  have hrev : xs.reverse = ys.reverse :=
    eq_of_leWord_eq (n := n) (by simp [hx]) (by simp [hy]) h
  simpa using hrev

/-- **Little-endian words that differ** do so first in the byte given by the
trailing zeros of their exclusive or. -/
theorem lcpLen_of_ctz {n : ℕ} {xs ys : List UInt8} (hx : xs.length = n) (hy : ys.length = n)
    (hne : leWord n xs ≠ leWord n ys) :
    lcpLen xs ys = (leWord n xs ^^^ leWord n ys).ctz.toNat / 8 := by
  set d := leWord n xs ^^^ leWord n ys with hd
  have hd0 : d ≠ 0#_ := by
    rw [hd, Ne, BitVec.xor_eq_zero_iff]
    exact hne
  have hp : d.ctz.toNat < 8 * n := by
    have := BitVec.ctz_lt_iff_ne_zero.mpr hd0
    rw [BitVec.lt_def, BitVec.natCast_eq_ofNat, BitVec.toNat_ofNat, Nat.mod_two_pow_self] at this
    exact this
  have hbit : ∀ i < 8 * n, ∀ (hx' : i / 8 < xs.length) (hy' : i / 8 < ys.length),
      d.getLsbD i = (xs[i / 8].toNat.testBit (i % 8) ^^ ys[i / 8].toNat.testBit (i % 8)) := by
    intro i hi hx' hy'
    rw [hd, BitVec.getLsbD_xor, getLsbD_leWord _ _ _ hi, getLsbD_leWord _ _ _ hi,
      List.getD_eq_getElem _ _ hx', List.getD_eq_getElem _ _ hy']
  refine lcpLen_of_firstDiff (by omega) (fun a j => a.toNat.testBit j)
    (fun a b => UInt8.eq_of_testBit) (by omega) (by omega) (fun i hi hx' hy' => ?_) ?_
  · have := BitVec.getLsbD_false_of_lt_ctz hi
    rw [hbit i (by omega) hx' hy'] at this
    simpa using this
  · have := BitVec.getLsbD_true_ctz_of_ne_zero hd0
    rw [hbit _ hp (by omega) (by omega)] at this
    simpa using this

/-- **Big-endian words that differ** do so first in the byte given by the
leading zeros of their exclusive or. -/
theorem lcpLen_of_clz {n : ℕ} {xs ys : List UInt8} (hx : xs.length = n) (hy : ys.length = n)
    (hne : beWord n xs ≠ beWord n ys) :
    lcpLen xs ys = (beWord n xs ^^^ beWord n ys).clz.toNat / 8 := by
  set d := beWord n xs ^^^ beWord n ys with hd
  have hd0 : d.reverse ≠ 0#_ := by
    intro h
    refine hne (BitVec.xor_eq_zero_iff.mp ?_)
    rw [← hd, ← BitVec.reverse_reverse_eq (x := d), h]
    ext i hi
    rw [BitVec.getElem_reverse]
    simp
  rw [BitVec.clz_eq_reverse_ctz]
  have hp : d.reverse.ctz.toNat < 8 * n := by
    have := BitVec.ctz_lt_iff_ne_zero.mpr hd0
    rw [BitVec.lt_def, BitVec.natCast_eq_ofNat, BitVec.toNat_ofNat, Nat.mod_two_pow_self] at this
    exact this
  have hbit : ∀ i < 8 * n, ∀ (hx' : i / 8 < xs.length) (hy' : i / 8 < ys.length),
      d.reverse.getLsbD i
        = (xs[i / 8].toNat.testBit (7 - i % 8) ^^ ys[i / 8].toNat.testBit (7 - i % 8)) := by
    intro i hi hx' hy'
    rw [BitVec.getLsbD_reverse, hd, BitVec.getMsbD_xor, getMsbD_beWord hx _ hi,
      getMsbD_beWord hy _ hi, List.getD_eq_getElem _ _ hx', List.getD_eq_getElem _ _ hy']
  refine lcpLen_of_firstDiff (by omega) (fun a j => a.toNat.testBit (7 - j))
    (fun a b h => UInt8.eq_of_testBit fun j hj => ?_) (by omega) (by omega)
    (fun i hi hx' hy' => ?_) ?_
  · have := h (7 - j) (by omega)
    simpa only [show 7 - (7 - j) = j by omega] using this
  · have := BitVec.getLsbD_false_of_lt_ctz hi
    rw [hbit i (by omega) hx' hy'] at this
    simpa using this
  · have := BitVec.getLsbD_true_ctz_of_ne_zero hd0
    rw [hbit _ hp (by omega) (by omega)] at this
    simpa using this
