import Mathlib.Data.Nat.Count
import Mathlib.Tactic

/-!
# Counting the set bits of words

The population count of a word is the count of the positions whose bit is
set, and masking the word to its low bits restricts the count to them. A set
of numbers kept in several words side by side is counted word by word
(`count_words`).
-/

namespace BitVec

variable {w : ℕ}

theorem cpopNatRec_eq_count (x : BitVec w) (n acc : ℕ) :
    x.cpopNatRec n acc = acc + Nat.count (fun i => x.getLsbD i = true) n := by
  induction n generalizing acc with
  | zero => simp
  | succ n ih =>
    rw [cpopNatRec_succ, ih, Nat.count_succ]
    cases x.getLsbD n with
    | false => simp
    | true => simp only [Bool.toNat_true, if_true]; omega

/-- **The population count is a count** of the positions below the width. -/
theorem toNat_cpop_eq_count (x : BitVec w) :
    x.cpop.toNat = Nat.count (fun i => x.getLsbD i = true) w := by
  rw [toNat_cpop, cpopNatRec_eq_count, Nat.zero_add]

/-- The mask of the low `r` bits. -/
theorem getLsbD_mask {r : ℕ} (hr : r < w) (i : ℕ) :
    ((1#w <<< r) - 1#w).getLsbD i = decide (i < r) := by
  have hpow : 2 ^ r < 2 ^ w := Nat.pow_lt_pow_right (by omega) hr
  have htoNat : ((1#w <<< r) - 1#w).toNat = 2 ^ r - 1 := by
    have h1 : 1 < 2 ^ w := Nat.one_lt_two_pow (by omega)
    have hp : 0 < 2 ^ r := Nat.two_pow_pos r
    rw [BitVec.toNat_sub, BitVec.toNat_shiftLeft, BitVec.toNat_ofNat, Nat.mod_eq_of_lt h1,
      Nat.shiftLeft_eq, Nat.one_mul, Nat.mod_eq_of_lt hpow,
      show 2 ^ w - 1 + 2 ^ r = (2 ^ r - 1) + 2 ^ w by omega, Nat.add_mod_right,
      Nat.mod_eq_of_lt (by omega)]
  rw [← BitVec.testBit_toNat, htoNat, Nat.testBit_two_pow_sub_one]

/-- **Masked to the low bits, a word counts them only.** -/
theorem toNat_cpop_and_mask {r : ℕ} (hr : r < w) (x : BitVec w) :
    (x &&& ((1#w <<< r) - 1#w)).cpop.toNat = Nat.count (fun i => x.getLsbD i = true) r := by
  have hcongr : ∀ i < w, ((x &&& ((1#w <<< r) - 1#w)).getLsbD i = true)
      ↔ (x.getLsbD i = true ∧ i < r) := by
    intro i _
    rw [getLsbD_and, getLsbD_mask hr, Bool.and_eq_true, decide_eq_true_eq]
  rw [toNat_cpop_eq_count, Nat.count_eq_card_filter_range, Nat.count_eq_card_filter_range]
  congr 1
  ext i
  simp only [Finset.mem_filter, Finset.mem_range]
  constructor
  · rintro ⟨hi, hbit⟩
    obtain ⟨hx, hlt⟩ := (hcongr i hi).mp hbit
    exact ⟨hlt, hx⟩
  · rintro ⟨hlt, hx⟩
    exact ⟨hlt.trans hr, (hcongr i (hlt.trans hr)).mpr ⟨hx, hlt⟩⟩

theorem getLsbD_one_shiftLeft {r : ℕ} (hr : r < w) (i : ℕ) :
    (1#w <<< r).getLsbD i = decide (i = r) := by
  rw [getLsbD_shiftLeft, getLsbD_one]
  by_cases h : i = r
  · subst h; simp [hr]; omega
  · by_cases hlt : i < r
    · simp [hlt, h]
    · have : i - r ≠ 0 := by omega
      simp [this, h]

/-- **Testing one bit** with a shifted one. -/
theorem and_one_shiftLeft_ne_zero {r : ℕ} (hr : r < w) (x : BitVec w) :
    (x &&& (1#w <<< r) != 0#w) = x.getLsbD r := by
  rw [Bool.eq_iff_iff, bne_iff_ne, Ne, ← BitVec.toNat_inj]
  constructor
  · intro h
    by_contra hx
    refine h (BitVec.toNat_inj.mpr (BitVec.eq_of_getLsbD_eq fun i hi => ?_))
    rw [getLsbD_and, getLsbD_one_shiftLeft hr, getLsbD_zero]
    by_cases hir : i = r
    · subst hir; simp [hx]
    · simp [hir]
  · intro hx h
    have := congrArg (fun y => y.getLsbD r) (BitVec.toNat_inj.mp h)
    rw [getLsbD_and, getLsbD_one_shiftLeft hr, getLsbD_zero] at this
    simp [hx] at this

end BitVec

/-- **Words side by side are counted word by word.** -/
theorem Nat.count_words (p : ℕ → Prop) [DecidablePred p] (w q r : ℕ) :
    Nat.count p (w * q + r)
      = ((List.range q).map (fun j => Nat.count (fun i => p (w * j + i)) w)).sum
        + Nat.count (fun i => p (w * q + i)) r := by
  induction q generalizing r with
  | zero => simp
  | succ q ih =>
    rw [show w * (q + 1) + r = w * q + (w + r) by ring, ih, Nat.count_add, List.range_succ,
      List.map_append, List.sum_append]
    simp only [List.map_cons, List.map_nil, List.sum_cons, List.sum_nil, Nat.add_zero,
      show ∀ i, w * q + (w + i) = w * (q + 1) + i from fun i => by ring, Nat.add_assoc]
