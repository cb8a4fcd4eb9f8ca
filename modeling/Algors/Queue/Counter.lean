import Algors.Lib.Ring
import Algors.Queue.Fifo
import Algors.Raw
import Mathlib.Data.List.Count

/-!
# Counters of a word

The counters of the queues are `usize`. Differences of them are taken with
`wrapping_sub`, and so mean the same after a counter has wrapped as before it;
but what is one further is `+ 1`, and that panics at `2 ^ w - 1` in a build
with overflow checks and wraps in one without.

`Counter.add` is that addition, and the lemmas here say when a word is what is
left of a number: the difference of two words is that of the numbers, if that
is small.
-/

namespace Counter

variable {w : ℕ}

/-- **`a + b`**, in a build with overflow checks or without. -/
def add (checks : Bool) (a b : BitVec w) : Rust (BitVec w) :=
  if checks = true ∧ 2 ^ w ≤ a.toNat + b.toNat then .error .overflow else .ok (a + b)

theorem add_eq_ok {checks : Bool} {a b : BitVec w}
    (h : checks = true → a.toNat + b.toNat < 2 ^ w) : add checks a b = .ok (a + b) := by
  refine if_neg fun hover => ?_
  have := h hover.1
  omega

theorem add_eq_overflow {a b : BitVec w} (h : 2 ^ w ≤ a.toNat + b.toNat) :
    add true a b = .error .overflow := if_pos ⟨rfl, h⟩

/-- One more, for a counter that has not come to its end. -/
theorem add_one_eq_ok {checks : Bool} {a : BitVec w} (hw : 0 < w)
    (h : checks = true → a.toNat < 2 ^ w - 1) : add checks a 1#w = .ok (a + 1#w) := by
  refine add_eq_ok fun hc => ?_
  have := h hc
  rw [BitVec.toNat_one hw]
  omega

theorem add_one_eq_overflow {a : BitVec w} (hw : 0 < w) (h : a.toNat = 2 ^ w - 1) :
    add true a 1#w = .error .overflow := by
  refine add_eq_overflow ?_
  have := Nat.two_pow_pos w
  rw [BitVec.toNat_one hw]
  omega

/-- A sum that does not panic is the sum of the numbers. -/
theorem toNat_of_add_eq_ok {a b c : BitVec w} (h : add true a b = .ok c) :
    c.toNat = a.toNat + b.toNat := by
  unfold add at h
  split_ifs at h with hover
  obtain rfl := Except.ok.inj h
  rw [BitVec.toNat_add, Nat.mod_eq_of_lt (Nat.lt_of_not_le fun hle => hover ⟨rfl, hle⟩)]

theorem sub_eq_zero_iff {a b : BitVec w} : a - b = 0#w ↔ a = b := by
  constructor
  · intro h
    rw [← BitVec.sub_add_cancel a b, h, BitVec.zero_add]
  · rintro rfl
    exact BitVec.sub_self a

/-- **The difference of two counters that are near each other** is a number of
either sign. -/
theorem toInt_ofNat_sub {a b : ℕ} (hle : a < b + 2 ^ (w - 1)) (hge : b ≤ a + 2 ^ (w - 1))
    (hw : 0 < w) : (BitVec.ofNat w a - BitVec.ofNat w b).toInt = (a : ℤ) - b := by
  have hpow : 2 ^ w = 2 * 2 ^ (w - 1) := by
    rw [← pow_succ', Nat.sub_add_cancel hw]
  rw [BitVec.toInt_sub, BitVec.toInt_ofNat', BitVec.toInt_ofNat', Int.sub_bmod_bmod,
    Int.bmod_sub_bmod, hpow]
  generalize 2 ^ (w - 1) = half at hle hge
  refine Int.bmod_eq_of_le_mul_two ?_ ?_ <;> push_cast <;> omega

/-- **The difference of a counter and one not ahead of it.** -/
theorem ofNat_sub_eq_iff {a b n : ℕ} (hle : b ≤ a) (hlt : a < b + 2 ^ w) (hn : n < 2 ^ w) :
    BitVec.ofNat w a - BitVec.ofNat w b = BitVec.ofNat w n ↔ a = b + n := by
  obtain ⟨d, rfl⟩ := Nat.exists_eq_add_of_le hle
  have hd : d < 2 ^ w := by omega
  rw [BitVec.ofNat_add, BitVec.add_comm, BitVec.add_sub_cancel, ← BitVec.toNat_inj,
    BitVec.toNat_ofNat, BitVec.toNat_ofNat, Nat.mod_eq_of_lt hd, Nat.mod_eq_of_lt hn]
  omega

/-- The slot of a word is the slot of the number. -/
theorem mask_toNat_ofNat {pow : ℕ} (hpow : pow ≤ w) (n : ℕ) :
    (Ring.mask (BitVec.ofNat w n).toNat : Fin (2 ^ pow)) = Ring.mask n := by
  rw [Ring.mask_eq_mask_iff, BitVec.toNat_ofNat, Nat.mod_mod_of_dvd _ (Nat.pow_dvd_pow 2 hpow)]

end Counter

namespace Fifo

variable {T : Type}

/-- A push was accepted. -/
def Outcome.isPushed : Outcome T → Bool
  | .pushed => true
  | _ => false

/-- A pop brought a value. -/
def Outcome.isPopped : Outcome T → Bool
  | .popped _ => true
  | _ => false

/-- How many pushes were accepted. -/
def accepted (outcomes : List (Outcome T)) : ℕ := outcomes.countP Outcome.isPushed

/-- How many pops brought a value. -/
def taken (outcomes : List (Outcome T)) : ℕ := outcomes.countP Outcome.isPopped

@[simp] theorem accepted_cons (o : Outcome T) (os : List (Outcome T)) :
    accepted (o :: os) = accepted os + if o.isPushed then 1 else 0 := List.countP_cons ..

@[simp] theorem taken_cons (o : Outcome T) (os : List (Outcome T)) :
    taken (o :: os) = taken os + if o.isPopped then 1 else 0 := List.countP_cons ..

end Fifo
