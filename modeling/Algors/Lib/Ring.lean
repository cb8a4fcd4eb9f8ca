import Mathlib.Data.Nat.Bitwise
import Mathlib.Logic.Function.Basic

/-!
# Rings of slots

A buffer of `2 ^ pow` slots that is used round and round: the slot of a
position is given by the low bits of the position. Positions a lap apart share
a slot, and those of one window, less than a lap long, have different ones; so
a change of the slot of one position leaves the others of its window alone.
-/

namespace Ring

variable {α : Type} {pow : ℕ}

/-- **The slot of a position**: its low bits. -/
def mask (pos : ℕ) : Fin (2 ^ pow) :=
  ⟨pos &&& (2 ^ pow - 1), by
    rw [Nat.and_two_pow_sub_one_eq_mod]
    exact Nat.mod_lt _ (Nat.two_pow_pos pow)⟩

/-- What is in the slot of a position. -/
def get (buf : Fin (2 ^ pow) → α) (pos : ℕ) : α := buf (mask pos)

/-- The buffer with the slot of a position changed. -/
def set (buf : Fin (2 ^ pow) → α) (pos : ℕ) (a : α) : Fin (2 ^ pow) → α :=
  Function.update buf (mask pos) a

theorem mask_eq_mask_iff {a b : ℕ} :
    (mask a : Fin (2 ^ pow)) = mask b ↔ a % 2 ^ pow = b % 2 ^ pow := by
  simp only [mask, Fin.mk.injEq, Nat.and_two_pow_sub_one_eq_mod]

theorem mask_of_lt {pos : ℕ} (h : pos < 2 ^ pow) : mask pos = (⟨pos, h⟩ : Fin (2 ^ pow)) := by
  simp only [mask, Nat.and_two_pow_sub_one_eq_mod, Nat.mod_eq_of_lt h]

theorem mask_add_len (pos : ℕ) : (mask (pos + 2 ^ pow) : Fin (2 ^ pow)) = mask pos := by
  rw [mask_eq_mask_iff, Nat.add_mod_right]

/-- Positions less than a lap apart have different slots. -/
theorem mask_ne_mask {a b : ℕ} (hab : a < b) (hlap : b < a + 2 ^ pow) :
    (mask a : Fin (2 ^ pow)) ≠ mask b := by
  rw [Ne, mask_eq_mask_iff]
  intro h
  have hzero := Nat.sub_mod_eq_zero_of_mod_eq h.symm
  rw [Nat.mod_eq_of_lt (by omega)] at hzero
  omega

/-- **Two positions of one window** have different slots. -/
theorem mask_ne_of_window {n a b : ℕ} (ha : n ≤ a ∧ a < n + 2 ^ pow)
    (hb : n ≤ b ∧ b < n + 2 ^ pow) (hne : a ≠ b) : (mask a : Fin (2 ^ pow)) ≠ mask b := by
  rcases Nat.lt_or_gt_of_ne hne with hlt | hlt
  · exact mask_ne_mask hlt (by omega)
  · exact (mask_ne_mask hlt (by omega)).symm

/-- **A position below a window** shares its slot with one of the window, a lap
or more further. -/
theorem exists_window {n pos : ℕ} (hlt : pos < n) : ∃ pos', n ≤ pos' ∧ pos' < n + 2 ^ pow
    ∧ pos + 2 ^ pow ≤ pos' ∧ (mask pos' : Fin (2 ^ pow)) = mask pos := by
  have hlen := Nat.two_pow_pos pow
  induction hk : n - pos using Nat.strong_induction_on generalizing pos with
  | _ k ih =>
    rcases Nat.lt_or_ge (pos + 2 ^ pow) n with hbelow | hge
    · obtain ⟨pos', hle, hlt', hlap, hmask⟩ := ih (n - (pos + 2 ^ pow)) (by omega) hbelow rfl
      exact ⟨pos', hle, hlt', by omega, hmask.trans (mask_add_len pos)⟩
    · exact ⟨pos + 2 ^ pow, hge, by omega, le_rfl, mask_add_len pos⟩

theorem get_add_len (buf : Fin (2 ^ pow) → α) (pos : ℕ) : get buf (pos + 2 ^ pow) = get buf pos :=
  congrArg buf (mask_add_len pos)

theorem set_add_len (buf : Fin (2 ^ pow) → α) (pos : ℕ) (a : α) :
    set buf (pos + 2 ^ pow) a = set buf pos a := by
  rw [set, mask_add_len, set]

@[simp] theorem get_set_self (buf : Fin (2 ^ pow) → α) (pos : ℕ) (a : α) :
    get (set buf pos a) pos = a :=
  Function.update_self ..

theorem get_set_of_ne (buf : Fin (2 ^ pow) → α) {pos pos' : ℕ} (a : α)
    (h : (mask pos' : Fin (2 ^ pow)) ≠ mask pos) : get (set buf pos a) pos' = get buf pos' :=
  Function.update_of_ne h ..

@[simp] theorem set_set (buf : Fin (2 ^ pow) → α) (pos : ℕ) (a b : α) :
    set (set buf pos a) pos b = set buf pos b :=
  Function.update_idem ..

/-! ## Walking round -/

variable {σ β : Type}

/-- **A loop over positions**, from `pos` and for `n` of them: the body changes
the state and brings out some values, or has no result. -/
def walk (body : ℕ → σ → Option (σ × List β)) : ℕ → ℕ → σ → Option (σ × List β)
  | 0, _, s => some (s, [])
  | n + 1, pos, s =>
    (body pos s).bind fun p => (walk body n (pos + 1) p.1).map fun r => (r.1, p.2 ++ r.2)

/-- **The rule of the loop**: where the body brings out the next of some values
and keeps an invariant of the position, the loop brings out all of them. -/
theorem walk_eq (body : ℕ → σ → Option (σ × List β)) (I : ℕ → σ → Prop) (xs : List β) (pos : ℕ)
    {s : σ} (hinit : I pos s)
    (hbody : ∀ i (h : i < xs.length) s, I (pos + i) s →
      ∃ s', body (pos + i) s = some (s', [xs[i]]) ∧ I (pos + i + 1) s') :
    ∃ s', walk body xs.length pos s = some (s', xs) ∧ I (pos + xs.length) s' := by
  induction xs generalizing pos s with
  | nil => exact ⟨s, rfl, hinit⟩
  | cons x xs ih =>
    obtain ⟨s₁, hfirst, hI⟩ := hbody 0 (Nat.succ_pos _) s hinit
    obtain ⟨s₂, hrest, hI'⟩ := ih (pos + 1) hI fun i hi s hs => by
      have hnext := hbody (i + 1) (Nat.succ_lt_succ hi) s
        (by rwa [← Nat.add_assoc, Nat.add_right_comm])
      rwa [← Nat.add_assoc, Nat.add_right_comm pos i 1] at hnext
    rw [Nat.add_zero] at hfirst
    refine ⟨s₂, by simp [walk, hfirst, hrest], ?_⟩
    rwa [List.length_cons, ← Nat.add_assoc, Nat.add_right_comm]

/-- **The buffer with a change made to the slots of a window** from `lo` up to a
position, and to no others. -/
structure ChangedTo (f : α → α) (buf : Fin (2 ^ pow) → α) (lo pos : ℕ)
    (buf' : Fin (2 ^ pow) → α) : Prop where
  changed : ∀ p, lo ≤ p → p < pos → get buf' p = f (get buf p)
  rest : ∀ p, pos ≤ p → p < lo + 2 ^ pow → get buf' p = get buf p

theorem ChangedTo.start (f : α → α) (buf : Fin (2 ^ pow) → α) (lo : ℕ) :
    ChangedTo f buf lo lo buf where
  changed _ hle hlt := absurd hlt (Nat.not_lt.mpr hle)
  rest _ _ _ := rfl

/-- The change of the slot of the next position. -/
theorem ChangedTo.step {f : α → α} {buf buf' : Fin (2 ^ pow) → α} {lo pos : ℕ}
    (h : ChangedTo f buf lo pos buf') (hpos : lo ≤ pos ∧ pos < lo + 2 ^ pow) :
    ChangedTo f buf lo (pos + 1) (set buf' pos (f (get buf pos))) where
  changed p hle hlt := by
    by_cases heq : p = pos
    · rw [heq, get_set_self]
    · rw [get_set_of_ne _ _ (mask_ne_of_window ⟨hle, by omega⟩ hpos heq)]
      exact h.changed p hle (by omega)
  rest p hle hlt := by
    rw [get_set_of_ne _ _ (mask_ne_of_window ⟨by omega, hlt⟩ hpos (by omega))]
    exact h.rest p (by omega) hlt

end Ring
