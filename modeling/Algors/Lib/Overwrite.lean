import Mathlib.Data.List.Basic

/-!
# Writing runs into a list

A list that stands for an array of cells is written a run at a time: `overwrite`
puts a run at an offset, and `run` reads one. A run that was written is read
back, and one that lies apart from it is as it was; two runs written one behind
the other are one.
-/

variable {α : Type}

/-- The list with `ys` over what was there from `off` on. -/
def overwrite (xs : List α) (off : ℕ) (ys : List α) : List α :=
  xs.take off ++ ys ++ xs.drop (off + ys.length)

/-- The `n` elements from `off` on. -/
def run (xs : List α) (off n : ℕ) : List α := (xs.drop off).take n

section Overwrite

variable {xs ys zs : List α} {off off' n i : ℕ}

theorem length_overwrite (h : off + ys.length ≤ xs.length) :
    (overwrite xs off ys).length = xs.length := by
  simp only [overwrite, List.length_append, List.length_take, List.length_drop]
  omega

theorem length_run (h : off + n ≤ xs.length) : (run xs off n).length = n := by
  simp only [run, List.length_take, List.length_drop]
  omega

/-- An element after the write: one of the run, or the one there was. -/
theorem getElem?_overwrite (h : off + ys.length ≤ xs.length) :
    (overwrite xs off ys)[i]?
      = if off ≤ i ∧ i < off + ys.length then ys[i - off]? else xs[i]? := by
  have htake : (xs.take off).length = off := by
    rw [List.length_take]
    omega
  unfold overwrite
  rw [List.append_assoc]
  rcases Nat.lt_or_ge i off with hi | hi
  · rw [List.getElem?_append_left (by omega), List.getElem?_take_of_lt hi, if_neg (by omega)]
  · rw [List.getElem?_append_right (by omega), htake]
    by_cases hin : i < off + ys.length
    · rw [List.getElem?_append_left (by omega), if_pos ⟨hi, hin⟩]
    · rw [List.getElem?_append_right (by omega), List.getElem?_drop, if_neg (by omega)]
      congr 1
      omega

theorem getElem?_run : (run xs off n)[i]? = if i < n then xs[off + i]? else none := by
  unfold run
  split_ifs with hi
  · rw [List.getElem?_take_of_lt hi, List.getElem?_drop]
  · rw [List.getElem?_eq_none]
    rw [List.length_take]
    omega

/-- **What was written is read back.** -/
theorem run_overwrite_self (h : off + ys.length ≤ xs.length) :
    run (overwrite xs off ys) off ys.length = ys := by
  apply List.ext_getElem?
  intro i
  rw [getElem?_run, getElem?_overwrite h]
  split_ifs with hi hin
  · rw [Nat.add_sub_cancel_left]
  · omega
  · rw [List.getElem?_eq_none (Nat.le_of_not_lt hi)]

/-- **A run apart from what was written is as it was.** -/
theorem run_overwrite_of_apart (h : off + ys.length ≤ xs.length)
    (hapart : off' + n ≤ off ∨ off + ys.length ≤ off') :
    run (overwrite xs off ys) off' n = run xs off' n := by
  apply List.ext_getElem?
  intro i
  rw [getElem?_run, getElem?_run, getElem?_overwrite h]
  split_ifs with hi hin
  · omega
  · rfl
  · rfl

/-- Two runs, one behind the other. -/
theorem overwrite_append (h : off + ys.length + zs.length ≤ xs.length) :
    overwrite (overwrite xs off ys) (off + ys.length) zs = overwrite xs off (ys ++ zs) := by
  have hys : off + ys.length ≤ xs.length := by omega
  apply List.ext_getElem?
  intro i
  rw [getElem?_overwrite (by rw [length_overwrite hys]; exact h), getElem?_overwrite hys,
    getElem?_overwrite (by rw [List.length_append]; omega), List.length_append]
  split_ifs with hz hy hall hall
  · rw [List.getElem?_append_right (by omega)]
    congr 1
    omega
  · omega
  · rw [List.getElem?_append_left (by omega)]
  · omega
  · omega
  · rfl

/-- Nothing written. -/
theorem overwrite_nil : overwrite xs off [] = xs := by
  rw [overwrite, List.append_nil, List.length_nil, Nat.add_zero, List.take_append_drop]

/-- One element is a run. -/
theorem set_eq_overwrite {a : α} (h : off < xs.length) : xs.set off a = overwrite xs off [a] := by
  rw [overwrite, List.set_eq_take_append_cons_drop, if_pos h]
  simp

end Overwrite
