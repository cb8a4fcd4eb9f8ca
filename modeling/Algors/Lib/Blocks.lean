import Algors.Lib.Overwrite
import Mathlib.Logic.Function.Basic

/-!
# Blocks of cells

A memory in which an allocator has placed blocks, each at an address and with the
layout it was asked for with. A block is a list of cells, and a cell holds an element
or was never written. A pointer is the address of a block and an offset in it, counted
in cells.

The operations are `none` where they have no meaning: on a block that is not there,
past the end of one, on a cell that was never written, or with a layout that is not
the one of the block. So what returns has stayed inside the blocks.
-/

variable {A L α : Type}

/-- **A block**: the layout that it was allocated with, and its cells. -/
structure Block (L α : Type) where
  layout : L
  cells : List (Option α)
deriving DecidableEq

/-- The blocks at their addresses. -/
abbrev Blocks (A L α : Type) := A → Option (Block L α)

/-- **A pointer** to a cell of a block, or to the end of it. -/
structure Ptr (A : Type) where
  base : A
  off : ℕ
deriving DecidableEq

namespace Blocks

variable [DecidableEq A] (bs : Blocks A L α)

/-- The blocks with another one at `a`. -/
def place (a : A) (b : Block L α) : Blocks A L α := Function.update bs a (some b)

/-- A new block of `n` cells at `a`. -/
def allocate (a : A) (layout : L) (n : ℕ) : Blocks A L α :=
  bs.place a ⟨layout, List.replicate n none⟩

/-- Giving a block back, with the layout that it was allocated with. -/
def deallocate [DecidableEq L] (p : Ptr A) (layout : L) : Option (Blocks A L α) := do
  let b ← bs p.base
  if p.off = 0 ∧ b.layout = layout then some (Function.update bs p.base none) else none

omit [DecidableEq A] in
/-- The pointer `n` cells on, which stays in the block or at its end. -/
def add (p : Ptr A) (n : ℕ) : Option (Ptr A) := do
  let b ← bs p.base
  if p.off + n ≤ b.cells.length then some ⟨p.base, p.off + n⟩ else none

omit [DecidableEq A] in
/-- The element in a cell. -/
def read (p : Ptr A) : Option α := do
  let b ← bs p.base
  let cell ← b.cells[p.off]?
  cell

/-- Writing to a cell, whatever is in it. -/
def write (p : Ptr A) (x : α) : Option (Blocks A L α) := do
  let b ← bs p.base
  if p.off < b.cells.length then
    some (bs.place p.base { b with cells := b.cells.set p.off (some x) })
  else none

/-- Copying `n` cells, which may overlap. -/
def copy (src dst : Ptr A) (n : ℕ) : Option (Blocks A L α) := do
  let b ← bs src.base
  let b' ← bs dst.base
  if src.off + n ≤ b.cells.length ∧ dst.off + n ≤ b'.cells.length then
    some (bs.place dst.base
      { b' with cells := overwrite b'.cells dst.off (run b.cells src.off n) })
  else none

/-- Copying `n` cells, which must not overlap. -/
def copyNonoverlapping (src dst : Ptr A) (n : ℕ) : Option (Blocks A L α) :=
  if src.base = dst.base ∧ src.off < dst.off + n ∧ dst.off < src.off + n then none
  else bs.copy src dst n

/-! ## One block among others -/

variable {bs} {a a' : A} {b b' : Block L α} {i j n : ℕ}

@[simp] theorem place_self (a : A) (b : Block L α) : bs.place a b a = some b :=
  Function.update_self ..

theorem place_of_ne (h : a' ≠ a) (b : Block L α) : bs.place a b a' = bs a' :=
  Function.update_of_ne h ..

@[simp] theorem place_place (a : A) (b b' : Block L α) :
    (bs.place a b).place a b' = bs.place a b' :=
  Function.update_idem ..

omit [DecidableEq A] in
theorem add_eq_some (hb : bs a = some b) (h : i + n ≤ b.cells.length) :
    bs.add ⟨a, i⟩ n = some ⟨a, i + n⟩ := by
  rw [add, hb]
  exact if_pos h

theorem add_place (h : i + n ≤ b.cells.length) :
    (bs.place a b).add ⟨a, i⟩ n = some ⟨a, i + n⟩ := add_eq_some (place_self a b) h

theorem read_place {x : α} (h : b.cells[i]? = some (some x)) :
    (bs.place a b).read ⟨a, i⟩ = some x := by
  rw [read, place_self]
  exact congrArg (· >>= fun cell => cell) h

theorem write_place (h : i < b.cells.length) (x : α) :
    (bs.place a b).write ⟨a, i⟩ x
      = some (bs.place a { b with cells := b.cells.set i (some x) }) := by
  rw [write, place_self]
  exact (if_pos h).trans (congrArg some (place_place ..))

/-- Moving cells inside a block. -/
theorem copy_place (h : i + n ≤ b.cells.length) (h' : j + n ≤ b.cells.length) :
    (bs.place a b).copy ⟨a, i⟩ ⟨a, j⟩ n
      = some (bs.place a { b with cells := overwrite b.cells j (run b.cells i n) }) := by
  rw [copy, place_self]
  exact (if_pos ⟨h, h'⟩).trans (congrArg some (place_place ..))

/-- Copying cells to another block. -/
theorem copyNonoverlapping_place (hb : bs a = some b) (hne : a ≠ a') (h : i + n ≤ b.cells.length)
    (h' : j + n ≤ b'.cells.length) :
    (bs.place a' b').copyNonoverlapping ⟨a, i⟩ ⟨a', j⟩ n
      = some (bs.place a' { b' with cells := overwrite b'.cells j (run b.cells i n) }) := by
  have hb' : bs.place a' b' a = some b := (place_of_ne hne b').trans hb
  rw [copyNonoverlapping, if_neg fun hsame => hne hsame.1, copy, hb', place_self]
  exact (if_pos ⟨h, h'⟩).trans (congrArg some (place_place ..))

/-- Giving a block back that is not the last one placed. -/
theorem deallocate_place [DecidableEq L] (hfree : bs a = none) (hne : a ≠ a') :
    ((bs.place a b).place a' b').deallocate ⟨a, 0⟩ b.layout = some (bs.place a' b') := by
  have hb : (bs.place a b).place a' b' a = some b :=
    (place_of_ne hne b').trans (place_self a b)
  rw [deallocate, hb]
  refine (if_pos ⟨rfl, rfl⟩).trans (congrArg some (funext fun c => ?_))
  by_cases hc : c = a
  · subst hc
    rw [Function.update_self, place_of_ne hne, hfree]
  · rw [Function.update_of_ne hc]
    by_cases hc' : c = a'
    · subst hc'
      rw [place_self, place_self]
    · rw [place_of_ne hc', place_of_ne hc', place_of_ne hc]

end Blocks

/-! ## Elements in the first cells -/

/-- **The first cells hold the elements of a list**; what is in the others is left open. -/
def Filled (cells : List (Option α)) (xs : List α) : Prop :=
  ∀ (j : ℕ) (x : α), xs[j]? = some x → cells[j]? = some (some x)

namespace Filled

variable {cells new : List (Option α)} {xs : List α} {i n : ℕ} {x : α}

theorem length_le (h : Filled cells xs) : xs.length ≤ cells.length := by
  by_contra hlt
  have hin : xs[cells.length]? = some xs[cells.length] := List.getElem?_eq_getElem (by omega)
  have hout := h _ _ hin
  rw [List.getElem?_eq_none (Nat.le_refl _)] at hout
  cases hout

/-- Room for one more, in the middle. -/
theorem insertIdx (h : Filled cells xs) (hi : i ≤ xs.length) (hbelow : ∀ j < i, new[j]? = cells[j]?)
    (hat : new[i]? = some (some x))
    (habove : ∀ j, i < j → j ≤ xs.length → new[j]? = cells[j - 1]?) :
    Filled new (xs.insertIdx i x) := by
  intro j y hj
  rw [List.getElem?_insertIdx] at hj
  split_ifs at hj with hlt heq
  · rw [hbelow j hlt]
    exact h j y hj
  · obtain rfl := Option.some.inj hj
    exact heq ▸ hat
  · have hle : j - 1 < xs.length := (List.getElem?_eq_some_iff.mp hj).1
    rw [habove j (by omega) (by omega)]
    exact h (j - 1) y hj

/-- One less, from the middle. -/
theorem eraseIdx (h : Filled cells xs) (hbelow : ∀ j < i, new[j]? = cells[j]?)
    (habove : ∀ j, i ≤ j → j + 1 < xs.length → new[j]? = cells[j + 1]?) :
    Filled new (xs.eraseIdx i) := by
  intro j y hj
  rw [List.getElem?_eraseIdx] at hj
  split_ifs at hj with hlt
  · rw [hbelow j hlt]
    exact h j y hj
  · rw [habove j (by omega) (List.getElem?_eq_some_iff.mp hj).1]
    exact h (j + 1) y hj

/-- **Making room in place**: the elements from `i` on move up by one. -/
theorem shift_up (h : Filled cells xs) (hi : i ≤ xs.length) (hlen : xs.length < cells.length) :
    Filled ((overwrite cells (i + 1) (run cells i (xs.length - i))).set i (some x))
      (xs.insertIdx i x) := by
  have hrun : (run cells i (xs.length - i)).length = xs.length - i := length_run (by omega)
  have hfits : i + 1 + (run cells i (xs.length - i)).length ≤ cells.length := by omega
  refine h.insertIdx hi (fun j hj => ?_) ?_ fun j hj hle => ?_
  · rw [List.getElem?_set_ne (by omega), getElem?_overwrite hfits, if_neg (by omega)]
  · rw [List.getElem?_set_self (by rw [length_overwrite hfits]; omega)]
  · rw [List.getElem?_set_ne (by omega), getElem?_overwrite hfits, if_pos (by omega),
      getElem?_run, if_pos (by omega)]
    congr 1
    omega

/-- Copying around a gap keeps to the new block. -/
theorem length_copy_apart (hi : i ≤ n) (hlen : n = cells.length) (hroom : n < new.length) :
    (overwrite (overwrite new 0 (run cells 0 i)) (i + 1) (run cells i (n - i))).length
      = new.length := by
  have hlow : (run cells 0 i).length = i := length_run (by omega)
  have hhigh : (run cells i (n - i)).length = n - i := length_run (by omega)
  have hover : (overwrite new 0 (run cells 0 i)).length = new.length := length_overwrite (by omega)
  exact (length_overwrite (by omega)).trans hover

/-- **Making room in a larger block**: the elements below `i` and those from `i` on are
copied, with a gap between them. -/
theorem copy_apart (h : Filled cells xs) (hi : i ≤ xs.length) (hlen : xs.length = cells.length)
    (hroom : xs.length < new.length) :
    Filled ((overwrite (overwrite new 0 (run cells 0 i)) (i + 1)
      (run cells i (xs.length - i))).set i (some x)) (xs.insertIdx i x) := by
  have hlow : (run cells 0 i).length = i := length_run (by omega)
  have hhigh : (run cells i (xs.length - i)).length = xs.length - i := length_run (by omega)
  have hover : (overwrite new 0 (run cells 0 i)).length = new.length := length_overwrite (by omega)
  refine h.insertIdx hi (fun j hj => ?_) ?_ fun j hj hle => ?_
  · rw [List.getElem?_set_ne (by omega), getElem?_overwrite (by omega), if_neg (by omega),
      getElem?_overwrite (by omega), if_pos (by omega), getElem?_run, if_pos (by omega)]
    congr 1
    omega
  · rw [List.getElem?_set_self (by rw [length_copy_apart hi hlen hroom]; omega)]
  · rw [List.getElem?_set_ne (by omega), getElem?_overwrite (by omega), if_pos (by omega),
      getElem?_run, if_pos (by omega)]
    congr 1
    omega

/-- **Closing a gap**: the elements past `i` move down by one. -/
theorem shift_down (h : Filled cells xs) (hi : i < xs.length) :
    Filled (overwrite cells i (run cells (i + 1) (xs.length - i - 1))) (xs.eraseIdx i) := by
  have hle := h.length_le
  have hrun : (run cells (i + 1) (xs.length - i - 1)).length = xs.length - i - 1 :=
    length_run (by omega)
  have hfits : i + (run cells (i + 1) (xs.length - i - 1)).length ≤ cells.length := by omega
  refine h.eraseIdx (fun j hj => ?_) fun j hj hlt => ?_
  · rw [getElem?_overwrite hfits, if_neg (by omega)]
  · rw [getElem?_overwrite hfits, if_pos (by omega), getElem?_run, if_pos (by omega)]
    congr 1
    omega

/-- Another element in the place of one. -/
theorem set (h : Filled cells xs) (hi : i < xs.length) :
    Filled (cells.set i (some x)) (xs.set i x) := by
  have hle := h.length_le
  intro j y hj
  rw [List.getElem?_set] at hj ⊢
  split_ifs at hj ⊢
  · exact congrArg some hj
  · omega
  · exact h j y hj

end Filled
