import Mathlib.Logic.Equiv.Basic
import Mathlib.Order.Defs.Unbundled
import Mathlib.Tactic

/-!
# The heap order of an implicit tree

A binary tree laid out in a row: the children of place `i` are the places
`2 * i + 1` and `2 * i + 2`. The row is a function on all places; a row that
ends is one whose places from some point on have an element above all others.

`Ordered` says that no element is above one of its children. Sifting restores
it from where it fails at one place only: `OrderedUp` lets it fail between a
place and its parent, `OrderedDown` between a place and its children, and a
swap moves the failure a place up, or down to the child that is least.
-/

namespace HeapOrder

variable {β : Type} {le : β → β → Prop} {g : ℕ → β} {i c : ℕ}

/-- The parent of a place. -/
def parent (i : ℕ) : ℕ := (i - 1) / 2

/-- A place below another. -/
def IsChild (c i : ℕ) : Prop := 0 < c ∧ parent c = i

theorem isChild_iff : IsChild c i ↔ c = 2 * i + 1 ∨ c = 2 * i + 2 := by
  unfold IsChild parent
  omega

theorem IsChild.lt (h : IsChild c i) : i < c := by
  rw [isChild_iff] at h
  omega

theorem parent_lt (h : 0 < i) : parent i < i := IsChild.lt ⟨h, rfl⟩

/-- **No element is above one of its children.** -/
def Ordered (le : β → β → Prop) (g : ℕ → β) : Prop := ∀ c, 0 < c → le (g (parent c)) (g c)

/-- Ordered but between `i` and its parent. -/
structure OrderedUp (le : β → β → Prop) (g : ℕ → β) (i : ℕ) : Prop where
  other : ∀ c, 0 < c → c ≠ i → le (g (parent c)) (g c)
  /-- The parent of `i` may take the place of `i`. -/
  above : 0 < i → ∀ c, IsChild c i → le (g (parent i)) (g c)

/-- Ordered but between `i` and its children. -/
structure OrderedDown (le : β → β → Prop) (g : ℕ → β) (i : ℕ) : Prop where
  other : ∀ c, 0 < c → parent c ≠ i → le (g (parent c)) (g c)
  /-- A child of `i` may take the place of `i`. -/
  above : 0 < i → ∀ c, IsChild c i → le (g (parent i)) (g c)

/-- **The root is least.** -/
theorem Ordered.root_le [Std.Refl le] [IsTrans β le] (h : Ordered le g) (i : ℕ) :
    le (g 0) (g i) := by
  induction i using Nat.strong_induction_on with
  | _ i ih =>
    rcases Nat.eq_zero_or_pos i with rfl | hpos
    · exact refl_of le _
    · exact trans_of le (ih (parent i) (parent_lt hpos)) (h i hpos)

/-- The failure is gone at the root, and where the parent is not above. -/
theorem OrderedUp.ordered (h : OrderedUp le g i) (hi : 0 < i → le (g (parent i)) (g i)) :
    Ordered le g := by
  intro c hc
  by_cases hci : c = i
  · subst hci
    exact hi hc
  · exact h.other c hc hci

/-- The failure is gone where no child is below. -/
theorem OrderedDown.ordered (h : OrderedDown le g i) (hi : ∀ c, IsChild c i → le (g i) (g c)) :
    Ordered le g := by
  intro c hc
  by_cases hci : parent c = i
  · have hle := hi c ⟨hc, hci⟩
    rwa [← hci] at hle
  · exact h.other c hc hci

/-- The row with two elements swapped. -/
def swapped (g : ℕ → β) (i j : ℕ) : ℕ → β := g ∘ Equiv.swap i j

theorem swapped_left (g : ℕ → β) (i j : ℕ) : swapped g i j i = g j :=
  congrArg g (Equiv.swap_apply_left i j)

theorem swapped_right (g : ℕ → β) (i j : ℕ) : swapped g i j j = g i :=
  congrArg g (Equiv.swap_apply_right i j)

theorem swapped_of_ne (g : ℕ → β) {i j k : ℕ} (hi : k ≠ i) (hj : k ≠ j) : swapped g i j k = g k :=
  congrArg g (Equiv.swap_apply_of_ne_of_ne hi hj)

variable [IsTrans β le]

/-- **Sifting up**: an element below its parent swaps places with it. -/
theorem OrderedUp.swap (h : OrderedUp le g i) (hi : 0 < i) (hle : le (g i) (g (parent i))) :
    OrderedUp le (swapped g i (parent i)) (parent i) := by
  have hlt := parent_lt hi
  -- the grandparent was not above the parent, nor is it above what came there
  have hgrand : 0 < parent i → le (g (parent (parent i))) (g (parent i)) := fun hp =>
    h.other (parent i) hp (by omega)
  constructor
  · intro c hc hne
    by_cases hci : c = i
    · subst hci
      rw [swapped_left, swapped_right]
      exact hle
    · rw [swapped_of_ne g hci hne]
      by_cases hpc : parent c = i
      · rw [hpc, swapped_left]
        exact h.above hi c ⟨hc, hpc⟩
      by_cases hpp : parent c = parent i
      · rw [hpp, swapped_right]
        have hsib := h.other c hc hci
        rw [hpp] at hsib
        exact trans_of le hle hsib
      · rw [swapped_of_ne g hpc hpp]
        exact h.other c hc hci
  · intro hp c hc
    have hlt' := parent_lt hp
    rw [swapped_of_ne g (by omega) (by omega)]
    by_cases hci : c = i
    · subst hci
      rw [swapped_left]
      exact hgrand hp
    · have hne : c ≠ parent i := hc.lt.ne'
      rw [swapped_of_ne g hci hne]
      have hsib := h.other c hc.1 hci
      rw [hc.2] at hsib
      exact trans_of le (hgrand hp) hsib

omit [IsTrans β le] in
/-- **Sifting down**: an element above its least child swaps places with it. -/
theorem OrderedDown.swap (h : OrderedDown le g i) (hc : IsChild c i)
    (hleast : ∀ c', IsChild c' i → le (g c) (g c')) (hle : le (g c) (g i)) :
    OrderedDown le (swapped g i c) c := by
  have hlt := hc.lt
  constructor
  · intro k hk hne
    by_cases hki : k = i
    · subst hki
      have hlt' := parent_lt hk
      rw [swapped_left, swapped_of_ne g (by omega) (by omega)]
      exact h.above hk c hc
    by_cases hkc : k = c
    · subst hkc
      rw [swapped_right, hc.2, swapped_left]
      exact hle
    · rw [swapped_of_ne g hki hkc]
      by_cases hpi : parent k = i
      · rw [hpi, swapped_left]
        exact hleast k ⟨hk, hpi⟩
      · rw [swapped_of_ne g hpi hne]
        exact h.other k hk hpi
  · intro _ k hk
    have hlt' := hk.lt
    rw [hc.2, swapped_left, swapped_of_ne g (by omega) (by omega)]
    have hkc := h.other k hk.1 (by rw [hk.2]; omega)
    rwa [hk.2] at hkc

end HeapOrder
