import Algors.Heap.Model
import Mathlib.Data.List.Perm.Basic

/-!
# Sifting restores the order of the heap

For a comparator that is a total preorder and nothing else. The vector is read
as a row of places, those past its end being above all elements; so the order
of the tree has no boundary, and a missing right child is no case of its own.
Each loop takes a row that is ordered but at one place to an ordered one, and
keeps the elements.
-/

namespace Heap

open HeapOrder

variable {T : Type} (cmp : T → T → Ordering)

/-! ## The order of the places -/

/-- **One place may be above another in the tree**: its element is not greater,
and a place with no element is above none. -/
def Before : Option T → Option T → Prop
  | some a, some b => cmp a b ≠ .gt
  | _, none => True
  | none, some _ => False

variable {cmp}

theorem before_none (a : Option T) : Before cmp a none := by cases a <;> trivial

section Preorder

variable [Std.TransCmp cmp]

instance : Std.Refl (Before cmp) where
  refl
    | some a => by simp [Before, Std.ReflCmp.compare_self]
    | none => trivial

instance : IsTrans (Option T) (Before cmp) where
  trans
    | _, _, none, _, _ => before_none _
    | some a, some b, some c, hab, hbc => by
      have hle : (cmp a c).isLE := Std.TransCmp.isLE_trans (Ordering.isLE_iff_ne_gt.mpr hab)
        (Ordering.isLE_iff_ne_gt.mpr hbc)
      exact Ordering.isLE_iff_ne_gt.mp hle

/-- What is not less may be below. -/
theorem before_of_ne_lt {a b : T} (h : cmp a b ≠ .lt) : Before cmp (some b) (some a) := by
  intro hgt
  have hswap : cmp a b = (cmp b a).swap := Std.OrientedCmp.eq_swap
  rw [hswap, hgt] at h
  exact h rfl

end Preorder

/-! ## The vector as a row of places -/

variable {h : Heap T Unit} {i j : ℕ} {a b : T}

/-- The places of the vector. -/
def row (self : Heap T Unit) (i : ℕ) : Option T := self.data[i]?

theorem exists_row (hi : i < h.len) : ∃ a, h.row i = some a :=
  ⟨_, List.getElem?_eq_getElem hi⟩

theorem lt_of_row (hi : h.row i = some a) : i < h.len := (List.getElem?_eq_some_iff.mp hi).1

theorem row_of_le (hi : h.len ≤ i) : h.row i = none := List.getElem?_eq_none hi

variable (cmp) in
/-- **The order of a heap.** -/
abbrev Ordered (self : Heap T Unit) : Prop := HeapOrder.Ordered (Before cmp) self.row

/-- A heap of at most one element is ordered. -/
theorem ordered_of_len_le_one (hlen : h.len ≤ 1) : h.Ordered cmp := fun c hc => by
  rw [row_of_le (show h.len ≤ c by omega)]
  exact before_none _

theorem compare_eq (ha : h.row i = some a) (hb : h.row j = some b) :
    h.compare (.pure cmp) i j = .ok (h, cmp a b) := by
  simp only [compare, show h.data[i]? = some a from ha, show h.data[j]? = some b from hb,
    Comparator.pure]

/-- **A swap** of two places. -/
theorem swap_eq (ha : h.row i = some a) (hb : h.row j = some b) : ∃ h', h.swap i j = .ok h'
    ∧ h'.len = h.len ∧ h'.data.Perm h.data ∧ h'.row = swapped h.row i j := by
  have hi : i < h.data.length := lt_of_row ha
  have hj : j < h.data.length := lt_of_row hb
  have ha' : h.data[i]? = some a := ha
  have hb' : h.data[j]? = some b := hb
  refine ⟨⟨(h.data.set i b).set j a, ()⟩, by simp only [swap, ha', hb'], by simp [len], ?_, ?_⟩
  · have hperm := List.set_set_perm hi hj
    rwa [(List.getElem?_eq_some_iff.mp ha').2, (List.getElem?_eq_some_iff.mp hb').2] at hperm
  · funext k
    by_cases hkj : k = j
    · subst hkj
      rw [swapped_right, row, List.getElem?_set_self (by rwa [List.length_set]), ha]
    by_cases hki : k = i
    · subst hki
      rw [swapped_left, row, List.getElem?_set_ne (Ne.symm hkj), List.getElem?_set_self hi, hb]
    · rw [swapped_of_ne _ hki hkj, row, List.getElem?_set_ne (Ne.symm hkj),
        List.getElem?_set_ne (Ne.symm hki), row]

/-! ## Sifting -/

section Sift

variable [Std.TransCmp cmp]

/-- **The loop of `sift_up`** orders a heap that is ordered but above `i`. -/
theorem siftUpLoop_spec {fuel : ℕ} (hi : i < h.len) (hup : OrderedUp (Before cmp) h.row i)
    (hfuel : i < fuel) : ∃ h', siftUpLoop (.pure cmp) fuel h i = .ok h' ∧ h'.data.Perm h.data
      ∧ h'.Ordered cmp := by
  induction fuel generalizing h i with
  | zero => omega
  | succ fuel ih =>
    by_cases hpos : i > 0
    · have hlt : parent i < i := parent_lt hpos
      obtain ⟨a, ha⟩ := exists_row hi
      obtain ⟨b, hb⟩ := exists_row (hlt.trans hi)
      by_cases hgt : cmp b a = .gt
      · obtain ⟨h₁, hswap, hlen, hperm, hrow⟩ := swap_eq ha hb
        have hle : Before cmp (h.row i) (h.row (parent i)) := by
          rw [ha, hb]
          exact before_of_ne_lt (by rw [hgt]; decide)
        have hup' : OrderedUp (Before cmp) h₁.row (parent i) := hrow ▸ hup.swap hpos hle
        obtain ⟨h', hloop, hperm', hord⟩ := ih (hlen.symm ▸ hlt.trans hi) hup' (by omega)
        refine ⟨h', ?_, hperm'.trans hperm, hord⟩
        simp only [siftUpLoop, if_pos hpos, compare_eq hb ha, ok_bind, hgt, hswap, hloop]
      · have hle : Before cmp (h.row (parent i)) (h.row i) := by
          rw [ha, hb]
          exact hgt
        refine ⟨h, ?_, .refl _, hup.ordered fun _ => hle⟩
        simp only [siftUpLoop, if_pos hpos, compare_eq hb ha, ok_bind]
        cases hord : cmp b a with
        | gt => exact absurd hord hgt
        | lt | eq => rfl
    · exact ⟨h, by rw [siftUpLoop, if_neg hpos], .refl _, hup.ordered fun h0 => absurd h0 hpos⟩

omit [Std.TransCmp cmp] in
theorem child_eq {c : ℕ} (hc : IsChild c i) : c = left i ∨ c = right i := by
  unfold left right
  rcases isChild_iff.mp hc with hc | hc <;> omega

omit [Std.TransCmp cmp] in
theorem isChild_left (i : ℕ) : IsChild (left i) i :=
  isChild_iff.mpr (Or.inl (by rw [left, Nat.mul_comm]))

omit [Std.TransCmp cmp] in
theorem isChild_right (i : ℕ) : IsChild (right i) i :=
  isChild_iff.mpr (Or.inr (by rw [right, Nat.mul_comm]))

/-- `sift_down` compares with a child that is least. -/
theorem smallerChild_spec (hleft : left i < h.len) : ∃ c, h.smallerChild (.pure cmp) i = .ok (h, c)
    ∧ c < h.len ∧ IsChild c i ∧ ∀ c', IsChild c' i → Before cmp (h.row c) (h.row c') := by
  obtain ⟨a, ha⟩ := exists_row hleft
  by_cases hright : right i < h.len
  · obtain ⟨b, hb⟩ := exists_row hright
    by_cases hlt : cmp b a = .lt
    · refine ⟨right i, ?_, hright, isChild_right i, fun c' hc' => ?_⟩
      · simp only [smallerChild, if_pos hright, compare_eq hb ha, ok_bind, hlt, if_true]
      · rcases child_eq hc' with rfl | rfl
        · rw [ha, hb]
          show cmp b a ≠ .gt
          rw [hlt]
          decide
        · exact refl_of (Before cmp) _
    · refine ⟨left i, ?_, hleft, isChild_left i, fun c' hc' => ?_⟩
      · simp only [smallerChild, if_pos hright, compare_eq hb ha, ok_bind, if_neg hlt]
      · rcases child_eq hc' with rfl | rfl
        · exact refl_of (Before cmp) _
        · rw [ha, hb]
          exact before_of_ne_lt hlt
  · refine ⟨left i, by rw [smallerChild, if_neg hright], hleft, isChild_left i, fun c' hc' => ?_⟩
    rcases child_eq hc' with rfl | rfl
    · exact refl_of (Before cmp) _
    · rw [row_of_le (Nat.le_of_not_lt hright)]
      exact before_none _

/-- **The loop of `sift_down`** orders a heap that is ordered but below `i`. -/
theorem siftDownLoop_spec {fuel : ℕ} (hi : i < h.len) (hdown : OrderedDown (Before cmp) h.row i)
    (hfuel : h.len - i < fuel) : ∃ h', siftDownLoop (.pure cmp) fuel h i = .ok h'
      ∧ h'.data.Perm h.data ∧ h'.Ordered cmp := by
  induction fuel generalizing h i with
  | zero => omega
  | succ fuel ih =>
    by_cases hleft : left i ≥ h.len
    · refine ⟨h, by rw [siftDownLoop, if_pos hi, if_pos hleft], .refl _,
        hdown.ordered fun c hc => ?_⟩
      have hge : h.len ≤ c := by
        unfold left at hleft
        rcases isChild_iff.mp hc with rfl | rfl <;> omega
      rw [row_of_le hge]
      exact before_none _
    · obtain ⟨c, hsmaller, hc, hchild, hleast⟩ :=
        @smallerChild_spec _ cmp _ _ _ (Nat.lt_of_not_le hleft)
      obtain ⟨a, ha⟩ := exists_row hi
      obtain ⟨b, hb⟩ := exists_row hc
      by_cases hgt : cmp a b = .gt
      · obtain ⟨h₁, hswap, hlen, hperm, hrow⟩ := swap_eq ha hb
        have hle : Before cmp (h.row c) (h.row i) := by
          rw [ha, hb]
          exact before_of_ne_lt (by rw [hgt]; decide)
        have hdown' : OrderedDown (Before cmp) h₁.row c := hrow ▸ hdown.swap hchild hleast hle
        have hlt := hchild.lt
        obtain ⟨h', hloop, hperm', hord⟩ := ih (hlen.symm ▸ hc) hdown' (by omega)
        refine ⟨h', ?_, hperm'.trans hperm, hord⟩
        simp only [siftDownLoop, if_pos hi, if_neg hleft, hsmaller, ok_bind, compare_eq ha hb, hgt,
          hswap, hloop]
      · have hle : Before cmp (h.row i) (h.row c) := by
          rw [ha, hb]
          exact hgt
        refine ⟨h, ?_, .refl _, hdown.ordered fun c' hc' =>
          trans_of (Before cmp) hle (hleast c' hc')⟩
        simp only [siftDownLoop, if_pos hi, if_neg hleft, hsmaller, ok_bind, compare_eq ha hb]
        cases hord : cmp a b with
        | gt => exact absurd hord hgt
        | lt | eq => rfl

end Sift

end Heap
