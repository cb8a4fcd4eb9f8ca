import Mathlib.Data.List.Basic
import Mathlib.Data.Nat.Count
import Mathlib.Order.Basic
import Mathlib.Tactic

/-!
# Lists sorted by a key, addressed by rank

A list whose elements have strictly increasing keys is a finite map from keys
to elements, stored compactly: the element with key `a` sits at the number of
elements with smaller keys, its **rank**. Reading, inserting, deleting and
replacing at the rank of `a` are the four operations of that map, and each
keeps the list sorted.

`count_eq_rank` counts the rank on the other side: a set of natural numbers
that are the keys of a sorted list has as many members below `a` as the list
has elements of smaller key. It is what lets a rank be computed by counting
bits.
-/

variable {α β : Type}

namespace List

section Rank

variable [LinearOrder α] (key : β → α)

/-- **The list is sorted by key**, strictly: no two elements share one. -/
def KeySorted (l : List β) : Prop := l.Pairwise (fun x y => key x < key y)

/-- How many elements have a key below `a`. -/
def rank (l : List β) (a : α) : ℕ := l.countP (fun x => decide (key x < a))

variable {key}

@[simp] theorem keySorted_nil : KeySorted key ([] : List β) := List.Pairwise.nil

theorem keySorted_cons {x : β} {l : List β} :
    KeySorted key (x :: l) ↔ (∀ y ∈ l, key x < key y) ∧ KeySorted key l :=
  List.pairwise_cons

@[simp] theorem rank_nil (a : α) : rank key ([] : List β) a = 0 := rfl

theorem rank_cons_of_lt {x : β} {l : List β} {a : α} (h : key x < a) :
    rank key (x :: l) a = rank key l a + 1 := by
  rw [rank, List.countP_cons_of_pos (by simpa using h)]
  rfl

/-- Nothing is below the key of the first element, or below anything not
above it. -/
theorem rank_eq_zero {x : β} {l : List β} {a : α} (hs : KeySorted key (x :: l))
    (h : ¬ key x < a) : rank key (x :: l) a = 0 := by
  refine List.countP_eq_zero.mpr fun y hy => ?_
  rw [decide_eq_true_eq]
  rcases List.mem_cons.mp hy with rfl | hy
  · exact h
  · exact fun hlt => h (((keySorted_cons.mp hs).1 y hy).trans hlt)

theorem rank_le_length (l : List β) (a : α) : rank key l a ≤ l.length :=
  List.countP_le_length

/-- **Two elements of one key are one element.** -/
theorem KeySorted.eq_of_key_eq {l : List β} (hs : KeySorted key l) {x y : β} (hx : x ∈ l)
    (hy : y ∈ l) (h : key x = key y) : x = y := by
  induction l with
  | nil => cases hx
  | cons z l ih =>
    obtain ⟨hz, hs⟩ := keySorted_cons.mp hs
    rcases List.mem_cons.mp hx with rfl | hx' <;> rcases List.mem_cons.mp hy with rfl | hy'
    · rfl
    · exact absurd h (hz y hy').ne
    · exact absurd h (hz x hx').ne'
    · exact ih hs hx' hy'

/-- **A sorted list is determined by its elements.** -/
theorem KeySorted.eq_of_mem_iff {l l' : List β} (hs : KeySorted key l) (hs' : KeySorted key l')
    (h : ∀ x, x ∈ l ↔ x ∈ l') : l = l' := by
  have hne : ∀ {x y : β}, key x < key y → x ≠ y := fun hlt heq => hlt.ne (congrArg key heq)
  have hperm : l.Perm l' :=
    (List.perm_ext_iff_of_nodup (hs.imp hne) (hs'.imp hne)).mpr h
  exact hperm.eq_of_pairwise (fun _ _ _ _ hxy hyx => absurd hyx hxy.asymm) hs hs'

/-- **An element sits at its rank.** -/
theorem KeySorted.getElem?_rank {l : List β} (hs : KeySorted key l) {x : β} (hx : x ∈ l) :
    l[rank key l (key x)]? = some x := by
  induction l with
  | nil => cases hx
  | cons z l ih =>
    rcases List.mem_cons.mp hx with rfl | hx'
    · rw [rank_eq_zero hs (lt_irrefl _)]
      rfl
    · obtain ⟨hz, hs⟩ := keySorted_cons.mp hs
      rw [rank_cons_of_lt (hz x hx'), List.getElem?_cons_succ]
      exact ih hs hx'

/-! ## Inserting at the rank of a new key -/

theorem mem_insertIdx_rank {l : List β} {x y : β} :
    y ∈ l.insertIdx (rank key l (key x)) x ↔ y = x ∨ y ∈ l :=
  List.mem_insertIdx (rank_le_length l _)

/-- **Inserting at the rank keeps the list sorted**, when the key is new. -/
theorem KeySorted.insertIdx_rank {l : List β} (hs : KeySorted key l) {x : β}
    (hx : ∀ y ∈ l, key y ≠ key x) : KeySorted key (l.insertIdx (rank key l (key x)) x) := by
  induction l with
  | nil => simp [KeySorted]
  | cons z l ih =>
    have hne := hx z List.mem_cons_self
    by_cases hlt : key z < key x
    · rw [rank_cons_of_lt hlt, List.insertIdx_succ_cons, keySorted_cons]
      refine ⟨fun y hy => ?_, ih (keySorted_cons.mp hs).2
        fun y hy => hx y (List.mem_cons_of_mem _ hy)⟩
      rcases mem_insertIdx_rank.mp hy with rfl | hy
      · exact hlt
      · exact (keySorted_cons.mp hs).1 y hy
    · have hgt : key x < key z := lt_of_le_of_ne (not_lt.mp hlt) (Ne.symm hne)
      rw [rank_eq_zero hs hlt, List.insertIdx_zero, keySorted_cons]
      refine ⟨fun y hy => ?_, hs⟩
      rcases List.mem_cons.mp hy with rfl | hy
      · exact hgt
      · exact hgt.trans ((keySorted_cons.mp hs).1 y hy)

/-! ## Deleting and replacing at the rank of a key that occurs -/

/-- **Deleting at the rank** deletes the element of that key and no other. -/
theorem KeySorted.mem_eraseIdx_rank {l : List β} (hs : KeySorted key l) {x y : β} (hx : x ∈ l) :
    y ∈ l.eraseIdx (rank key l (key x)) ↔ y ∈ l ∧ key y ≠ key x := by
  induction l with
  | nil => cases hx
  | cons z l ih =>
    obtain ⟨hz, hs'⟩ := keySorted_cons.mp hs
    rcases List.mem_cons.mp hx with rfl | hx'
    · rw [rank_eq_zero hs (lt_irrefl _), List.eraseIdx_zero, List.tail_cons]
      constructor
      · exact fun hy => ⟨List.mem_cons_of_mem _ hy, (hz y hy).ne'⟩
      · rintro ⟨hy, hne⟩
        exact (List.mem_cons.mp hy).resolve_left fun h => hne (by rw [h])
    · rw [rank_cons_of_lt (hz x hx'), List.eraseIdx_cons_succ, List.mem_cons, List.mem_cons,
        ih hs' hx']
      constructor
      · rintro (rfl | ⟨hy, hne⟩)
        · exact ⟨Or.inl rfl, (hz x hx').ne⟩
        · exact ⟨Or.inr hy, hne⟩
      · rintro ⟨rfl | hy, hne⟩
        · exact Or.inl rfl
        · exact Or.inr ⟨hy, hne⟩

theorem KeySorted.eraseIdx {l : List β} (hs : KeySorted key l) (i : ℕ) :
    KeySorted key (l.eraseIdx i) :=
  List.Pairwise.sublist (List.eraseIdx_sublist l i) hs

/-- **Replacing at the rank** by an element of the same key: the new element
is there, and every element of another key. -/
theorem KeySorted.mem_set_rank {l : List β} (hs : KeySorted key l) {x x' y : β} (hx : x ∈ l) :
    y ∈ l.set (rank key l (key x)) x' ↔ y = x' ∨ (y ∈ l ∧ key y ≠ key x) := by
  induction l with
  | nil => cases hx
  | cons z l ih =>
    obtain ⟨hz, hs'⟩ := keySorted_cons.mp hs
    rcases List.mem_cons.mp hx with rfl | hx'
    · rw [rank_eq_zero hs (lt_irrefl _), List.set_cons_zero, List.mem_cons]
      refine or_congr_right ⟨fun hy => ⟨List.mem_cons_of_mem _ hy, (hz y hy).ne'⟩, ?_⟩
      rintro ⟨hy, hne⟩
      exact (List.mem_cons.mp hy).resolve_left fun h => hne (by rw [h])
    · rw [rank_cons_of_lt (hz x hx'), List.set_cons_succ, List.mem_cons, ih hs' hx', List.mem_cons]
      constructor
      · rintro (rfl | rfl | ⟨hy, hne⟩)
        · exact Or.inr ⟨Or.inl rfl, (hz x hx').ne⟩
        · exact Or.inl rfl
        · exact Or.inr ⟨Or.inr hy, hne⟩
      · rintro (rfl | ⟨rfl | hy, hne⟩)
        · exact Or.inr (Or.inl rfl)
        · exact Or.inl rfl
        · exact Or.inr (Or.inr ⟨hy, hne⟩)

/-- The keys do not change when an element is replaced by one of its key. -/
theorem KeySorted.map_key_set_rank {l : List β} (hs : KeySorted key l) {x x' : β} (hx : x ∈ l)
    (hkey : key x' = key x) : (l.set (rank key l (key x)) x').map key = l.map key := by
  rw [List.map_set, hkey]
  refine List.ext_getElem? fun i => ?_
  rw [List.getElem?_set]
  split_ifs with hi hlt
  · rw [← hi, List.getElem?_map, hs.getElem?_rank hx, Option.map_some]
  · rw [← hi, List.getElem?_eq_none (Nat.le_of_not_lt hlt)]
  · rfl

theorem keySorted_iff_map {l : List β} : KeySorted key l ↔ (l.map key).Pairwise (· < ·) :=
  List.pairwise_map.symm

theorem KeySorted.set_rank {l : List β} (hs : KeySorted key l) {x x' : β} (hx : x ∈ l)
    (hkey : key x' = key x) : KeySorted key (l.set (rank key l (key x)) x') := by
  rw [keySorted_iff_map, hs.map_key_set_rank hx hkey, ← keySorted_iff_map]
  exact hs

/-! ## The map -/

/-- **The finite map a list stores**: the element of a key, where there is one. -/
def lookupKey (key : β → α) (l : List β) (a : α) : Option β :=
  l.find? fun x => decide (key x = a)

@[simp] theorem lookupKey_nil (a : α) : lookupKey key ([] : List β) a = none := rfl

theorem lookupKey_eq_none_iff {l : List β} {a : α} :
    lookupKey key l a = none ↔ ∀ x ∈ l, key x ≠ a := by
  simp [lookupKey]

theorem KeySorted.lookupKey_eq_some_iff {l : List β} (hs : KeySorted key l) {a : α} {x : β} :
    lookupKey key l a = some x ↔ x ∈ l ∧ key x = a := by
  constructor
  · intro h
    exact ⟨List.mem_of_find?_eq_some h, by simpa using List.find?_some h⟩
  · rintro ⟨hx, rfl⟩
    cases hfind : lookupKey key l (key x) with
    | none => exact absurd rfl (lookupKey_eq_none_iff.mp hfind x hx)
    | some y =>
      have hkey : key y = key x := by simpa using List.find?_some hfind
      rw [hs.eq_of_key_eq (List.mem_of_find?_eq_some hfind) hx hkey]

/-- Two sorted lists store one element, or none, under a key when they have the same
elements of that key. -/
theorem KeySorted.lookupKey_congr {l l' : List β} (hs : KeySorted key l) (hs' : KeySorted key l')
    {a : α} (h : ∀ x, key x = a → (x ∈ l' ↔ x ∈ l)) : lookupKey key l' a = lookupKey key l a := by
  refine Option.ext fun x => ?_
  rw [hs'.lookupKey_eq_some_iff, hs.lookupKey_eq_some_iff]
  exact and_congr_left (h x)

/-- **The others keep their order**, in sorted lists that differ under one key only. -/
theorem KeySorted.filter_ne_eq {l l' : List β} (hs : KeySorted key l) (hs' : KeySorted key l')
    {a : α} (h : ∀ x, key x ≠ a → (x ∈ l' ↔ x ∈ l)) :
    l'.filter (fun x => decide (key x ≠ a)) = l.filter (fun x => decide (key x ≠ a)) := by
  refine KeySorted.eq_of_mem_iff (hs'.filter _) (hs.filter _) fun x => ?_
  simp only [List.mem_filter, decide_eq_true_eq]
  exact and_congr_left (h x)

end Rank

/-- **A rank is a count**: the members below `a` of a set of numbers that are
the keys of a sorted list are as many as the elements of smaller key. -/
theorem KeySorted.count_eq_rank {key : β → ℕ} {l : List β} (hs : KeySorted key l) (p : ℕ → Prop)
    [DecidablePred p] (hp : ∀ i, p i ↔ ∃ x ∈ l, key x = i) (a : ℕ) :
    Nat.count p a = rank key l a := by
  have hnodup : (l.map key).Nodup := (keySorted_iff_map.mp hs).imp fun h => h.ne
  have hset : (Finset.range a).filter p
      = ((l.map key).filter (fun i => decide (i < a))).toFinset := by
    ext i
    simp only [Finset.mem_filter, Finset.mem_range, hp, List.mem_toFinset, List.mem_filter,
      List.mem_map, decide_eq_true_eq]
    exact and_comm
  rw [Nat.count_eq_card_filter_range, hset, List.toFinset_card_of_nodup (hnodup.filter _),
    ← List.countP_eq_length_filter, List.countP_map]
  rfl

/-- A sorted list of numbers below `n` has as many elements as its keys have
members below `n`. -/
theorem KeySorted.count_eq_length {key : β → ℕ} {l : List β} (hs : KeySorted key l)
    (p : ℕ → Prop) [DecidablePred p] (hp : ∀ i, p i ↔ ∃ x ∈ l, key x = i) {n : ℕ}
    (hn : ∀ x ∈ l, key x < n) : Nat.count p n = l.length := by
  rw [hs.count_eq_rank p hp]
  exact List.countP_eq_length.mpr fun x hx => decide_eq_true (hn x hx)

end List
