import Algors.Lib.Forest
import Algors.UnionFind.Model
import Mathlib.Data.Finset.Card
import Mathlib.Data.Finset.Range
import Mathlib.Data.Nat.Log
import Mathlib.Tactic.Ring

/-!
# The forest in the array

The array is a forest: `parent` reads it as one. `Inv` says that every element
comes to its representative, at a depth of no more than the logarithm of the
size of its set, and that the entry of a representative is the negated size of
its set; the representatives are a function `rep`, and the sets are the
elements with one representative.

The bound on the depth makes the loops end within as many rounds as there are
elements. It is kept by linking the root of the smaller set, and flattening a
path moves no element further down.
-/

namespace UnionFind

open Forest

/-- The parent of an element, if it has one. -/
def parent (data : List ℤ) (i : ℕ) : Option ℕ :=
  match data[i]? with
  | some value => if value ≥ 0 then some value.toNat else none
  | none => none

/-- The elements with a representative. -/
def members (len : ℕ) (rep : ℕ → ℕ) (r : ℕ) : Finset ℕ := {i ∈ Finset.range len | rep i = r}

/-- The representatives. -/
def roots (len : ℕ) (rep : ℕ → ℕ) : Finset ℕ := {r ∈ Finset.range len | rep r = r}

/-- **The array is a forest with these representatives.** -/
structure Inv (uf : UnionFind) (rep : ℕ → ℕ) : Prop where
  parent_lt : ∀ i p, parent uf.data i = some p → p < uf.len
  reaches : ∀ i < uf.len, ∃ n, Reaches (parent uf.data) i (rep i) n
    ∧ 2 ^ n ≤ (members uf.len rep (rep i)).card
  size : ∀ r < uf.len, rep r = r → uf.data[r]? = some (-((members uf.len rep r).card : ℤ))
  numSets : uf.numSets = (roots uf.len rep).card

/-! ## The array read as a forest

The entry of an element is its parent, or it is negative, and then the element is a
representative. Everything about paths is said with the function `rep`, so that flattening a
path, which keeps `rep`, keeps the sets. -/

theorem parent_eq_some {data : List ℤ} {i p : ℕ} :
    parent data i = some p ↔ data[i]? = some (p : ℤ) := by
  unfold parent
  cases data[i]? with
  | none => simp
  | some value =>
    by_cases h : value ≥ 0
    · simp only [h, if_true, Option.some.injEq]
      omega
    · simp only [h, if_false, Option.some.injEq, reduceCtorEq, false_iff]
      omega

theorem parent_eq_none {data : List ℤ} {i : ℕ} {value : ℤ} (h : data[i]? = some value) :
    parent data i = none ↔ value < 0 := by
  simp [parent, h]

/-- Setting an entry to an index gives the element a parent. -/
theorem parent_set {data : List ℤ} {c : ℕ} (hc : c < data.length) (r : ℕ) :
    parent (data.set c r) = Function.update (parent data) c (some r) := by
  funext i
  by_cases hi : i = c
  · subst hi
    simp [parent, hc]
  · rw [Function.update_of_ne hi, parent, parent, List.getElem?_set_ne (Ne.symm hi)]

/-- Setting the entry of a root to a size leaves it a root. -/
theorem parent_set_neg {data : List ℤ} {r : ℕ} (hr : parent data r = none) {value : ℤ}
    (hneg : value < 0) : parent (data.set r value) = parent data := by
  funext i
  by_cases hi : i = r
  · subst hi
    rw [hr]
    by_cases hlt : i < data.length
    · exact (parent_eq_none (by simp [hlt])).mpr hneg
    · simp [parent, hlt]
  · rw [parent, parent, List.getElem?_set_ne (Ne.symm hi)]

section Loops

variable {data : List ℤ} {i r n fuel : ℕ}

/-- In a forest with all parents in range, roots are in range. -/
theorem root_lt (h : Reaches (parent data) i r n)
    (hlt : ∀ i p, parent data i = some p → p < data.length) (hi : i < data.length) :
    r < data.length := by
  induction h with
  | root _ => exact hi
  | step hp _ ih => exact ih (hlt _ _ hp)

/-- **The first loop of `find` comes to the root.** -/
theorem rootLoop_eq (h : Reaches (parent data) i r n)
    (hlt : ∀ i p, parent data i = some p → p < data.length) (hi : i < data.length)
    (hfuel : n < fuel) : rootLoop data fuel i = .ok r := by
  induction h generalizing fuel with
  | @root r hroot =>
    obtain ⟨fuel, rfl⟩ : ∃ m, fuel = m + 1 := ⟨fuel - 1, by omega⟩
    have hvalue : data[r]? = some data[r] := List.getElem?_eq_getElem hi
    have hneg := (parent_eq_none hvalue).mp hroot
    simp only [rootLoop, Rust.index, hvalue, Rust.ok_bind]
    rw [if_neg (by omega)]
  | @step i p r n hp h ih =>
    obtain ⟨fuel, rfl⟩ : ∃ m, fuel = m + 1 := ⟨fuel - 1, by omega⟩
    simp only [rootLoop, Rust.index, parent_eq_some.mp hp, Rust.ok_bind]
    rw [if_pos (by omega), Int.toNat_natCast]
    exact ih (hlt _ _ hp) (by omega)

end Loops

namespace Inv

variable {uf : UnionFind} {rep : ℕ → ℕ} (h : Inv uf rep)

include h

theorem rep_lt {i : ℕ} (hi : i < uf.len) : rep i < uf.len := by
  obtain ⟨n, hn, _⟩ := h.reaches i hi
  exact root_lt hn h.parent_lt hi

theorem parent_rep {i : ℕ} (hi : i < uf.len) : parent uf.data (rep i) = none := by
  obtain ⟨n, hn, _⟩ := h.reaches i hi
  exact hn.parent_root

/-- What has no parent is its own representative. -/
theorem rep_of_root {r : ℕ} (hr : r < uf.len) (hroot : parent uf.data r = none) : rep r = r := by
  obtain ⟨n, hn, _⟩ := h.reaches r hr
  exact (hn.unique (.root hroot)).1

theorem rep_rep {i : ℕ} (hi : i < uf.len) : rep (rep i) = rep i :=
  h.rep_of_root (h.rep_lt hi) (h.parent_rep hi)

/-- What is its own representative has no parent. -/
theorem parent_of_rep {r : ℕ} (hr : r < uf.len) (hrep : rep r = r) :
    parent uf.data r = none := by
  have := h.parent_rep hr
  rwa [hrep] at this

/-- **An element comes to its representative in fewer links than there are
elements.** -/
theorem exists_depth {i : ℕ} (hi : i < uf.len) :
    ∃ n, Reaches (parent uf.data) i (rep i) n ∧ n < uf.len := by
  obtain ⟨n, hn, hpow⟩ := h.reaches i hi
  have hcard : (members uf.len rep (rep i)).card ≤ uf.len :=
    (Finset.card_filter_le _ _).trans (Finset.card_range _).le
  exact ⟨n, hn, (Nat.lt_two_pow_self.trans_le hpow).trans_le hcard⟩

/-- **An element becomes a child of its representative.** -/
theorem compress {c p : ℕ} (hc : c < uf.len) (hp : parent uf.data c = some p) :
    Inv ⟨uf.data.set c (rep c), uf.numSets⟩ rep := by
  have hset := parent_set hc (rep c)
  have hlen : len ⟨uf.data.set c (rep c), uf.numSets⟩ = uf.len := List.length_set ..
  obtain ⟨m, hm, _⟩ := h.reaches c hc
  refine ⟨fun i q hq => ?_, fun i hi => ?_, fun r hr hrep => ?_, ?_⟩
  · rw [hlen]
    rw [hset] at hq
    by_cases hi : i = c
    · subst hi
      rw [Function.update_self] at hq
      exact Option.some.inj hq ▸ h.rep_lt hc
    · rw [Function.update_of_ne hi] at hq
      exact h.parent_lt i q hq
  · rw [hlen] at hi ⊢
    obtain ⟨n, hn, hpow⟩ := h.reaches i hi
    obtain ⟨n', hle, hn'⟩ := hn.compress hm (hm.depth_ne_zero hp)
    refine ⟨n', ?_, (Nat.pow_le_pow_right (by omega) hle).trans hpow⟩
    show Reaches (parent (uf.data.set c (rep c))) i (rep i) n'
    rw [hset]
    exact hn'
  · rw [hlen] at hr ⊢
    have hrc : c ≠ r := by
      rintro rfl
      cases (h.parent_of_rep hr hrep).symm.trans hp
    show (uf.data.set c (rep c))[r]? = _
    rw [List.getElem?_set_ne hrc]
    exact h.size r hr hrep
  · rw [hlen]
    exact h.numSets

omit h in
/-- **The second loop of `find`** ends, and leaves the forest one with the same
representatives. -/
theorem flattenLoop {fuel : ℕ} {data : List ℤ} {numSets : ℕ} (h : Inv ⟨data, numSets⟩ rep)
    {cur r n : ℕ} (hcur : cur < data.length) (hr : rep cur = r)
    (hn : Reaches (parent data) cur r n) (hfuel : n < fuel) :
    ∃ data', UnionFind.flattenLoop r fuel data cur = .ok data'
      ∧ data'.length = data.length ∧ Inv ⟨data', numSets⟩ rep := by
  induction fuel generalizing data cur n with
  | zero => omega
  | succ fuel ih =>
    have hvalue : data[cur]? = some data[cur] := List.getElem?_eq_getElem hcur
    simp only [UnionFind.flattenLoop, Rust.index, hvalue, Rust.ok_bind]
    by_cases hneg : data[cur] ≥ 0
    · rw [if_pos hneg]
      have hp : parent data cur = some data[cur].toNat := by simp [parent, hvalue, hneg]
      have hlt : data[cur].toNat < data.length := h.parent_lt _ _ hp
      -- the rest of the way is shorter by one, and no longer after the change
      obtain ⟨m, hm, _⟩ := h.reaches _ hlt
      obtain ⟨hnext, hnm⟩ := hn.unique (.step hp hm)
      obtain ⟨m', hle, hm'⟩ := hm.compress hn (hn.depth_ne_zero hp)
      rw [← parent_set hcur, ← hnext] at hm'
      have hinv : Inv ⟨data.set cur (r : ℤ), numSets⟩ rep := hr ▸ h.compress hcur hp
      obtain ⟨data', hdata', hlen', hinv'⟩ :=
        ih hinv (by rwa [List.length_set]) hnext.symm hm' (by omega)
      exact ⟨data', hdata', hlen'.trans (List.length_set ..), hinv'⟩
    · rw [if_neg hneg]
      exact ⟨data, rfl, rfl, h⟩

/-- **`find` returns the representative**, and changes no representative. -/
theorem find_eq {i : ℕ} (hi : i < uf.len) : ∃ uf', uf.find i = .ok (uf', rep i)
    ∧ uf'.len = uf.len ∧ Inv uf' rep := by
  obtain ⟨n, hn, hlt⟩ := h.exists_depth hi
  have hfuel : n < uf.len + 1 := Nat.lt_succ_of_lt hlt
  obtain ⟨data', hdata', hlen, hinv⟩ := flattenLoop h hi rfl hn hfuel
  refine ⟨⟨data', uf.numSets⟩, ?_, hlen, hinv⟩
  simp only [find, rootLoop_eq hn h.parent_lt hi hfuel, Rust.ok_bind, hdata']

/-- `size_of` returns the size of the set. -/
theorem sizeOf_eq {i : ℕ} (hi : i < uf.len) :
    ∃ uf', uf.sizeOf i = .ok (uf', (members uf.len rep (rep i)).card) ∧ uf'.len = uf.len
      ∧ Inv uf' rep := by
  obtain ⟨uf', hfind, hlen, hinv⟩ := h.find_eq hi
  have hsize := hinv.size (rep i) (hlen ▸ h.rep_lt hi) (h.rep_rep hi)
  refine ⟨uf', ?_, hlen, hinv⟩
  simp only [sizeOf, hfind, Rust.ok_bind, Rust.index, hsize, hlen, Int.natAbs_neg,
    Int.natAbs_natCast]

end Inv

/-! ## Linking two sets

One root gets the other as its parent, and the sizes are added. Only the elements of the smaller
set are a level deeper after it, in a set that is at least twice as large as theirs was. -/

theorem mem_members {len : ℕ} {rep : ℕ → ℕ} {i r : ℕ} :
    i ∈ members len rep r ↔ i < len ∧ rep i = r := by
  simp [members]

theorem mem_roots {len : ℕ} {rep : ℕ → ℕ} {r : ℕ} : r ∈ roots len rep ↔ r < len ∧ rep r = r := by
  simp [roots]

/-- A representative is a member of its set. -/
theorem card_members_pos {len : ℕ} {rep : ℕ → ℕ} {r : ℕ} (hr : r < len) (hrep : rep r = r) :
    0 < (members len rep r).card :=
  Finset.card_pos.mpr ⟨r, mem_members.mpr ⟨hr, hrep⟩⟩

/-- The representatives after the set of `x` was put into that of `y`. -/
def redirect (rep : ℕ → ℕ) (x y : ℕ) (i : ℕ) : ℕ := if rep i = x then y else rep i

/-- The array with the root `x` below the root `y`, whose set is now of this
size. -/
def linked (data : List ℤ) (x y : ℕ) (size : ℤ) : List ℤ := (data.set y size).set x (y : ℤ)

section Link

variable {len : ℕ} {rep : ℕ → ℕ} {x y : ℕ}

/-- The members of the merged set. -/
theorem card_members_redirect_self (hne : x ≠ y) :
    (members len (redirect rep x y) y).card
      = (members len rep y).card + (members len rep x).card := by
  rw [← Finset.card_union_of_disjoint]
  · congr 1
    ext i
    simp only [mem_members, Finset.mem_union, redirect]
    split_ifs with h
    · simp [h, hne]
    · simp [h]
  · rw [Finset.disjoint_left]
    intro i hy hx
    exact hne ((mem_members.mp hx).2.symm.trans (mem_members.mp hy).2)

/-- The other sets. -/
theorem members_redirect_of_ne {r : ℕ} (hx : r ≠ x) (hy : r ≠ y) :
    members len (redirect rep x y) r = members len rep r := by
  ext i
  simp only [mem_members, redirect]
  split_ifs with h
  · simp [h, hx.symm, hy.symm]
  · rfl

/-- One representative less. -/
theorem roots_redirect (hx : rep x = x) (hy : rep y = y) (hne : x ≠ y) :
    roots len (redirect rep x y) = (roots len rep).erase x := by
  ext r
  simp only [mem_roots, Finset.mem_erase, redirect]
  split_ifs with h
  · constructor
    · rintro ⟨_, rfl⟩
      exact absurd (h.symm.trans hy) hne
    · rintro ⟨hrx, _, hr⟩
      exact absurd (hr.symm.trans h) hrx
  · constructor
    · rintro ⟨hlt, hr⟩
      refine ⟨?_, hlt, hr⟩
      rintro rfl
      exact h hx
    · exact And.right

/-- Two elements have one representative after the change when they had, or
one was in each of the two sets. -/
theorem redirect_eq_iff {i j : ℕ} :
    redirect rep x y i = redirect rep x y j ↔ rep i = rep j
      ∨ (rep i = x ∧ rep j = y) ∨ (rep i = y ∧ rep j = x) := by
  unfold redirect
  split_ifs with hi hj hj
  · simp [hi, hj]
  · constructor
    · exact fun h => Or.inr (Or.inl ⟨hi, h.symm⟩)
    · rintro (h | ⟨_, h⟩ | ⟨_, h⟩)
      · exact absurd (h.symm.trans hi) hj
      · exact h.symm
      · exact absurd h hj
  · constructor
    · exact fun h => Or.inr (Or.inr ⟨h, hj⟩)
    · rintro (h | ⟨h, _⟩ | ⟨h, _⟩)
      · exact absurd (h.trans hj) hi
      · exact absurd h hi
      · exact h
  · constructor
    · exact Or.inl
    · rintro (h | ⟨h, _⟩ | ⟨_, h⟩)
      · exact h
      · exact absurd h hi
      · exact absurd h hj

theorem length_linked {data : List ℤ} {size : ℤ} :
    (linked data x y size).length = data.length := by
  simp [linked]

theorem parent_linked {data : List ℤ} {size : ℤ} (hx : x < data.length)
    (hy : parent data y = none) (hneg : size < 0) :
    parent (linked data x y size) = Function.update (parent data) x (some y) := by
  rw [linked, parent_set (by rwa [List.length_set]), parent_set_neg hy hneg]

end Link

namespace Inv

variable {uf : UnionFind} {rep : ℕ → ℕ} (h : Inv uf rep)

include h

/-- There is a set to take off the count where there is an element. -/
theorem exists_numSets {r : ℕ} (hr : r < uf.len) (hrep : rep r = r) :
    ∃ n, uf.numSets = n + 1 := by
  have hpos : 0 < (roots uf.len rep).card := Finset.card_pos.mpr ⟨r, mem_roots.mpr ⟨hr, hrep⟩⟩
  rw [← h.numSets] at hpos
  exact Nat.exists_eq_succ_of_ne_zero hpos.ne'

/-- **Linking the root of the smaller set keeps the bound on the depth.** -/
theorem reaches_redirect {x y : ℕ} (hxlt : x < uf.len) (hylt : y < uf.len) (hx : rep x = x)
    (hy : rep y = y) (hne : x ≠ y)
    (hle : (members uf.len rep x).card ≤ (members uf.len rep y).card) {i : ℕ} (hi : i < uf.len) :
    ∃ n, Reaches (Function.update (parent uf.data) x (some y)) i (redirect rep x y i) n
      ∧ 2 ^ n ≤ (members uf.len (redirect rep x y) (redirect rep x y i)).card := by
  obtain ⟨n, hn, hpow⟩ := h.reaches i hi
  obtain ⟨hto, hoff⟩ := hn.link (h.parent_of_rep hxlt hx) (h.parent_of_rep hylt hy) hne
  by_cases hix : rep i = x
  · -- one link deeper, in a set at least twice as large
    rw [show redirect rep x y i = y from if_pos hix, card_members_redirect_self hne]
    rw [hix] at hpow
    exact ⟨n + 1, hto hix, by rw [pow_succ]; omega⟩
  · rw [show redirect rep x y i = rep i from if_neg hix]
    refine ⟨n, hoff hix, ?_⟩
    by_cases hiy : rep i = y
    · rw [hiy] at hpow ⊢
      rw [card_members_redirect_self hne]
      omega
    · rwa [members_redirect_of_ne hix hiy]

/-- The entries of the representatives that are left. -/
theorem size_redirect {x y : ℕ} (hylt : y < uf.len) (hx : rep x = x) (hy : rep y = y) (hne : x ≠ y)
    {r : ℕ} (hr : r < uf.len) (hrep : redirect rep x y r = r) :
    (linked uf.data x y
      (-((members uf.len rep y).card : ℤ) + -((members uf.len rep x).card : ℤ)))[r]?
        = some (-((members uf.len (redirect rep x y) r).card : ℤ)) := by
  have hmem : r ∈ (roots uf.len rep).erase x := by
    rw [← roots_redirect hx hy hne]
    exact mem_roots.mpr ⟨hr, hrep⟩
  obtain ⟨hrx, hroot⟩ := Finset.mem_erase.mp hmem
  rw [linked, List.getElem?_set_ne hrx.symm]
  by_cases hry : r = y
  · subst hry
    rw [card_members_redirect_self hne, List.getElem?_set_self hylt]
    congr 1
    push_cast
    ring
  · rw [List.getElem?_set_ne (Ne.symm hry), members_redirect_of_ne hrx hry]
    exact h.size r hr (mem_roots.mp hroot).2

/-- **The root of the smaller set becomes a child of the other root.** -/
theorem attach_eq {x y : ℕ} (hxlt : x < uf.len) (hylt : y < uf.len) (hx : rep x = x)
    (hy : rep y = y) (hne : x ≠ y)
    (hle : (members uf.len rep x).card ≤ (members uf.len rep y).card) :
    ∃ data numSets, attach uf.data x y = .ok data ∧ decrement uf.numSets = .ok numSets
      ∧ data.length = uf.len ∧ Inv ⟨data, numSets⟩ (redirect rep x y) := by
  have hposy := card_members_pos hylt hy
  obtain ⟨numSets, hnum⟩ := h.exists_numSets hxlt hx
  have hattach : attach uf.data x y = .ok (linked uf.data x y
      (-((members uf.len rep y).card : ℤ) + -((members uf.len rep x).card : ℤ))) := by
    simp [attach, linked, Rust.index, h.size x hxlt hx, h.size y hylt hy]
  refine ⟨_, numSets, hattach, by rw [hnum]; rfl, length_linked, ?_⟩
  have hneg : -((members uf.len rep y).card : ℤ) + -((members uf.len rep x).card : ℤ) < 0 := by
    omega
  have hparent := parent_linked hxlt (h.parent_of_rep hylt hy) hneg
  have hlen : len ⟨linked uf.data x y
      (-((members uf.len rep y).card : ℤ) + -((members uf.len rep x).card : ℤ)), numSets⟩
        = uf.len := length_linked
  refine ⟨fun i p hp => ?_, fun i hi => ?_, fun r hr hrep => ?_, ?_⟩
  · rw [hlen]
    rw [hparent] at hp
    by_cases hi : i = x
    · subst hi
      rw [Function.update_self] at hp
      exact Option.some.inj hp ▸ hylt
    · rw [Function.update_of_ne hi] at hp
      exact h.parent_lt i p hp
  · rw [hlen] at hi ⊢
    rw [hparent]
    exact h.reaches_redirect hxlt hylt hx hy hne hle hi
  · rw [hlen] at hr ⊢
    exact h.size_redirect hylt hx hy hne hr hrep
  · rw [hlen, roots_redirect hx hy hne, Finset.card_erase_of_mem (mem_roots.mpr ⟨hxlt, hx⟩),
      ← h.numSets, hnum]
    rfl

/-- **`union` of one set**: two calls of `find`. -/
theorem union_same {i j : ℕ} (hi : i < uf.len) (hj : j < uf.len) (hsame : rep j = rep i) :
    ∃ uf', uf.union i j = .ok (uf', false) ∧ uf'.len = uf.len ∧ Inv uf' rep := by
  obtain ⟨uf₁, hfind₁, hlen₁, hinv₁⟩ := h.find_eq hi
  obtain ⟨uf₂, hfind₂, hlen₂, hinv₂⟩ := hinv₁.find_eq (hlen₁.symm ▸ hj)
  refine ⟨uf₂, ?_, hlen₂.trans hlen₁, hinv₂⟩
  simp only [union, hfind₁, hfind₂, Rust.ok_bind, if_pos hsame]

/-- **`union` of two sets** puts the smaller one into the other, and that of `i`
into that of `j` when they are of one size. -/
theorem union_merged {i j : ℕ} (hi : i < uf.len) (hj : j < uf.len) (hne : rep j ≠ rep i) :
    ∃ uf', uf.union i j = .ok (uf', true) ∧ uf'.len = uf.len
      ∧ Inv uf' (if (members uf.len rep (rep j)).card < (members uf.len rep (rep i)).card
        then redirect rep (rep j) (rep i) else redirect rep (rep i) (rep j)) := by
  obtain ⟨uf₁, hfind₁, hlen₁, hinv₁⟩ := h.find_eq hi
  obtain ⟨uf₂, hfind₂, hlen₂, hinv₂⟩ := hinv₁.find_eq (hlen₁.symm ▸ hj)
  have hlen : uf₂.len = uf.len := hlen₂.trans hlen₁
  have hilt : rep i < uf₂.len := hlen ▸ h.rep_lt hi
  have hjlt : rep j < uf₂.len := hlen ▸ h.rep_lt hj
  have hsizei := hinv₂.size (rep i) hilt (h.rep_rep hi)
  have hsizej := hinv₂.size (rep j) hjlt (h.rep_rep hj)
  rw [← hlen]
  split_ifs with hlt
  · obtain ⟨data, numSets, hattach, hdec, hlen', hinv'⟩ := hinv₂.attach_eq hjlt hilt (h.rep_rep hj)
      (h.rep_rep hi) hne hlt.le
    refine ⟨⟨data, numSets⟩, ?_, hlen', hinv'⟩
    simp only [union, hfind₁, hfind₂, Rust.ok_bind, if_neg hne, Rust.index, hsizei, hsizej,
      if_neg (show ¬ -((members uf₂.len rep (rep j)).card : ℤ)
        ≤ -((members uf₂.len rep (rep i)).card : ℤ) by omega), hattach, hdec]
  · obtain ⟨data, numSets, hattach, hdec, hlen', hinv'⟩ := hinv₂.attach_eq hilt hjlt (h.rep_rep hi)
      (h.rep_rep hj) hne.symm (Nat.le_of_not_lt hlt)
    refine ⟨⟨data, numSets⟩, ?_, hlen', hinv'⟩
    simp only [union, hfind₁, hfind₂, Rust.ok_bind, if_neg hne, Rust.index, hsizei, hsizej,
      if_pos (show -((members uf₂.len rep (rep j)).card : ℤ)
        ≤ -((members uf₂.len rep (rep i)).card : ℤ) by omega), hattach, hdec]

/-- **`union` merges the two sets**, and tells whether they were two. -/
theorem union_eq {i j : ℕ} (hi : i < uf.len) (hj : j < uf.len) :
    ∃ uf' merged rep', uf.union i j = .ok (uf', merged) ∧ uf'.len = uf.len ∧ Inv uf' rep'
      ∧ (merged = true ↔ rep i ≠ rep j)
      ∧ ∀ a b, rep' a = rep' b ↔ rep a = rep b ∨ (rep a = rep i ∧ rep j = rep b)
        ∨ (rep a = rep j ∧ rep i = rep b) := by
  by_cases hsame : rep j = rep i
  · obtain ⟨uf', hunion, hlen, hinv⟩ := h.union_same hi hj hsame
    refine ⟨uf', false, rep, hunion, hlen, hinv, by simp [hsame], fun a b => ?_⟩
    rw [hsame]
    grind
  · obtain ⟨uf', hunion, hlen, hinv⟩ := h.union_merged hi hj hsame
    refine ⟨uf', true, _, hunion, hlen, hinv, by simpa using Ne.symm hsame, fun a b => ?_⟩
    split_ifs
    · rw [redirect_eq_iff]
      grind
    · rw [redirect_eq_iff]
      grind

end Inv

/-! ## New elements

A new element is its own representative, in a set of one. -/

/-- In a new structure every element is a set. -/
theorem inv_new (size : ℕ) : Inv (new size) id := by
  have hlen : (new size).len = size := List.length_replicate
  have hdata : ∀ r < size, (new size).data[r]? = some (-1) := fun r hr => by
    simp [new, hr]
  have hparent : ∀ i, parent (new size).data i = none := fun i => by
    by_cases hi : i < size
    · exact (parent_eq_none (hdata i hi)).mpr (by omega)
    · simp [parent, new, hi]
  have hmembers : ∀ r < size, members size id r = {r} := fun r hr => by
    ext i
    simp only [mem_members, Finset.mem_singleton, id]
    exact ⟨And.right, fun hi => ⟨hi ▸ hr, hi⟩⟩
  refine ⟨fun i p hp => ?_, fun i hi => ?_, fun r hr _ => ?_, ?_⟩
  · rw [hparent] at hp
    cases hp
  · rw [hlen] at hi ⊢
    refine ⟨0, .root (hparent i), ?_⟩
    rw [id, hmembers i hi]
    rfl
  · rw [hlen] at hr ⊢
    rw [hdata r hr, hmembers r hr]
    rfl
  · rw [hlen]
    simp [roots, new]

/-- A new entry of a root gives no element a parent. -/
theorem parent_append_root (data : List ℤ) : parent (data ++ [-1]) = parent data := by
  funext i
  rcases Nat.lt_trichotomy i data.length with hi | rfl | hi
  · rw [parent, parent, List.getElem?_append_left hi]
  · simp [parent]
  · rw [parent, parent, List.getElem?_eq_none hi.le,
      List.getElem?_eq_none (by rw [List.length_append]; exact hi)]

section New

variable {len : ℕ} {rep : ℕ → ℕ}

/-- The representatives with one element more, its own representative. -/
theorem update_of_lt {i : ℕ} (hi : i < len) : Function.update rep len len i = rep i :=
  Function.update_of_ne (Nat.ne_of_lt hi) ..

theorem members_update_of_lt {r : ℕ} (hr : r < len) :
    members (len + 1) (Function.update rep len len) r = members len rep r := by
  ext i
  simp only [mem_members]
  rcases Nat.lt_trichotomy i len with hi | rfl | hi
  · rw [update_of_lt hi]
    exact and_congr_left fun _ => iff_of_true (Nat.lt_succ_of_lt hi) hi
  · rw [Function.update_self]
    exact iff_of_false (fun hi => absurd hi.2 (Nat.ne_of_gt hr)) fun hi => absurd hi.1 (lt_irrefl _)
  · exact iff_of_false (fun h => by omega) fun h => by omega

/-- The new element is alone. -/
theorem members_update_self (hrep : ∀ i < len, rep i < len) :
    members (len + 1) (Function.update rep len len) len = {len} := by
  ext i
  simp only [mem_members, Finset.mem_singleton]
  constructor
  · rintro ⟨hi, heq⟩
    by_contra hne
    have hlt : i < len := by omega
    rw [update_of_lt hlt] at heq
    exact absurd (hrep i hlt) (by omega)
  · rintro rfl
    exact ⟨Nat.lt_succ_self _, Function.update_self ..⟩

/-- One representative more. -/
theorem roots_update :
    roots (len + 1) (Function.update rep len len) = insert len (roots len rep) := by
  ext r
  simp only [mem_roots, Finset.mem_insert]
  rcases Nat.lt_trichotomy r len with hr | rfl | hr
  · rw [update_of_lt hr]
    exact ⟨fun hr' => Or.inr ⟨hr, hr'.2⟩, fun hr' => by omega⟩
  · simp
  · exact iff_of_false (fun h => by omega) fun h => by omega

end New

/-- **`add` adds a set of one element.** -/
theorem Inv.add {uf : UnionFind} {rep : ℕ → ℕ} (h : Inv uf rep) :
    Inv uf.add.1 (Function.update rep uf.len uf.len) := by
  have hlen : uf.add.1.len = uf.len + 1 := by simp [UnionFind.add, len]
  have hparent : parent uf.add.1.data = parent uf.data := parent_append_root uf.data
  have hself := members_update_self fun i => h.rep_lt (i := i)
  refine ⟨fun i p hp => ?_, fun i hi => ?_, fun r hr hr' => ?_, ?_⟩
  · rw [hlen]
    rw [hparent] at hp
    exact Nat.lt_succ_of_lt (h.parent_lt i p hp)
  · rw [hlen] at hi ⊢
    rw [hparent]
    rcases Nat.lt_succ_iff_lt_or_eq.mp hi with hlt | rfl
    · obtain ⟨n, hn, hpow⟩ := h.reaches i hlt
      rw [update_of_lt hlt, members_update_of_lt (h.rep_lt hlt)]
      exact ⟨n, hn, hpow⟩
    · rw [Function.update_self, hself]
      exact ⟨0, .root (by simp [parent, len]), le_rfl⟩
  · rw [hlen] at hr ⊢
    rcases Nat.lt_succ_iff_lt_or_eq.mp hr with hlt | rfl
    · rw [members_update_of_lt hlt, UnionFind.add, List.getElem?_append_left hlt]
      exact h.size r hlt ((update_of_lt hlt).symm.trans hr')
    · rw [hself]
      simp [UnionFind.add, len]
  · have hnot : uf.len ∉ roots uf.len rep := fun hmem => lt_irrefl _ (mem_roots.mp hmem).1
    rw [hlen, roots_update, Finset.card_insert_of_notMem hnot, ← h.numSets]
    rfl

end UnionFind
