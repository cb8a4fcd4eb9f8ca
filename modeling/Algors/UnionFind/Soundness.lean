import Algors.UnionFind.Partition
import Mathlib.Algebra.Order.BigOperators.Group.Finset

/-!
# The entries of the array, and the depth of the trees

What the array says is stated here with no representatives: where the chain of
parents of an element ends, and with which entry. In every run no chain comes
back to where it was, and the entry at the end of a chain is the negated number
of the elements whose chains end there; so the sizes add up to the number of
elements, and the roots are counted by `num_sets`.

Union by size keeps the chains short: an element `d` links below its root is in
a set of at least `2 ^ d` elements. Flattening a path makes no chain longer.
-/

namespace UnionFind

open Forest Relation

/-- A link: the entry of an element is its parent. -/
def Link (data : List ℤ) (i p : ℕ) : Prop := data[i]? = some (p : ℤ)

open Classical in
/-- The elements whose chain of parents ends at `r`. -/
noncomputable def endingAt (data : List ℤ) (r : ℕ) : Finset ℕ :=
  {i ∈ Finset.range data.length | ∃ d, Reaches (parent data) i r d}

/-- The elements with a negative entry. -/
def negatives (data : List ℤ) : Finset ℕ := {i ∈ Finset.range data.length | data.getD i 0 < 0}

/-- **The entries of the array are sound.** -/
structure Sound (uf : UnionFind) : Prop where
  /-- An entry that is not negative is an index. -/
  inRange : ∀ i < uf.len, 0 ≤ uf.data.getD i 0 → uf.data.getD i 0 < uf.len
  /-- The links contain no cycle. -/
  acyclic : ∀ i, ¬ TransGen (Link uf.data) i i
  /-- A negative entry is the negated number of the chains that end there. -/
  size : ∀ r ∈ negatives uf.data, uf.data.getD r 0 = -((endingAt uf.data r).card : ℤ)
  sum : ∑ r ∈ negatives uf.data, (uf.data.getD r 0).natAbs = uf.len
  numSets : uf.num_sets = (negatives uf.data).card

/-- A chain of links is longer at its start. -/
theorem Reaches.of_transGen {data : List ℤ} {i p r n : ℕ} (h : TransGen (Link data) i p)
    (hn : Reaches (parent data) p r n) : ∃ m, n < m ∧ Reaches (parent data) i r m := by
  induction h using TransGen.head_induction_on with
  | single h => exact ⟨n + 1, Nat.lt_succ_self n, .step (parent_eq_some.mpr h) hn⟩
  | head h _ ih =>
    obtain ⟨m, hm, hreach⟩ := ih
    exact ⟨m + 1, hm.trans (Nat.lt_succ_self m), .step (parent_eq_some.mpr h) hreach⟩

namespace Inv

variable {uf : UnionFind} {rep : ℕ → ℕ} (h : Inv uf rep)

include h

theorem getD_eq {r : ℕ} (hr : r < uf.len) (hrep : rep r = r) :
    uf.data.getD r 0 = -((members uf.len rep r).card : ℤ) := by
  rw [List.getD_eq_getElem?_getD, h.size r hr hrep, Option.getD_some]

/-- The roots are the elements with a negative entry. -/
theorem negatives_eq : negatives uf.data = roots uf.len rep := by
  ext r
  simp only [negatives, Finset.mem_filter, Finset.mem_range, mem_roots]
  refine and_congr_right fun hr => ?_
  have hvalue : uf.data[r]? = some (uf.data.getD r 0) := by
    rw [List.getD_eq_getElem?_getD, List.getElem?_eq_getElem hr, Option.getD_some]
  rw [← parent_eq_none hvalue]
  exact ⟨h.rep_of_root hr, h.parent_of_rep hr⟩

/-- The members of a set are the elements whose chain ends at its root. -/
theorem endingAt_eq (r : ℕ) : endingAt uf.data r = members uf.len rep r := by
  ext i
  simp only [endingAt, Finset.mem_filter, Finset.mem_range, mem_members]
  refine and_congr_right fun hi => ?_
  obtain ⟨n, hn, _⟩ := h.reaches i hi
  constructor
  · rintro ⟨d, hd⟩
    exact (hn.unique hd).1
  · rintro rfl
    exact ⟨n, hn⟩

/-- **Every array that is a forest by its representatives is sound.** -/
theorem sound : Sound uf where
  inRange i hi hnonneg := by
    have hvalue : uf.data[i]? = some (uf.data.getD i 0) := by
      rw [List.getD_eq_getElem?_getD, List.getElem?_eq_getElem hi, Option.getD_some]
    have hlt := h.parent_lt i (uf.data.getD i 0).toNat
      (parent_eq_some.mpr (by rw [hvalue, Int.toNat_of_nonneg hnonneg]))
    omega
  acyclic i hcycle := by
    obtain ⟨p, hp, _⟩ := TransGen.head'_iff.mp hcycle
    have hi : i < uf.len := (List.getElem?_eq_some_iff.mp hp).1
    obtain ⟨n, hn, _⟩ := h.reaches i hi
    obtain ⟨m, hlt, hm⟩ := Reaches.of_transGen hcycle hn
    exact Nat.ne_of_lt hlt (hn.unique hm).2
  size r hr := by
    rw [h.negatives_eq, mem_roots] at hr
    rw [h.getD_eq hr.1 hr.2, h.endingAt_eq]
  sum := by
    rw [h.negatives_eq]
    have hmaps : ∀ i ∈ Finset.range uf.len, rep i ∈ roots uf.len rep := fun i hi => by
      have hlt := Finset.mem_range.mp hi
      exact mem_roots.mpr ⟨h.rep_lt hlt, h.rep_rep hlt⟩
    calc ∑ r ∈ roots uf.len rep, (uf.data.getD r 0).natAbs
        = ∑ r ∈ roots uf.len rep, (members uf.len rep r).card := by
          refine Finset.sum_congr rfl fun r hr => ?_
          obtain ⟨hlt, hrep⟩ := mem_roots.mp hr
          rw [h.getD_eq hlt hrep, Int.natAbs_neg, Int.natAbs_natCast]
      _ = (Finset.range uf.len).card := (Finset.card_eq_sum_card_fiberwise hmaps).symm
      _ = uf.len := Finset.card_range _
  numSets := by
    rw [h.negatives_eq]
    exact h.numSets

/-- **The depth of an element is at most the logarithm of its set's size.** -/
theorem depth_le {i r d : ℕ} (hi : i < uf.len) (hd : Reaches (parent uf.data) i r d) :
    ∃ uf' size, uf.sizeOf i = .ok (uf', size) ∧ 2 ^ d ≤ size ∧ d ≤ Nat.log 2 size := by
  obtain ⟨uf', hsize, _⟩ := h.sizeOf_eq hi
  obtain ⟨n, hn, hpow⟩ := h.reaches i hi
  obtain ⟨_, rfl⟩ := hn.unique hd
  exact ⟨uf', _, hsize, hpow, Nat.le_log_of_pow_le Nat.one_lt_two hpow⟩

end Inv

/-- **Every chain is short**: in every run, an element comes to the root that
`find` returns in some number `d` of links, in that number only, and `2 ^ d` is
at most what `size_of` returns. -/
theorem depth_le_of_reachable {start : Start} {s : State} (hs : (system start).Reachable s) {i : ℕ}
    (hi : i < s.uf.len) : ∃ root d, (∃ uf, s.uf.find i = .ok (uf, root))
      ∧ Reaches (parent s.uf.data) i root d
      ∧ (∀ r d', Reaches (parent s.uf.data) i r d' → d' = d)
      ∧ ∃ uf size, s.uf.sizeOf i = .ok (uf, size) ∧ 2 ^ d ≤ size ∧ d ≤ Nat.log 2 size := by
  obtain ⟨rep, h⟩ := represents_of_reachable hs
  obtain ⟨uf, hfind, _⟩ := h.inv.find_eq hi
  obtain ⟨d, hd, _⟩ := h.inv.reaches i hi
  refine ⟨rep i, d, ⟨uf, hfind⟩, hd, fun r d' hd' => (hd'.unique hd).2, h.inv.depth_le hi hd⟩

/-- Two sets of two elements each, united: the root of one is one link down, and
the element below it two. -/
theorem depth_le_of_reachable_two : ∃ root d, (∃ uf, find ⟨[1, -4, 3, 1], 1⟩ 2 = .ok (uf, root))
    ∧ Reaches (parent [1, -4, 3, 1]) 2 root d
    ∧ (∀ r d', Reaches (parent [1, -4, 3, 1]) 2 r d' → d' = d)
    ∧ ∃ uf size, sizeOf ⟨[1, -4, 3, 1], 1⟩ 2 = .ok (uf, size) ∧ 2 ^ d ≤ size ∧ d ≤ Nat.log 2 size :=
  @depth_le_of_reachable (.new 4) ⟨⟨[1, -4, 3, 1], 1⟩, [(2, 0), (2, 3), (0, 1)]⟩
    (@System.Reachable.of_run _ _ (system (.new 4)) _ [.union 0 1, .union 2 3, .union 2 0] rfl)
    2 (by decide)

end UnionFind
