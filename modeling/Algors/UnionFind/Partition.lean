import Algors.UnionFind.Invariant

/-!
# The structure is the equivalence closure of what was united

The classes are those of the equivalence closure of the pairs united so far.
In every state of every run the structure answers as they do: `find` with a
member of the class, the same for all its members, `union` by whether the
classes were two, `size_of` and `num_sets` with cardinalities; and every call
on indices in range returns. What a call does to the classes is what one pair
more does to the closure, and one element more to its domain.
-/

namespace UnionFind

open Relation

/-- **Two elements are in one class** of the closure of the pairs. -/
def SameSet (pairs : List (ℕ × ℕ)) : ℕ → ℕ → Prop := EqvGen fun x y => (x, y) ∈ pairs

open Classical in
/-- The class of an element, among the elements there are. -/
noncomputable def cls (pairs : List (ℕ × ℕ)) (len a : ℕ) : Finset ℕ :=
  {b ∈ Finset.range len | SameSet pairs a b}

/-- The classes. -/
noncomputable def classes (pairs : List (ℕ × ℕ)) (len : ℕ) : Finset (Finset ℕ) :=
  (Finset.range len).image (cls pairs len)

/-- **The structure stands for the closure of the pairs**, by these
representatives. -/
structure Represents (s : State) (rep : ℕ → ℕ) : Prop where
  inv : Inv s.uf rep
  same : ∀ a < s.uf.len, ∀ b < s.uf.len, rep a = rep b ↔ SameSet s.pairs a b
  inRange : ∀ a b, (a, b) ∈ s.pairs → a < s.uf.len ∧ b < s.uf.len

/-- One pair more: the classes of its two members become one. -/
def Merged (same : ℕ → ℕ → Prop) (a b x y : ℕ) : Prop :=
  same x y ∨ (same x a ∧ same b y) ∨ (same x b ∧ same a y)

/-- **`find` tells elements apart as a relation does**: it comes from each
element to a member of its class, from all of the class to the same one, and
also when it is called again after it changed the structure. -/
def FindsLike (uf : UnionFind) (same : ℕ → ℕ → Prop) : Prop :=
  ∃ root : ℕ → ℕ,
    (∀ a < uf.len, ∃ uf', uf.find a = .ok (uf', root a)
      ∧ ∀ b < uf.len, ∃ uf'', uf'.find b = .ok (uf'', root b))
    ∧ (∀ a < uf.len, root a < uf.len ∧ same a (root a))
    ∧ ∀ a < uf.len, ∀ b < uf.len, root a = root b ↔ same a b

/-- **The answers of the structure are those of the closure of the pairs.** -/
structure Answers (s : State) : Prop where
  find : FindsLike s.uf (SameSet s.pairs)
  /-- `union` tells whether the classes were two, and merges these. -/
  union : ∀ a < s.uf.len, ∀ b < s.uf.len, ∃ uf merged, s.uf.union a b = .ok (uf, merged)
    ∧ (merged = true ↔ ¬ SameSet s.pairs a b) ∧ uf.len = s.uf.len
    ∧ FindsLike uf (Merged (SameSet s.pairs) a b)
  sizeOf : ∀ a < s.uf.len, ∃ uf, s.uf.sizeOf a = .ok (uf, (cls s.pairs s.uf.len a).card)
  numSets : s.uf.num_sets = (classes s.pairs s.uf.len).card
  /-- `add` returns a class of its own, and changes no other. -/
  add : s.uf.add.2 = s.uf.len ∧ s.uf.add.1.len = s.uf.len + 1
    ∧ FindsLike s.uf.add.1 (SameSet s.pairs)
    ∧ cls s.pairs (s.uf.len + 1) s.uf.len = {s.uf.len}
    ∧ ∀ a < s.uf.len, cls s.pairs (s.uf.len + 1) a = cls s.pairs s.uf.len a

/-- Classes are symmetric. -/
theorem sameSet_comm {pairs : List (ℕ × ℕ)} {a b : ℕ} : SameSet pairs a b ↔ SameSet pairs b a :=
  ⟨EqvGen.symm _ _, EqvGen.symm _ _⟩

/-- What one pair more does to the closure. -/
theorem sameSet_cons {pairs : List (ℕ × ℕ)} {i j a b : ℕ} :
    SameSet ((i, j) :: pairs) a b ↔ Merged (SameSet pairs) i j a b := by
  unfold SameSet Merged
  rw [← Forest.eqvGen_insert_iff]
  have hrel : (fun x y => (x, y) ∈ (i, j) :: pairs)
      = fun x y => (x = i ∧ y = j) ∨ (x, y) ∈ pairs := by
    funext x y
    simp
  rw [hrel]

namespace Represents

variable {s : State} {rep : ℕ → ℕ} (h : Represents s rep)

include h

/-- The new element is in no pair. -/
theorem sameSet_len {a : ℕ} : SameSet s.pairs a s.uf.len ↔ a = s.uf.len := by
  constructor
  · refine Forest.eqvGen_fresh fun x y hxy => ?_
    obtain ⟨hx, hy⟩ := h.inRange x y hxy
    exact ⟨Nat.ne_of_lt hx, Nat.ne_of_lt hy⟩
  · rintro rfl
    exact .refl _

/-- A class is the members of a representative. -/
theorem cls_eq {a : ℕ} (ha : a < s.uf.len) :
    cls s.pairs s.uf.len a = members s.uf.len rep (rep a) := by
  ext b
  simp only [cls, Finset.mem_filter, Finset.mem_range, mem_members]
  refine and_congr_right fun hb => ?_
  rw [← h.same a ha b hb]
  exact eq_comm

/-- There are as many classes as representatives. -/
theorem card_classes : (classes s.pairs s.uf.len).card = s.uf.numSets := by
  have himage : classes s.pairs s.uf.len
      = (roots s.uf.len rep).image (members s.uf.len rep) := by
    ext c
    simp only [classes, Finset.mem_image, Finset.mem_range, mem_roots]
    constructor
    · rintro ⟨a, ha, rfl⟩
      exact ⟨rep a, ⟨h.inv.rep_lt ha, h.inv.rep_rep ha⟩, (h.cls_eq ha).symm⟩
    · rintro ⟨r, ⟨hr, hrep⟩, rfl⟩
      exact ⟨r, hr, by rw [h.cls_eq hr, hrep]⟩
  rw [himage, h.inv.numSets, Finset.card_image_of_injOn]
  intro r hr r' hr' heq
  obtain ⟨hlt, hrep⟩ := mem_roots.mp hr
  have hmem : r ∈ members s.uf.len rep r' := by
    rw [← show members s.uf.len rep r = members s.uf.len rep r' from heq]
    exact mem_members.mpr ⟨hlt, hrep⟩
  exact hrep.symm.trans (mem_members.mp hmem).2

/-- A call that keeps the representatives keeps what the structure stands for. -/
theorem of_inv {uf : UnionFind} (hlen : uf.len = s.uf.len) (hinv : Inv uf rep) :
    Represents ⟨uf, s.pairs⟩ rep where
  inv := hinv
  same a ha b hb := h.same a (hlen ▸ ha) b (hlen ▸ hb)
  inRange a b hab := ⟨hlen.symm ▸ (h.inRange a b hab).1, hlen.symm ▸ (h.inRange a b hab).2⟩

/-- **After `add`** the structure stands for the same pairs, the new element
being its own representative. -/
theorem add : Represents ⟨s.uf.add.1, s.pairs⟩ (Function.update rep s.uf.len s.uf.len) := by
  have hlen : s.uf.add.1.len = s.uf.len + 1 := by simp [UnionFind.add, len]
  refine ⟨h.inv.add, fun a ha b hb => ?_, fun a b hab => ?_⟩
  · replace ha : a < s.uf.len + 1 := hlen ▸ ha
    replace hb : b < s.uf.len + 1 := hlen ▸ hb
    show _ ↔ SameSet s.pairs a b
    rcases Nat.lt_succ_iff_lt_or_eq.mp ha with ha | rfl <;>
      rcases Nat.lt_succ_iff_lt_or_eq.mp hb with hb | rfl
    · rw [update_of_lt ha, update_of_lt hb]
      exact h.same a ha b hb
    · rw [update_of_lt ha, Function.update_self, h.sameSet_len]
      exact iff_of_false (Nat.ne_of_lt (h.inv.rep_lt ha)) (Nat.ne_of_lt ha)
    · rw [update_of_lt hb, Function.update_self, sameSet_comm, h.sameSet_len]
      exact iff_of_false (Nat.ne_of_gt (h.inv.rep_lt hb)) (Nat.ne_of_lt hb)
    · exact iff_of_true rfl (.refl _)
  · obtain ⟨ha, hb⟩ := h.inRange a b hab
    show a < s.uf.add.1.len ∧ b < s.uf.add.1.len
    omega

/-- **After `union`** the structure stands for one pair more. -/
theorem union {i j : ℕ} (hi : i < s.uf.len) (hj : j < s.uf.len) :
    ∃ uf merged rep', s.uf.union i j = .ok (uf, merged) ∧ (merged = true ↔ ¬ SameSet s.pairs i j)
      ∧ uf.len = s.uf.len ∧ Represents ⟨uf, (i, j) :: s.pairs⟩ rep' := by
  obtain ⟨uf, merged, rep', hunion, hlen, hinv, hmerged, hrep'⟩ := h.inv.union_eq hi hj
  refine ⟨uf, merged, rep', hunion, ?_, hlen, hinv, fun a ha b hb => ?_, fun a b hab => ?_⟩
  · rw [hmerged, ← h.same i hi j hj]
  · replace ha : a < s.uf.len := hlen ▸ ha
    replace hb : b < s.uf.len := hlen ▸ hb
    show rep' a = rep' b ↔ SameSet ((i, j) :: s.pairs) a b
    rw [hrep', sameSet_cons, Merged, ← h.same a ha b hb, ← h.same a ha i hi,
      ← h.same j hj b hb, ← h.same a ha j hj, ← h.same i hi b hb]
  · show a < uf.len ∧ b < uf.len
    rw [hlen]
    rcases List.mem_cons.mp hab with heq | hab
    · obtain ⟨rfl, rfl⟩ := Prod.mk.inj heq
      exact ⟨hi, hj⟩
    · exact h.inRange a b hab

/-- **A call keeps the structure what it stands for.** -/
theorem apply {op : Op} (hop : op.InRange s.uf.len) {uf : UnionFind}
    (happly : s.uf.apply op = .ok uf) :
    ∃ rep', Represents ⟨uf, op.pairs ++ s.pairs⟩ rep' := by
  cases op with
  | add =>
    obtain rfl := Except.ok.inj happly
    exact ⟨_, h.add⟩
  | find i =>
    obtain ⟨uf', hfind, hlen, hinv⟩ := h.inv.find_eq hop
    simp only [UnionFind.apply, hfind] at happly
    obtain rfl := Except.ok.inj happly
    exact ⟨rep, h.of_inv hlen hinv⟩
  | sizeOf i =>
    obtain ⟨uf', hsize, hlen, hinv⟩ := h.inv.sizeOf_eq hop
    simp only [UnionFind.apply, hsize] at happly
    obtain rfl := Except.ok.inj happly
    exact ⟨rep, h.of_inv hlen hinv⟩
  | union i j =>
    obtain ⟨uf', merged, rep', hunion, _, _, hrep'⟩ := h.union hop.1 hop.2
    simp only [UnionFind.apply, hunion] at happly
    obtain rfl := Except.ok.inj happly
    exact ⟨rep', hrep'⟩

/-- `find` comes to the representative, also after another `find`. -/
theorem findsLike : FindsLike s.uf (SameSet s.pairs) := by
  refine ⟨rep, fun a ha => ?_, fun a ha => ?_, h.same⟩
  · obtain ⟨uf, hfind, hlen, hinv⟩ := h.inv.find_eq ha
    refine ⟨uf, hfind, fun b hb => ?_⟩
    obtain ⟨uf', hfind', _⟩ := hinv.find_eq (hlen.symm ▸ hb)
    exact ⟨uf', hfind'⟩
  · have hlt := h.inv.rep_lt ha
    exact ⟨hlt, (h.same a ha _ hlt).mp (h.inv.rep_rep ha).symm⟩

/-- **A structure that stands for the closure answers like it.** -/
theorem answers : Answers s where
  find := h.findsLike
  union a ha b hb := by
    obtain ⟨uf, merged, rep', hunion, hmerged, hlen, hrep'⟩ := h.union ha hb
    refine ⟨uf, merged, hunion, hmerged, hlen, ?_⟩
    have hfinds := hrep'.findsLike
    have hsame : SameSet ((a, b) :: s.pairs) = Merged (SameSet s.pairs) a b := by
      funext x y
      exact propext sameSet_cons
    exact hsame ▸ hfinds
  sizeOf a ha := by
    obtain ⟨uf, hsize, _⟩ := h.inv.sizeOf_eq ha
    exact ⟨uf, h.cls_eq ha ▸ hsize⟩
  numSets := h.card_classes.symm
  add := by
    refine ⟨rfl, by simp [UnionFind.add, len], h.add.findsLike, ?_, fun a ha => ?_⟩
    · ext b
      simp only [cls, Finset.mem_filter, Finset.mem_range, Finset.mem_singleton]
      rw [sameSet_comm, h.sameSet_len]
      omega
    · ext b
      simp only [cls, Finset.mem_filter, Finset.mem_range]
      refine and_congr_left fun hab => ?_
      have hb : b ≠ s.uf.len := by
        rintro rfl
        exact Nat.ne_of_lt ha (h.sameSet_len.mp hab)
      omega

end Represents

/-! ## Runs -/

/-- With no pairs every element is alone. -/
theorem sameSet_nil {a b : ℕ} : SameSet [] a b ↔ a = b := by
  constructor
  · exact Forest.eqvGen_fresh fun _ _ hxy => absurd hxy List.not_mem_nil
  · rintro rfl
    exact .refl _

/-- A structure as it is made stands for no pairs. -/
theorem represents_init (start : Start) : Represents (system start).init id := by
  refine ⟨?_, fun a _ b _ => sameSet_nil.symm, fun a b hab => absurd hab List.not_mem_nil⟩
  cases start with
  | new size => exact inv_new size
  | withCapacity size => exact inv_new 0

/-- **In every run the structure stands for the closure of what was united.** -/
theorem represents_of_reachable {start : Start} {s : State} (hs : (system start).Reachable s) :
    ∃ rep, Represents s rep := by
  refine hs.invariant (I := fun s => ∃ rep, Represents s rep) ⟨id, represents_init start⟩ ?_
  rintro s op s' _ ⟨rep, h⟩ _ hnext
  simp only [system] at hnext
  split at hnext
  · rename_i hop
    cases happly : s.uf.apply op with
    | error e =>
      rw [happly] at hnext
      cases hnext
    | ok uf =>
      rw [happly] at hnext
      obtain rfl := Option.some.inj hnext
      exact h.apply hop happly
  · cases hnext

/-- **The structure is the equivalence closure of the pairs united so far**: in
every state of every run of calls on indices in range, every such call returns,
and answers as the closure does. -/
theorem answers_of_reachable {start : Start} {s : State} (hs : (system start).Reachable s) :
    Answers s := by
  obtain ⟨rep, h⟩ := represents_of_reachable hs
  exact h.answers

/-- Two elements united by way of a third, one of them an added one, and an
element left alone. -/
theorem answers_of_reachable_chain : Answers ⟨⟨[1, -3, -1, 1], 2⟩, [(3, 1), (0, 1)]⟩ :=
  answers_of_reachable <| @System.Reachable.of_run _ _ (system (.new 3)) _
    [.union 0 1, .add, .union 3 1, .find 0, .sizeOf 3] rfl

end UnionFind
