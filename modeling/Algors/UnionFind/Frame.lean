import Algors.UnionFind.Soundness

/-!
# What `find` and `union` leave as it is

`find` follows the chain of parents of its element and then goes it again,
writing to the array it reads. The entries it writes are those of the chain but
its root: they become links to the root. So no chain comes to another root, and
no answer changes.

`union` makes two calls of `find` first, the second on what the first left; the
chains of its two elements may have a part in common. Then the root of the
smaller set becomes a child of the other root, and that of `i` a child of that
of `j` where the sets are of one size. The other sets do not change.
-/

namespace UnionFind

open Forest Relation

/-- **The chain of parents** of an element, with the element and the root. -/
def OnChain (data : List ℤ) (i k : ℕ) : Prop := ReflTransGen (Link data) i k

/-- What `find` returns. -/
def representative (self : UnionFind) (i : ℕ) : Rust ℕ := (self.find i).map Prod.snd

/-- What `size_of` returns. -/
def setSize (self : UnionFind) (i : ℕ) : Rust ℕ := (self.sizeOf i).map Prod.snd

/-- The chain of `k` ends at `r`. -/
def EndsAt (data : List ℤ) (k r : ℕ) : Prop := ∃ d, Reaches (parent data) k r d

/-! ## Flattening a chain -/

section Flatten

variable {data₀ data data' : List ℤ} {cur next r n fuel k : ℕ}

theorem onChain_head (h : Link data₀ cur next) :
    OnChain data₀ cur k ↔ k = cur ∨ OnChain data₀ next k := by
  constructor
  · intro hk
    rcases ReflTransGen.cases_head hk with rfl | ⟨next', hnext', hk⟩
    · exact Or.inl rfl
    · have heq : next' = next := by
        have := Option.some.inj (hnext'.symm.trans h)
        exact_mod_cast this
      exact Or.inr (heq ▸ hk)
  · rintro (rfl | hk)
    · exact ReflTransGen.refl
    · exact ReflTransGen.head h hk

/-- A chain that ends does not come back. -/
theorem not_onChain_self (hn : Reaches (parent data₀) cur r n) (h : Link data₀ cur next) :
    ¬ OnChain data₀ next cur := by
  intro hback
  have hcycle : TransGen (Link data₀) cur cur := TransGen.head' h hback
  obtain ⟨m, hlt, hm⟩ := Reaches.of_transGen hcycle hn
  exact Nat.ne_of_lt hlt (hn.unique hm).2

/-- A chain comes to its end. -/
theorem onChain_of_reaches (hn : Reaches (parent data₀) cur r n) : OnChain data₀ cur r := by
  induction hn with
  | root _ => exact ReflTransGen.refl
  | step hp _ ih => exact ReflTransGen.head (parent_eq_some.mp hp) ih

/-- **The second loop of `find` writes the chain and nothing else.** The chain is
that of the array before the loop, of which the part still to be gone is there
unchanged. -/
theorem flattenLoop_entries (hn : Reaches (parent data₀) cur r n)
    (hrest : ∀ k, OnChain data₀ cur k → data[k]? = data₀[k]?)
    (hrun : flattenLoop r fuel data cur = .ok data') :
    (∀ k, k ≠ r → OnChain data₀ cur k → data'[k]? = some (r : ℤ))
      ∧ ∀ k, k = r ∨ ¬ OnChain data₀ cur k → data'[k]? = data[k]? := by
  induction fuel generalizing data cur n with
  | zero => cases hrun
  | succ fuel ih =>
    have hself : data[cur]? = data₀[cur]? := hrest cur ReflTransGen.refl
    cases hn with
    | root hroot =>
      -- the root has no entry that the loop goes on with
      have hdata : data' = data := by
        unfold flattenLoop at hrun
        cases hvalue : data[r]? with
        | none =>
          simp only [Rust.index, hvalue] at hrun
          cases hrun
        | some value =>
          have hneg : value < 0 := (parent_eq_none (hself ▸ hvalue)).mp hroot
          simp only [Rust.index, hvalue, Rust.ok_bind, if_neg (not_le.mpr hneg)] at hrun
          exact (Except.ok.inj hrun).symm
      subst hdata
      refine ⟨fun k hk hchain => ?_, fun _ _ => rfl⟩
      rcases ReflTransGen.cases_head hchain with rfl | ⟨p, hp, _⟩
      · exact absurd rfl hk
      · cases hroot.symm.trans (parent_eq_some.mpr hp)
    | @step _ p _ n hp hn =>
      have hlink : Link data₀ cur p := parent_eq_some.mp hp
      have hcurlt : cur < data.length := (List.getElem?_eq_some_iff.mp (hself.trans hlink)).1
      have hoff : ¬ OnChain data₀ p cur := not_onChain_self (.step hp hn) hlink
      have hne : cur ≠ r := by
        rintro rfl
        exact hoff (onChain_of_reaches hn)
      simp only [flattenLoop, Rust.index, hself.trans hlink, Rust.ok_bind,
        if_pos (Int.natCast_nonneg p), Int.toNat_natCast] at hrun
      have hset : ∀ k, k ≠ cur → (data.set cur (r : ℤ))[k]? = data[k]? := fun k hk =>
        List.getElem?_set_ne hk.symm
      obtain ⟨hon, hout⟩ := ih hn (fun k hk => by
        rw [hset k (by rintro rfl; exact hoff hk)]
        exact hrest k ((onChain_head hlink).mpr (Or.inr hk))) hrun
      refine ⟨fun k hk hchain => ?_, fun k hk => ?_⟩
      · rcases (onChain_head hlink).mp hchain with rfl | hchain
        · rw [hout k (Or.inr hoff), List.getElem?_set_self hcurlt]
        · exact hon k hk hchain
      · rcases hk with rfl | hk
        · rw [hout k (Or.inl rfl), hset k hne.symm]
        · rw [onChain_head hlink, not_or] at hk
          rw [hout k (Or.inr hk.2), hset k hk.1]

end Flatten

/-! ## The frame of `find` -/

/-- **No answer has changed.** -/
structure SameAnswers (uf uf' : UnionFind) : Prop where
  endsAt : ∀ k < uf.len, ∀ r, EndsAt uf'.data k r ↔ EndsAt uf.data k r
  representative : ∀ k < uf.len, uf'.representative k = uf.representative k
  setSize : ∀ k < uf.len, uf'.setSize k = uf.setSize k
  numSets : uf'.num_sets = uf.num_sets
  len : uf'.len = uf.len

/-- **The chain of `i` is flat**: what was on it links to its root, and the other
entries are as they were. -/
structure Flattened (data data' : List ℤ) (i root : ℕ) : Prop where
  chain : ∀ k, k ≠ root → OnChain data i k → data'[k]? = some (root : ℤ)
  frame : ∀ k, k = root ∨ ¬ OnChain data i k → data'[k]? = data[k]?

namespace Inv

variable {uf uf' : UnionFind} {rep : ℕ → ℕ} {i j k : ℕ} (h : Inv uf rep)

include h

theorem representative_eq (hi : i < uf.len) : uf.representative i = .ok (rep i) := by
  obtain ⟨uf', hfind, _⟩ := h.find_eq hi
  rw [representative, hfind]
  rfl

theorem setSize_eq (hi : i < uf.len) :
    uf.setSize i = .ok (members uf.len rep (rep i)).card := by
  obtain ⟨uf', hsize, _⟩ := h.sizeOf_eq hi
  rw [setSize, hsize]
  rfl

theorem endsAt_iff (hi : i < uf.len) (r : ℕ) : EndsAt uf.data i r ↔ rep i = r := by
  obtain ⟨n, hn, _⟩ := h.reaches i hi
  constructor
  · rintro ⟨d, hd⟩
    exact (hn.unique hd).1
  · rintro rfl
    exact ⟨n, hn⟩

/-- Two structures with the same representatives answer the same. -/
theorem sameAnswers (h' : Inv uf' rep) (hlen : uf'.len = uf.len) : SameAnswers uf uf' where
  endsAt k hk r := by rw [h'.endsAt_iff (hlen ▸ hk), h.endsAt_iff hk]
  representative k hk := by rw [h'.representative_eq (hlen ▸ hk), h.representative_eq hk]
  setSize k hk := by rw [h'.setSize_eq (hlen ▸ hk), h.setSize_eq hk, hlen]
  numSets := by rw [num_sets, num_sets, h'.numSets, h.numSets, hlen]
  len := hlen

/-- **`find` flattens the chain of its element**, and changes no answer. -/
theorem find_frame (hi : i < uf.len) : ∃ uf', uf.find i = .ok (uf', rep i)
    ∧ EndsAt uf.data i (rep i) ∧ Flattened uf.data uf'.data i (rep i) ∧ SameAnswers uf uf' := by
  obtain ⟨uf', hfind, hlen, hinv⟩ := h.find_eq hi
  obtain ⟨n, hn, hlt⟩ := h.exists_depth hi
  refine ⟨uf', hfind, ⟨n, hn⟩, ?_, h.sameAnswers hinv hlen⟩
  simp only [find, rootLoop_eq hn h.parent_lt hi (Nat.lt_succ_of_lt hlt), Rust.ok_bind] at hfind
  cases hflat : UnionFind.flattenLoop (rep i) (uf.len + 1) uf.data i with
  | error e =>
    rw [hflat] at hfind
    cases hfind
  | ok data' =>
    rw [hflat] at hfind
    obtain ⟨rfl, -⟩ := Prod.mk.inj (Except.ok.inj hfind)
    obtain ⟨hon, hout⟩ := flattenLoop_entries hn (fun _ _ => rfl) hflat
    exact ⟨hon, hout⟩

end Inv

/-! ## The frame of `union` -/

/-- **The sets of `ri` and `rj` are one**, with the representative `r`, and the
others are as they were. -/
structure Joined (uf uf' : UnionFind) (ri rj r : ℕ) : Prop where
  joined : ∀ k < uf.len, uf.representative k = .ok ri ∨ uf.representative k = .ok rj →
    uf'.representative k = .ok r
  others : ∀ k < uf.len, uf.representative k ≠ .ok ri → uf.representative k ≠ .ok rj →
    uf'.representative k = uf.representative k ∧ uf'.setSize k = uf.setSize k
  len : uf'.len = uf.len

/-- Which of the two sets is named first does not matter. -/
theorem Joined.symm {uf uf' : UnionFind} {x y r : ℕ} (h : Joined uf uf' x y r) :
    Joined uf uf' y x r where
  joined k hk hrep := h.joined k hk hrep.symm
  others k hk hy hx := h.others k hk hx hy
  len := h.len

namespace Inv

variable {uf uf' : UnionFind} {rep : ℕ → ℕ} {i j x y : ℕ} (h : Inv uf rep)

include h

/-- The set of `x` put into that of `y`. -/
theorem joined_of_redirect (h' : Inv uf' (redirect rep x y)) (hlen : uf'.len = uf.len) :
    Joined uf uf' x y y where
  joined k hk hrep := by
    rw [h.representative_eq hk] at hrep
    rw [h'.representative_eq (hlen ▸ hk), redirect]
    split_ifs with hx
    · rfl
    · rcases hrep with hrep | hrep
      · exact absurd (Except.ok.inj hrep) hx
      · exact hrep
  others k hk hx hy := by
    rw [h.representative_eq hk] at hx hy ⊢
    have hx' : rep k ≠ x := fun heq => hx (heq ▸ rfl)
    have hy' : rep k ≠ y := fun heq => hy (heq ▸ rfl)
    have hredirect : redirect rep x y k = rep k := if_neg hx'
    rw [h'.representative_eq (hlen ▸ hk), h'.setSize_eq (hlen ▸ hk), h.setSize_eq hk, hredirect,
      members_redirect_of_ne hx' hy', hlen]
    exact ⟨rfl, rfl⟩
  len := hlen

/-- **`union` of two sets** keeps the root of the strictly larger one, or that of
the second. -/
theorem union_frame (hi : i < uf.len) (hj : j < uf.len)
    (hne : uf.representative i ≠ uf.representative j) :
    ∃ uf' ri rj si sj, uf.union i j = .ok (uf', true)
      ∧ uf.representative i = .ok ri ∧ uf.representative j = .ok rj
      ∧ uf.setSize i = .ok si ∧ uf.setSize j = .ok sj
      ∧ Joined uf uf' ri rj (if sj < si then ri else rj) := by
  rw [h.representative_eq hi, h.representative_eq hj] at hne
  obtain ⟨uf', hunion, hlen, hinv⟩ := h.union_merged hi hj fun heq => hne (heq ▸ rfl)
  refine ⟨uf', rep i, rep j, _, _, hunion, h.representative_eq hi, h.representative_eq hj,
    h.setSize_eq hi, h.setSize_eq hj, ?_⟩
  split_ifs at hinv ⊢
  · exact (h.joined_of_redirect hinv hlen).symm
  · exact h.joined_of_redirect hinv hlen

end Inv

/-- **In every run, `find` changes no answer and `union` those of its two sets
only.** -/
theorem frame_of_reachable {start : Start} {s : State} (hs : (system start).Reachable s) :
    (∀ i < s.uf.len, ∃ uf root, s.uf.find i = .ok (uf, root) ∧ EndsAt s.uf.data i root
      ∧ Flattened s.uf.data uf.data i root ∧ SameAnswers s.uf uf)
    ∧ ∀ i < s.uf.len, ∀ j < s.uf.len, s.uf.representative i ≠ s.uf.representative j →
      ∃ uf ri rj si sj, s.uf.union i j = .ok (uf, true)
        ∧ s.uf.representative i = .ok ri ∧ s.uf.representative j = .ok rj
        ∧ s.uf.setSize i = .ok si ∧ s.uf.setSize j = .ok sj
        ∧ Joined s.uf uf ri rj (if sj < si then ri else rj) := by
  obtain ⟨rep, h⟩ := represents_of_reachable hs
  refine ⟨fun i hi => ?_, fun i hi j hj hne => h.inv.union_frame hi hj hne⟩
  obtain ⟨uf, hfind⟩ := h.inv.find_frame hi
  exact ⟨uf, rep i, hfind⟩

/-- A chain of two links is made flat, and an element left alone is put into the
set. -/
theorem frame_of_reachable_five :
    (∃ uf root, find ⟨[1, -4, 3, 1, -1], 2⟩ 2 = .ok (uf, root) ∧ EndsAt [1, -4, 3, 1, -1] 2 root
      ∧ Flattened [1, -4, 3, 1, -1] uf.data 2 root ∧ SameAnswers ⟨[1, -4, 3, 1, -1], 2⟩ uf)
    ∧ ∃ uf ri rj si sj, union ⟨[1, -4, 3, 1, -1], 2⟩ 2 4 = .ok (uf, true)
      ∧ representative ⟨[1, -4, 3, 1, -1], 2⟩ 2 = .ok ri
      ∧ representative ⟨[1, -4, 3, 1, -1], 2⟩ 4 = .ok rj
      ∧ setSize ⟨[1, -4, 3, 1, -1], 2⟩ 2 = .ok si ∧ setSize ⟨[1, -4, 3, 1, -1], 2⟩ 4 = .ok sj
      ∧ Joined ⟨[1, -4, 3, 1, -1], 2⟩ uf ri rj (if sj < si then ri else rj) := by
  have hrun : (system (.new 5)).run (system (.new 5)).init [.union 0 1, .union 2 3, .union 2 0]
      = some ⟨⟨[1, -4, 3, 1, -1], 2⟩, [(2, 0), (2, 3), (0, 1)]⟩ := rfl
  obtain ⟨hfind, hunion⟩ := frame_of_reachable (.of_run hrun)
  exact ⟨hfind 2 (by decide), hunion 2 (by decide) 4 (by decide) (by decide)⟩

end UnionFind
