import Algors.UnionFind.Soundness

/-!
# On machine integers

The entries of the array are `isize`, and the indices `usize`. Here the calls
are written with every cast and every addition checked, for a target whose
`isize::MAX` is `max`. In every run of structures of at most `max` elements no
check fails, so that the calls do what they do on the integers, and both loops
of `find` end.
-/

namespace UnionFind

namespace Machine

variable (max : ℕ)

/-- `index as isize`. -/
def toIsize (index : ℕ) : Rust ℤ := if index ≤ max then .ok index else .error .overflow

/-- `value as usize`. -/
def toUsize (value : ℤ) : Rust ℕ := if 0 ≤ value then .ok value.toNat else .error .overflow

/-- The addition of `isize`, whose least value is `-max - 1`. -/
def addIsize (a b : ℤ) : Rust ℤ :=
  if -(max : ℤ) - 1 ≤ a + b ∧ a + b ≤ max then .ok (a + b) else .error .overflow

/-- `self.num_sets += 1`, where `usize::MAX` is `2 * max + 1`. -/
def increment (numSets : ℕ) : Rust ℕ :=
  if numSets + 1 ≤ 2 * max + 1 then .ok (numSets + 1) else .error .overflow

/-- `UnionFind::add`. -/
def add (self : UnionFind) : Rust (UnionFind × ℕ) := do
  let numSets ← increment max self.numSets
  .ok (⟨self.data ++ [-1], numSets⟩, self.data.length)

/-- The first loop of `find`. -/
def rootLoop (data : List ℤ) : ℕ → ℕ → Rust ℕ
  | 0, _ => .error .diverges
  | fuel + 1, root => do
    let value ← Rust.index data root
    if value ≥ 0 then do
      let root ← toUsize value
      rootLoop data fuel root
    else .ok root

/-- The second loop of `find`. -/
def flattenLoop (root : ℕ) : ℕ → List ℤ → ℕ → Rust (List ℤ)
  | 0, _, _ => .error .diverges
  | fuel + 1, data, cur => do
    let next ← Rust.index data cur
    if next ≥ 0 then do
      let link ← toIsize max root
      let cur' ← toUsize next
      flattenLoop root fuel (data.set cur link) cur'
    else .ok data

/-- `UnionFind::find`. -/
def find (self : UnionFind) (i : ℕ) : Rust (UnionFind × ℕ) := do
  let root ← rootLoop self.data (self.len + 1) i
  let data ← flattenLoop max root (self.len + 1) self.data i
  .ok (⟨data, self.numSets⟩, root)

/-- `self.data[child] += ..; self.data[child] = parent`. -/
def attach (data : List ℤ) (child parent : ℕ) : Rust (List ℤ) := do
  let sizeParent ← Rust.index data parent
  let sizeChild ← Rust.index data child
  let size ← addIsize max sizeParent sizeChild
  let link ← toIsize max parent
  .ok ((data.set parent size).set child link)

/-- `UnionFind::union`. -/
def union (self : UnionFind) (i j : ℕ) : Rust (UnionFind × Bool) := do
  let (self, rootI) ← find max self i
  let (self, rootJ) ← find max self j
  if rootJ = rootI then .ok (self, false)
  else
    let sizeJ ← Rust.index self.data rootJ
    let sizeI ← Rust.index self.data rootI
    let data ←
      if sizeJ ≤ sizeI then attach max self.data rootI rootJ
      else attach max self.data rootJ rootI
    let numSets ← decrement self.numSets
    .ok (⟨data, numSets⟩, true)

/-- `UnionFind::size_of`. -/
def sizeOf (self : UnionFind) (i : ℕ) : Rust (UnionFind × ℕ) := do
  let (self, root) ← find max self i
  let size ← Rust.index self.data root
  .ok (self, size.natAbs)

/-- The structure after a call. -/
def apply (self : UnionFind) : Op → Rust UnionFind
  | .add => (add max self).map Prod.fst
  | .find i => (find max self i).map Prod.fst
  | .union i j => (union max self i j).map Prod.fst
  | .sizeOf i => (sizeOf max self i).map Prod.fst

/-- **Runs of calls** on machine integers. -/
def system (start : Start) : System State Op where
  init := ⟨start.build, []⟩
  next s op :=
    if op.InRange s.uf.len then
      (apply max s.uf op).toOption.map fun uf => ⟨uf, op.pairs ++ s.pairs⟩
    else none

/-! ## No check fails -/

variable {max}

theorem toIsize_eq {index : ℕ} (h : index ≤ max) : toIsize max index = .ok (index : ℤ) := if_pos h

theorem toUsize_eq {value : ℤ} (h : 0 ≤ value) : toUsize value = .ok value.toNat := if_pos h

theorem rootLoop_eq (data : List ℤ) (fuel i : ℕ) :
    rootLoop data fuel i = UnionFind.rootLoop data fuel i := by
  induction fuel generalizing i with
  | zero => rfl
  | succ fuel ih =>
    simp only [rootLoop, UnionFind.rootLoop]
    refine bind_congr fun value => ?_
    split_ifs with hvalue
    · rw [toUsize_eq hvalue, Rust.ok_bind, ih]
    · rfl

theorem flattenLoop_eq {root : ℕ} (hroot : root ≤ max) (fuel : ℕ) (data : List ℤ) (cur : ℕ) :
    flattenLoop max root fuel data cur = UnionFind.flattenLoop root fuel data cur := by
  induction fuel generalizing data cur with
  | zero => rfl
  | succ fuel ih =>
    simp only [flattenLoop, UnionFind.flattenLoop]
    refine bind_congr fun next => ?_
    split_ifs with hnext
    · rw [toIsize_eq hroot, toUsize_eq hnext, Rust.ok_bind, Rust.ok_bind, ih]
    · rfl

/-- More rounds than are needed change nothing. -/
theorem flattenLoop_mono {root fuel fuel' : ℕ} {data data' : List ℤ} {cur : ℕ} (hle : fuel ≤ fuel')
    (h : UnionFind.flattenLoop root fuel data cur = .ok data') :
    UnionFind.flattenLoop root fuel' data cur = .ok data' := by
  induction fuel generalizing fuel' data cur with
  | zero => cases h
  | succ fuel ih =>
    obtain ⟨fuel', rfl⟩ := Nat.exists_eq_add_of_le' (Nat.one_le_of_lt hle)
    simp only [UnionFind.flattenLoop] at h ⊢
    cases hindex : Rust.index data cur with
    | error e =>
      rw [hindex] at h
      cases h
    | ok next =>
      rw [hindex, Rust.ok_bind] at h
      rw [Rust.ok_bind]
      split_ifs at h ⊢ with hnext
      · exact ih (Nat.le_of_succ_le_succ hle) h
      · exact h

section Calls

variable {uf : UnionFind} {rep : ℕ → ℕ} (h : Inv uf rep) (hlen : uf.len ≤ max)

include h hlen

theorem find_eq {i : ℕ} (hi : i < uf.len) : find max uf i = uf.find i := by
  obtain ⟨n, hn, hlt⟩ := h.exists_depth hi
  have hloop := UnionFind.rootLoop_eq hn h.parent_lt hi (Nat.lt_succ_of_lt hlt)
  have hroot : rep i ≤ max := (h.rep_lt hi).le.trans hlen
  simp only [find, UnionFind.find, rootLoop_eq, hloop, Rust.ok_bind, flattenLoop_eq hroot]

/-- **Two sets have at most as many members as there are elements**, so that
their sizes add up to an `isize`. -/
theorem attach_eq {x y : ℕ} (hx : x < uf.len) (hy : y < uf.len) (hxrep : rep x = x)
    (hyrep : rep y = y) (hne : x ≠ y) : attach max uf.data x y = UnionFind.attach uf.data x y := by
  have hcard := @card_members_redirect_self uf.len rep x y hne
  have hle : (members uf.len (redirect rep x y) y).card ≤ uf.len :=
    (Finset.card_filter_le _ _).trans (Finset.card_range _).le
  simp only [attach, UnionFind.attach, Rust.index, h.size x hx hxrep, h.size y hy hyrep,
    Rust.ok_bind, toIsize_eq (hy.le.trans hlen)]
  rw [addIsize, if_pos (by omega), Rust.ok_bind]

theorem union_eq {i j : ℕ} (hi : i < uf.len) (hj : j < uf.len) :
    union max uf i j = uf.union i j := by
  obtain ⟨uf₁, hfind₁, hlen₁, hinv₁⟩ := h.find_eq hi
  have hj₁ : j < uf₁.len := hlen₁.symm ▸ hj
  obtain ⟨uf₂, hfind₂, hlen₂, hinv₂⟩ := hinv₁.find_eq hj₁
  have hmax₁ : uf₁.len ≤ max := hlen₁.symm ▸ hlen
  have hmax₂ : uf₂.len ≤ max := hlen₂.symm ▸ hmax₁
  have hi₂ : rep i < uf₂.len := by rw [hlen₂, hlen₁]; exact h.rep_lt hi
  have hj₂ : rep j < uf₂.len := by rw [hlen₂, hlen₁]; exact h.rep_lt hj
  simp only [union, UnionFind.union, find_eq h hlen hi, hfind₁, Rust.ok_bind,
    find_eq hinv₁ hmax₁ hj₁, hfind₂]
  split_ifs with hsame
  · rfl
  · rw [attach_eq hinv₂ hmax₂ hi₂ hj₂ (h.rep_rep hi) (h.rep_rep hj) (Ne.symm hsame),
      attach_eq hinv₂ hmax₂ hj₂ hi₂ (h.rep_rep hj) (h.rep_rep hi) hsame]

/-- **A call is what it is on the integers.** -/
theorem apply_eq {op : Op} (hop : op.InRange uf.len) : apply max uf op = uf.apply op := by
  cases op with
  | add =>
    have hroots : (roots uf.len rep).card ≤ uf.len :=
      (Finset.card_filter_le _ _).trans (Finset.card_range _).le
    have hnum := h.numSets
    simp only [apply, add, increment, UnionFind.apply, UnionFind.add]
    rw [if_pos (by omega)]
    rfl
  | find i => rw [apply, UnionFind.apply, find_eq h hlen hop]
  | union i j => rw [apply, UnionFind.apply, union_eq h hlen hop.1 hop.2]
  | sizeOf i => rw [apply, UnionFind.apply, sizeOf, UnionFind.sizeOf, find_eq h hlen hop]

omit hlen in
/-- On the integers, every call on indices in range returns. -/
theorem apply_returns {op : Op} (hop : op.InRange uf.len) : ∃ uf', uf.apply op = .ok uf' := by
  cases op with
  | add => exact ⟨_, rfl⟩
  | find i =>
    obtain ⟨uf', hfind, _⟩ := h.find_eq hop
    exact ⟨uf', by rw [UnionFind.apply, hfind]; rfl⟩
  | union i j =>
    obtain ⟨uf', merged, _, hunion, _⟩ := h.union_eq hop.1 hop.2
    exact ⟨uf', by rw [UnionFind.apply, hunion]; rfl⟩
  | sizeOf i =>
    obtain ⟨uf', hsize, _⟩ := h.sizeOf_eq hop
    exact ⟨uf', by rw [UnionFind.apply, hsize]; rfl⟩

/-- **Both loops of `find` end**, however many rounds more than elements they
are given. -/
theorem loops_end {i : ℕ} (hi : i < uf.len) : ∃ root data, ∀ fuel, uf.len < fuel →
    rootLoop uf.data fuel i = .ok root ∧ flattenLoop max root fuel uf.data i = .ok data := by
  obtain ⟨n, hn, hlt⟩ := h.exists_depth hi
  have hroot : rep i ≤ max := (h.rep_lt hi).le.trans hlen
  obtain ⟨data, hdata, _⟩ := Inv.flattenLoop h hi rfl hn (Nat.lt_succ_self n)
  refine ⟨rep i, data, fun fuel hfuel => ⟨?_, ?_⟩⟩
  · rw [rootLoop_eq]
    exact UnionFind.rootLoop_eq hn h.parent_lt hi (hlt.trans hfuel)
  · rw [flattenLoop_eq hroot]
    exact flattenLoop_mono (hlt.trans hfuel) hdata

end Calls

/-! ## Runs -/

/-- A run on machine integers is one on the integers. -/
theorem reachable {start : Start} {s : State}
    (hs : (system max start).ReachableWhile (fun s _ => s.uf.len ≤ max) s) :
    (UnionFind.system start).Reachable s := by
  induction hs with
  | init => exact .init
  | @step s s' op hs hlen hnext ih =>
    obtain ⟨rep, h⟩ := represents_of_reachable ih
    refine ih.step trivial (a := op) ?_
    simp only [system] at hnext
    simp only [UnionFind.system]
    split_ifs at hnext ⊢ with hop
    rwa [apply_eq h.inv hlen hop] at hnext

/-- **The entries are sound in every run on machine integers**, as long as
there are at most `isize::MAX` elements: both loops of `find` end, and no call
on indices in range overflows or indexes out of range. -/
theorem sound_of_reachable {start : Start} {s : State}
    (hs : (system max start).ReachableWhile (fun s _ => s.uf.len ≤ max) s)
    (hlen : s.uf.len ≤ max) : Sound s.uf
      ∧ (∀ i < s.uf.len, ∃ root data, ∀ fuel, s.uf.len < fuel →
          rootLoop s.uf.data fuel i = .ok root
            ∧ flattenLoop max root fuel s.uf.data i = .ok data)
      ∧ ∀ op : Op, op.InRange s.uf.len → ∃ uf, apply max s.uf op = .ok uf := by
  obtain ⟨rep, h⟩ := represents_of_reachable (reachable hs)
  refine ⟨h.inv.sound, fun i hi => loops_end h.inv hlen hi, fun op hop => ?_⟩
  rw [apply_eq h.inv hlen hop]
  exact apply_returns h.inv hop

/-- Calls that grow and unite three elements to five, among them a `find`. -/
def fiveCalls : List Op :=
  [.union 0 1, .add, .union 2 3, .find 0, .union 0 2, .add, .union 1 4]

/-- On bytes, a run that ends with an element two links below its root. -/
theorem sound_of_reachable_fiveCalls :
    ∃ s, (system 127 (.new 3)).run ⟨new 3, []⟩ fiveCalls = some s
      ∧ s.uf.data = [1, 3, 3, -5, 3] ∧ Sound s.uf
      ∧ (∀ i < s.uf.len, ∃ root data, ∀ fuel, s.uf.len < fuel →
          rootLoop s.uf.data fuel i = .ok root
            ∧ flattenLoop 127 root fuel s.uf.data i = .ok data)
      ∧ ∀ op : Op, op.InRange s.uf.len → ∃ uf, apply 127 s.uf op = .ok uf :=
  ⟨_, rfl, rfl, @sound_of_reachable 127 (.new 3) _
    (.of_run .init (by decide : System.RunMeets _ _ _ fiveCalls) rfl) (by decide)⟩

end Machine

end UnionFind
