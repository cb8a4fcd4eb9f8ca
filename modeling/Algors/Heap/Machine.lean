import Algors.Heap.Model
import Mathlib.Data.List.Perm.Basic

/-!
# A heap with a bad comparator

Nothing is asked of the comparator here: it may answer anything at every call,
contradict itself, change what it has captured, or panic. The order of the heap
is lost then, and its elements are not. The loops move elements by swaps only,
so whenever the comparator is called the vector holds what it held before the
loop, and they are ended by the indices and not by the order.

The indices are `usize`, on a target whose `isize::MAX` is `max`, and every
operation on them is checked. `seen` is the record of what the vector was when
the comparator was called, which nothing looks at.

A panic of the comparator may be caught, and the heap used again: it has the
vector of the moment of the panic, and the comparator whatever it has captured
by then. The element a `pop` was about to return is dropped by the unwinding.
-/

namespace Heap

namespace Machine

variable {T σ α β : Type}

/-! ## Indices that are checked -/

section Index

variable (max : ℕ)

/-- A number as a `usize`, the largest of which is `2 * max + 1`. -/
def usize (n : ℕ) : Rust ℕ := if n ≤ 2 * max + 1 then .ok n else .error .overflow

/-- `i - 1`. -/
def pred : ℕ → Rust ℕ
  | 0 => .error .overflow
  | i + 1 => .ok i

/-- `Heap::left`. -/
def left (i : ℕ) : Rust ℕ := do
  let double ← usize max (i * 2)
  usize max (double + 1)

/-- `Heap::right`. -/
def right (i : ℕ) : Rust ℕ := do
  let double ← usize max (i * 2)
  usize max (double + 2)

/-- `Heap::parent`. -/
def parent (i : ℕ) : Rust ℕ := do
  let i ← pred i
  .ok (i / 2)

end Index

/-! ## The loops, with a record of the comparator's calls -/

/-- The heap in the middle of a call, and the vector at each call of the
comparator, the latest first. -/
structure Probe (T σ : Type) where
  heap : Heap T σ
  seen : List (List T)

/-- A result, or how the call ended without one and what the comparator saw. -/
abbrev Probed (T α : Type) := Except (Halt T × List (List T)) α

namespace Probe

/-- A computation on indices in the middle of a call. -/
def checked (self : Probe T σ) (x : Rust α) : Probed T α :=
  x.mapError fun e => (.fault e, self.seen)

variable (cmp : Comparator T σ)

/-- `(self.cmp)(&self.data[i], &self.data[j])`. -/
def compare (self : Probe T σ) (i j : ℕ) : Probed T (Probe T σ × Ordering) :=
  match self.heap.data[i]?, self.heap.data[j]? with
  | some a, some b =>
    let seen := self.heap.data :: self.seen
    match cmp self.heap.captured a b with
    | some (ord, captured) => .ok (⟨⟨self.heap.data, captured⟩, seen⟩, ord)
    | none => .error (.panicked self.heap.data, seen)
  | _, _ => .error (.fault .indexOutOfBounds, self.seen)

/-- `self.data.swap(i, j)`. -/
def swap (self : Probe T σ) (i j : ℕ) : Probed T (Probe T σ) :=
  match self.heap.swap i j with
  | .ok heap => .ok ⟨heap, self.seen⟩
  | .error e => .error (e, self.seen)

end Probe

section Calls

variable (max : ℕ) (cmp : Comparator T σ)

/-- The loop of `sift_up`. -/
def siftUpLoop : ℕ → Probe T σ → ℕ → Probed T (Probe T σ)
  | 0, self, _ => .error (.fault .diverges, self.seen)
  | fuel + 1, self, i =>
    if i > 0 then do
      let p ← self.checked (parent i)
      let (self, ord) ← self.compare cmp p i
      match ord with
      | .lt | .eq => .ok self
      | .gt => do
        let self ← self.swap i p
        siftUpLoop fuel self p
    else .ok self

/-- `Heap::sift_up`. -/
def siftUp (self : Probe T σ) : Probed T (Probe T σ) :=
  if self.heap.len ≤ 1 then .ok self
  else do
    let i ← self.checked (pred self.heap.len)
    siftUpLoop cmp self.heap.len self i

/-- The smaller child in `sift_down`, where there is a left one. -/
def smallerChild (self : Probe T σ) (i l : ℕ) : Probed T (Probe T σ × ℕ) := do
  let r ← self.checked (right max i)
  if r < self.heap.len then do
    let (self, ord) ← self.compare cmp r l
    .ok (self, if ord = .lt then r else l)
  else .ok (self, l)

/-- The loop of `sift_down`. -/
def siftDownLoop : ℕ → Probe T σ → ℕ → Probed T (Probe T σ)
  | 0, self, _ => .error (.fault .diverges, self.seen)
  | fuel + 1, self, i =>
    if i < self.heap.len then do
      let l ← self.checked (left max i)
      if l ≥ self.heap.len then .ok self
      else do
        let (self, child) ← smallerChild max cmp self i l
        let (self, ord) ← self.compare cmp i child
        match ord with
        | .gt => do
          let self ← self.swap i child
          siftDownLoop fuel self child
        | .lt | .eq => .ok self
    else .ok self

/-- `Heap::sift_down`. -/
def siftDown (self : Probe T σ) : Probed T (Probe T σ) :=
  if self.heap.len ≤ 1 then .ok self else siftDownLoop max cmp (self.heap.len + 1) self 0

/-- **`Heap::push`.** -/
def push (self : Heap T σ) (element : T) : Probed T (Probe T σ) :=
  siftUp cmp ⟨⟨self.data ++ [element], self.captured⟩, []⟩

/-- **`Heap::pop`.** -/
def pop (self : Heap T σ) : Probed T (Probe T σ × Option T) :=
  let self : Probe T σ := ⟨self, []⟩
  if self.heap.isEmpty then .ok (self, none)
  else do
    let last ← self.checked (pred self.heap.len)
    let self ← self.swap 0 last
    let res := self.heap.data.getLast?
    let self ← siftDown max cmp ⟨⟨self.heap.data.dropLast, self.heap.captured⟩, self.seen⟩
    .ok (self, res)

end Calls

/-! ## Runs -/

/-- The heap, and where the elements pushed so far have gone: `dropped` are
those that a `pop` had taken out when the comparator panicked. -/
structure State (T σ : Type) where
  heap : Heap T σ
  pushed : List T
  popped : List T
  dropped : List T

/-- **Runs of calls**, with whatever a comparator that panics leaves captured. A
vector holds `max` elements at most. -/
def system (max : ℕ) (cmp : Comparator T σ) (captured : σ) :
    System (State T σ) (Op T × σ) where
  init := ⟨Heap.new captured, [], [], []⟩
  next s a :=
    match a.1 with
    | .push x =>
      if s.heap.len < max then
        match push cmp s.heap x with
        | .ok p => some { s with heap := p.heap, pushed := x :: s.pushed }
        | .error (.panicked data, _) =>
          some { s with heap := ⟨data, a.2⟩, pushed := x :: s.pushed }
        | .error (.fault _, _) => none
      else none
    | .pop =>
      match pop max cmp s.heap with
      | .ok (p, res) => some { s with heap := p.heap, popped := res.toList ++ s.popped }
      | .error (.panicked data, _) =>
        some { s with heap := ⟨data, a.2⟩, dropped := s.heap.peek.toList ++ s.dropped }
      | .error (.fault _, _) => none

/-! ## The elements stay -/

/-- **A call keeps these elements**: it returns, with `post` of the result, or the
comparator panics; and until then it has only seen a vector of these elements. -/
def Keeps (stored : List T) (x : Probed T α) (post : α → Prop) : Prop :=
  match x with
  | .ok a => post a
  | .error (halt, seen) =>
    (∃ data, halt = .panicked data ∧ data.Perm stored) ∧ ∀ data ∈ seen, data.Perm stored

/-- The vector has these elements, and had them whenever the comparator was
called. -/
structure Whole (stored : List T) (p : Probe T σ) : Prop where
  data : p.heap.data.Perm stored
  seen : ∀ data ∈ p.seen, data.Perm stored

section Keeps

variable {stored : List T} {x : Probed T α} {P : α → Prop}

@[simp] theorem probed_bind (a : α) (f : α → Probed T β) :
    (bind (Except.ok a : Probed T α) f : Probed T β) = f a := rfl

/-- Calls in sequence. -/
theorem Keeps.bind {f : α → Probed T β} {Q : β → Prop} (h : Keeps stored x P)
    (hf : ∀ a, P a → Keeps stored (f a) Q) : Keeps stored (x >>= f) Q := by
  cases x with
  | ok a => exact hf a h
  | error e => exact h

end Keeps

section Probe

variable {stored : List T} {p : Probe T σ} {max i j : ℕ} {cmp : Comparator T σ}

theorem Whole.len (h : Whole stored p) : p.heap.len = stored.length := h.data.length_eq

/-- **The comparator is called on the stored elements.** -/
theorem Whole.compare (h : Whole stored p) (hi : i < p.heap.len) (hj : j < p.heap.len) :
    Keeps stored (p.compare cmp i j) fun r => Whole stored r.1 := by
  have hseen : ∀ data ∈ p.heap.data :: p.seen, data.Perm stored := fun data hdata => by
    rcases List.mem_cons.mp hdata with rfl | hdata
    · exact h.data
    · exact h.seen data hdata
  simp only [Probe.compare, List.getElem?_eq_getElem hi, List.getElem?_eq_getElem hj]
  cases cmp p.heap.captured p.heap.data[i] p.heap.data[j] with
  | none => exact ⟨⟨_, rfl, h.data⟩, hseen⟩
  | some r => exact ⟨h.data, hseen⟩

/-- A swap keeps the elements. -/
theorem Whole.swap (h : Whole stored p) (hi : i < p.heap.len) (hj : j < p.heap.len) :
    Keeps stored (p.swap i j) (Whole stored) := by
  simp only [Probe.swap, Heap.swap, List.getElem?_eq_getElem hi, List.getElem?_eq_getElem hj]
  exact ⟨(List.set_set_perm hi hj).trans h.data, h.seen⟩

theorem pred_eq (hi : 0 < i) : pred i = .ok (i - 1) := by
  obtain ⟨i, rfl⟩ := Nat.exists_eq_succ_of_ne_zero hi.ne'
  rfl

theorem parent_eq (hi : 0 < i) : parent i = .ok (Heap.parent i) := by
  rw [parent, pred_eq hi]
  rfl

/-- **The children of an index below `isize::MAX` are no larger than
`usize::MAX`.** -/
theorem left_eq (hi : i < max) : left max i = .ok (Heap.left i) := by
  rw [left, usize, if_pos (by omega), Rust.ok_bind, usize, if_pos (by omega), Heap.left]

theorem right_eq (hi : i < max) : right max i = .ok (Heap.right i) := by
  rw [right, usize, if_pos (by omega), Rust.ok_bind, usize, if_pos (by omega), Heap.right]

/-! ## The loops end, whatever the comparator answers -/

/-- **The loop of `sift_up`**: the index becomes smaller in every round. -/
theorem siftUpLoop_keeps {fuel : ℕ} (h : Whole stored p) (hi : i < p.heap.len)
    (hfuel : i < fuel) : Keeps stored (siftUpLoop cmp fuel p i) (Whole stored) := by
  induction fuel generalizing p i with
  | zero => omega
  | succ fuel ih =>
    by_cases hpos : i > 0
    · have hlt : Heap.parent i < i := by unfold Heap.parent; omega
      simp only [siftUpLoop, if_pos hpos, Probe.checked, parent_eq hpos, Except.mapError,
        probed_bind]
      refine (h.compare (hlt.trans hi) hi).bind fun r hr => ?_
      obtain ⟨p₁, ord⟩ := r
      cases ord with
      | lt | eq => exact hr
      | gt =>
        have hlen : p₁.heap.len = p.heap.len := hr.len.trans h.len.symm
        refine (hr.swap (hlen.symm ▸ hi) (hlen.symm ▸ hlt.trans hi)).bind fun p₂ hp₂ => ?_
        have hlen₂ : p₂.heap.len = p.heap.len := hp₂.len.trans h.len.symm
        exact ih hp₂ (hlen₂.symm ▸ hlt.trans hi) (by omega)
    · rw [siftUpLoop, if_neg hpos]
      exact h

theorem siftUp_keeps (h : Whole stored p) : Keeps stored (siftUp cmp p) (Whole stored) := by
  unfold siftUp
  split_ifs with hlen
  · exact h
  · simp only [Probe.checked, pred_eq (show 0 < p.heap.len by omega), Except.mapError, probed_bind]
    exact siftUpLoop_keeps h (by omega) (by omega)

/-- The child to compare with is a child. -/
theorem smallerChild_keeps (h : Whole stored p) (hi : i < max)
    (hleft : Heap.left i < p.heap.len) :
    Keeps stored (smallerChild max cmp p i (Heap.left i)) fun r =>
      Whole stored r.1 ∧ i < r.2 ∧ r.2 < p.heap.len := by
  simp only [smallerChild, Probe.checked, right_eq hi, Except.mapError, probed_bind]
  have hlt : i < Heap.left i := by unfold Heap.left; omega
  have hlt' : i < Heap.right i := by unfold Heap.right; omega
  split_ifs with hright
  · refine (h.compare hright hleft).bind fun r hr => ⟨hr, ?_⟩
    dsimp only
    split_ifs
    · exact ⟨hlt', hright⟩
    · exact ⟨hlt, hleft⟩
  · exact ⟨h, hlt, hleft⟩

/-- **The loop of `sift_down`**: the index becomes larger in every round. -/
theorem siftDownLoop_keeps {fuel : ℕ} (h : Whole stored p) (hmax : stored.length ≤ max)
    (hfuel : p.heap.len - i < fuel) :
    Keeps stored (siftDownLoop max cmp fuel p i) (Whole stored) := by
  induction fuel generalizing p i with
  | zero => omega
  | succ fuel ih =>
    have hlen := h.len
    by_cases hi : i < p.heap.len
    · simp only [siftDownLoop, if_pos hi, Probe.checked, left_eq (show i < max by omega),
        Except.mapError, probed_bind]
      split_ifs with hleft
      · exact h
      · refine (smallerChild_keeps h (by omega) (Nat.lt_of_not_le hleft)).bind fun r hr => ?_
        obtain ⟨p₁, child⟩ := r
        obtain ⟨hp₁, hchild, hlt⟩ := hr
        have hlen₁ : p₁.heap.len = p.heap.len := hp₁.len.trans hlen.symm
        refine (hp₁.compare (hlen₁.symm ▸ hi) (hlen₁.symm ▸ hlt)).bind fun r hr => ?_
        obtain ⟨p₂, ord⟩ := r
        cases ord with
        | lt | eq => exact hr
        | gt =>
          have hlen₂ : p₂.heap.len = p.heap.len := hr.len.trans hlen.symm
          refine (hr.swap (hlen₂.symm ▸ hi) (hlen₂.symm ▸ hlt)).bind fun p₃ hp₃ => ?_
          have hlen₃ : p₃.heap.len = p.heap.len := hp₃.len.trans hlen.symm
          exact ih hp₃ (by dsimp only at hchild hlt ⊢; omega)
    · rw [siftDownLoop, if_neg hi]
      exact h

theorem siftDown_keeps (h : Whole stored p) (hmax : stored.length ≤ max) :
    Keeps stored (siftDown max cmp p) (Whole stored) := by
  unfold siftDown
  split_ifs with hlen
  · exact h
  · exact siftDownLoop_keeps h hmax (by omega)

end Probe

/-! ## The calls -/

section Calls

variable {max : ℕ} {cmp : Comparator T σ}

/-- **`push` adds the element.** -/
theorem push_keeps (h : Heap T σ) (x : T) :
    Keeps (x :: h.data) (push cmp h x) (Whole (x :: h.data)) :=
  siftUp_keeps ⟨List.perm_append_singleton x h.data, fun _ hdata => by cases hdata⟩

/-- `pop` of an empty heap. -/
theorem pop_nil {h : Heap T σ} (hnil : h.data = []) : pop max cmp h = .ok (⟨h, []⟩, none) := by
  rw [pop]
  exact if_pos (by rw [Heap.isEmpty, hnil]; rfl)

/-- **`pop` takes out the element that was at index 0.** -/
theorem pop_keeps {h : Heap T σ} {a : T} (ha : h.data[0]? = some a) (hmax : h.len ≤ max) :
    ∃ rest, (a :: rest).Perm h.data
      ∧ Keeps rest (pop max cmp h) fun r => r.2 = some a ∧ Whole rest r.1 := by
  have hpos : 0 < h.data.length := (List.getElem?_eq_some_iff.mp ha).1
  have hlast : h.data.length - 1 < h.data.length := by omega
  set swapped := (h.data.set 0 h.data[h.data.length - 1]).set (h.data.length - 1) h.data[0]
    with hswapped
  have hget : h.data[0] = a := (List.getElem?_eq_some_iff.mp ha).2
  have hres : swapped.getLast? = some a := by
    rw [List.getLast?_eq_getElem?, hswapped, List.length_set, List.length_set,
      List.getElem?_set_self (by rw [List.length_set]; exact hlast), hget]
  have hperm : (a :: swapped.dropLast).Perm h.data := by
    have hsplit : swapped.dropLast ++ [a] = swapped := List.dropLast_append_getLast? a hres
    refine (List.perm_append_singleton a _).symm.trans ?_
    rw [hsplit]
    exact List.set_set_perm hpos hlast
  have hswap : (⟨h, []⟩ : Probe T σ).swap 0 (h.len - 1) = .ok ⟨⟨swapped, h.captured⟩, []⟩ := by
    simp only [Probe.swap, Heap.swap, Heap.len, List.getElem?_eq_getElem hpos,
      List.getElem?_eq_getElem hlast, hswapped]
  have hempty : ¬ h.isEmpty = true := by
    rw [Heap.isEmpty, List.isEmpty_iff]
    exact List.ne_nil_of_length_pos hpos
  have hwhole : Whole swapped.dropLast
      (⟨⟨swapped.dropLast, h.captured⟩, []⟩ : Probe T σ) := ⟨.refl _, fun _ hd => by cases hd⟩
  have hlen : swapped.dropLast.length ≤ max := by
    have := hperm.length_eq
    rw [List.length_cons] at this
    unfold Heap.len at hmax
    omega
  simp only [pop, if_neg hempty, Probe.checked, pred_eq hpos, Heap.len, Except.mapError,
    probed_bind, show (⟨h, []⟩ : Probe T σ).swap 0 (h.data.length - 1) = _ from hswap, hres]
  exact ⟨swapped.dropLast, hperm, (siftDown_keeps hwhole hlen).bind fun p hp => ⟨rfl, hp⟩⟩

end Calls

/-! ## The checks change nothing -/

section Forget

variable {max i j : ℕ} {cmp : Comparator T σ} {p q : Probe T σ}

/-- The result without the record. -/
def forget (f : α → β) : Probed T α → Except (Halt T) β
  | .ok a => .ok (f a)
  | .error e => .error e.1

theorem compare_forget : p.heap.compare cmp i j
    = forget (fun r => (r.1.heap, r.2)) (p.compare cmp i j) := by
  unfold Heap.compare Probe.compare
  cases p.heap.data[i]? with
  | none => rfl
  | some a =>
    cases p.heap.data[j]? with
    | none => rfl
    | some b =>
      dsimp only
      cases cmp p.heap.captured a b <;> rfl

theorem swap_forget : p.heap.swap i j = forget Probe.heap (p.swap i j) := by
  unfold Probe.swap
  cases p.heap.swap i j <;> rfl

theorem len_of_compare {ord : Ordering} (h : p.compare cmp i j = .ok (q, ord)) :
    q.heap.len = p.heap.len := by
  unfold Probe.compare at h
  split at h
  · split at h
    · obtain ⟨rfl, -⟩ := Prod.mk.inj (Except.ok.inj h)
      rfl
    · cases h
  · cases h

theorem len_of_swap (h : p.swap i j = .ok q) : q.heap.len = p.heap.len := by
  unfold Probe.swap Heap.swap at h
  split at h
  · rename_i heap hswap
    split at hswap
    · obtain rfl := Except.ok.inj h
      obtain rfl := Except.ok.inj hswap
      simp [Heap.len]
    · cases hswap
  · cases h

theorem siftUpLoop_forget (fuel : ℕ) :
    forget Probe.heap (siftUpLoop cmp fuel p i) = Heap.siftUpLoop cmp fuel p.heap i := by
  induction fuel generalizing p i with
  | zero => rfl
  | succ fuel ih =>
    by_cases hpos : i > 0
    · simp only [siftUpLoop, Heap.siftUpLoop, if_pos hpos, Probe.checked, parent_eq hpos,
        Except.mapError, probed_bind, compare_forget]
      cases p.compare cmp (Heap.parent i) i with
      | error e => rfl
      | ok r =>
        obtain ⟨p₁, ord⟩ := r
        cases ord with
        | lt | eq => rfl
        | gt =>
          simp only [forget, probed_bind, ok_bind, swap_forget]
          cases p₁.swap i (Heap.parent i) with
          | error e => rfl
          | ok p₂ => exact ih
    · simp only [siftUpLoop, Heap.siftUpLoop, if_neg hpos, forget]

/-- **`push` is `push`**, with a record of what the comparator saw. -/
theorem push_forget (h : Heap T σ) (x : T) :
    forget Probe.heap (push cmp h x) = h.push cmp x := by
  unfold push Heap.push siftUp Heap.siftUp
  split_ifs with hlen
  · rfl
  · simp only [Probe.checked, pred_eq (Nat.lt_of_succ_lt (Nat.lt_of_not_le hlen)), Except.mapError,
      probed_bind, siftUpLoop_forget]

theorem smallerChild_forget (hi : i < max) : p.heap.smallerChild cmp i
    = forget (fun r => (r.1.heap, r.2)) (smallerChild max cmp p i (Heap.left i)) := by
  simp only [smallerChild, Heap.smallerChild, Probe.checked, right_eq hi, Except.mapError,
    probed_bind]
  split_ifs with hright
  · rw [compare_forget]
    cases p.compare cmp (Heap.right i) (Heap.left i) <;> rfl
  · rfl

theorem len_of_smallerChild {l c : ℕ} (hi : i < max)
    (h : smallerChild max cmp p i l = .ok (q, c)) : q.heap.len = p.heap.len := by
  simp only [smallerChild, Probe.checked, right_eq hi, Except.mapError, probed_bind] at h
  split_ifs at h with hright
  · cases hcmp : p.compare cmp (Heap.right i) l with
    | error e =>
      rw [hcmp] at h
      cases h
    | ok r =>
      rw [hcmp] at h
      obtain ⟨rfl, -⟩ := Prod.mk.inj (Except.ok.inj h)
      exact len_of_compare hcmp
  · obtain ⟨rfl, -⟩ := Prod.mk.inj (Except.ok.inj h)
    rfl

theorem siftDownLoop_forget (fuel : ℕ) (hmax : p.heap.len ≤ max) :
    forget Probe.heap (siftDownLoop max cmp fuel p i) = Heap.siftDownLoop cmp fuel p.heap i := by
  induction fuel generalizing p i with
  | zero => rfl
  | succ fuel ih =>
    by_cases hi : i < p.heap.len
    · have himax : i < max := hi.trans_le hmax
      simp only [siftDownLoop, Heap.siftDownLoop, if_pos hi, Probe.checked, left_eq himax,
        Except.mapError, probed_bind]
      split_ifs with hleft
      · rfl
      · rw [smallerChild_forget himax]
        cases hsmaller : smallerChild max cmp p i (Heap.left i) with
        | error e => rfl
        | ok r =>
          obtain ⟨p₁, child⟩ := r
          have hlen₁ := len_of_smallerChild himax hsmaller
          simp only [forget, probed_bind, ok_bind, compare_forget]
          cases hcmp : p₁.compare cmp i child with
          | error e => rfl
          | ok r =>
            obtain ⟨p₂, ord⟩ := r
            have hlen₂ := len_of_compare hcmp
            cases ord with
            | lt | eq => rfl
            | gt =>
              simp only [forget, probed_bind, ok_bind, swap_forget]
              cases hswap : p₂.swap i child with
              | error e => rfl
              | ok p₃ =>
                have hlen₃ := len_of_swap hswap
                exact ih (by omega)
    · simp only [siftDownLoop, Heap.siftDownLoop, if_neg hi, forget]

theorem siftDown_forget (hmax : p.heap.len ≤ max) :
    forget Probe.heap (siftDown max cmp p) = Heap.siftDown cmp p.heap := by
  unfold siftDown Heap.siftDown
  split_ifs with hlen
  · rfl
  · exact siftDownLoop_forget _ hmax

/-- **And `pop` is `pop`**, of a heap of at most `isize::MAX` elements. -/
theorem pop_forget {h : Heap T σ} (hmax : h.len ≤ max) :
    forget (fun r => (r.1.heap, r.2)) (pop max cmp h) = h.pop cmp := by
  have hlen : h.data.length ≤ max := hmax
  unfold pop Heap.pop
  dsimp only
  split_ifs with hempty
  · rfl
  · have hpos : 0 < h.len := by
      rw [Heap.isEmpty, List.isEmpty_iff] at hempty
      exact List.length_pos_of_ne_nil hempty
    simp only [Probe.checked, pred_eq hpos, Except.mapError, probed_bind,
      show h.swap 0 (h.len - 1) = forget Probe.heap ((⟨h, []⟩ : Probe T σ).swap 0 (h.len - 1)) from
        swap_forget (p := ⟨h, []⟩)]
    cases hswap : (⟨h, []⟩ : Probe T σ).swap 0 (h.len - 1) with
    | error e => rfl
    | ok p =>
      have hlast : p.heap.data.dropLast.length ≤ max := by
        have hlen' : p.heap.data.length = h.data.length := len_of_swap hswap
        rw [List.length_dropLast]
        omega
      have hsift : forget Probe.heap
          (siftDown max cmp ⟨⟨p.heap.data.dropLast, p.heap.captured⟩, p.seen⟩)
            = Heap.siftDown cmp ⟨p.heap.data.dropLast, p.heap.captured⟩ := siftDown_forget hlast
      simp only [forget, probed_bind, ok_bind, ← hsift]
      cases siftDown max cmp ⟨⟨p.heap.data.dropLast, p.heap.captured⟩, p.seen⟩ <;> rfl

end Forget

/-! ## Over every run -/

section Run

variable {max : ℕ} {cmp : Comparator T σ} {captured : σ} {s s' : State T σ} {a : Op T × σ}

/-- The vector holds no more than it can, and every element pushed is in it, has
been popped, or was dropped with a `pop` that panicked. -/
def State.Accounted (max : ℕ) (s : State T σ) : Prop :=
  s.heap.len ≤ max ∧ (s.heap.data ++ s.popped ++ s.dropped).Perm s.pushed

/-- **A call keeps the account.** -/
theorem step_accounted (hs : s.Accounted max)
    (hnext : (system max cmp captured).next s a = some s') : s'.Accounted max := by
  obtain ⟨op, left⟩ := a
  obtain ⟨hmax, hperm⟩ := hs
  cases op with
  | push x =>
    dsimp only [system] at hnext
    split_ifs at hnext with hlen
    have hkeeps : Keeps (x :: s.heap.data) (push cmp s.heap x) (Whole (x :: s.heap.data)) :=
      push_keeps s.heap x
    have hadd : ∀ data : List T, data.Perm (x :: s.heap.data) →
        data.length ≤ max ∧ (data ++ s.popped ++ s.dropped).Perm (x :: s.pushed) := by
      intro data hdata
      refine ⟨hdata.length_eq.trans_le hlen, ?_⟩
      exact ((hdata.append_right _).append_right _).trans (hperm.cons x)
    -- the call returns, or the comparator panics with the element in the vector
    split at hnext
    · rename_i p hp
      rw [hp] at hkeeps
      exact Option.some.inj hnext ▸ hadd p.heap.data hkeeps.data
    · rename_i data seen hp
      rw [hp] at hkeeps
      obtain ⟨⟨data', hdata', hpanic⟩, -⟩ := hkeeps
      obtain rfl := Halt.panicked.inj hdata'
      exact Option.some.inj hnext ▸ hadd data hpanic
    · cases hnext
  | pop =>
    dsimp only [system] at hnext
    cases hpeek : s.heap.data[0]? with
    | none =>
      have hnil : s.heap.data = [] := by
        rw [← List.length_eq_zero_iff]
        exact Nat.le_zero.mp (List.getElem?_eq_none_iff.mp hpeek)
      rw [pop_nil hnil] at hnext
      exact Option.some.inj hnext ▸ ⟨hmax, hperm⟩
    | some x =>
      obtain ⟨rest, hrest, hkeeps⟩ := @pop_keeps _ _ _ cmp _ _ hpeek hmax
      have hlen : rest.length ≤ max := by
        have hlen : rest.length + 1 = s.heap.len := hrest.length_eq
        omega
      have htake : ∀ data : List T, data.Perm rest → data.length ≤ max := fun data hdata =>
        hdata.length_eq.trans_le hlen
      split at hnext
      · -- the element taken out is returned
        rename_i p res hp
        rw [hp] at hkeeps
        obtain ⟨rfl, hwhole⟩ := hkeeps
        refine Option.some.inj hnext ▸ ⟨htake _ hwhole.data, ?_⟩
        refine List.Perm.trans (List.Perm.append_right _ ?_) hperm
        exact List.perm_middle.trans
          ((((hwhole.data.append_right _).cons x)).trans (hrest.append_right _))
      · -- or dropped by the panic
        rename_i data seen hp
        rw [hp] at hkeeps
        obtain ⟨⟨data', hdata', hpanic⟩, -⟩ := hkeeps
        obtain rfl := Halt.panicked.inj hdata'
        refine Option.some.inj hnext ▸ ⟨htake _ hpanic, ?_⟩
        rw [show s.heap.peek = some x from hpeek]
        refine List.Perm.trans ?_ hperm
        exact List.perm_middle.trans
          ((((hpanic.append_right _).cons x).trans (hrest.append_right _)).append_right _)
      · cases hnext

/-- **A heap whose calls keep its elements**, whatever the comparator does. -/
structure Robust (max : ℕ) (cmp : Comparator T σ) (h : Heap T σ) : Prop where
  /-- `push` adds the element it is given. -/
  push : ∀ x, h.len < max → Keeps (x :: h.data) (push cmp h x) (Whole (x :: h.data))
  /-- `pop` of an empty heap does nothing. -/
  pop_empty : h.data = [] → pop max cmp h = .ok (⟨h, []⟩, none)
  /-- And of another takes out the element at index 0. -/
  pop : ∀ a, h.data[0]? = some a → ∃ rest, (a :: rest).Perm h.data
    ∧ Keeps rest (pop max cmp h) fun r => r.2 = some a ∧ Whole rest r.1

/-- **No comparator makes a heap lose or duplicate a stored element**: those
pushed are stored, or have been popped, or were taken out by a `pop` that
panicked. -/
theorem robust_of_reachable (hs : (system max cmp captured).Reachable s) :
    s.heap.len ≤ max ∧ (s.heap.data ++ s.popped ++ s.dropped).Perm s.pushed
      ∧ Robust max cmp s.heap := by
  have hinv : s.Accounted max := hs.invariant (I := State.Accounted max) ⟨Nat.zero_le max, .refl _⟩
    fun _ _ _ _ hs _ hnext => step_accounted hs hnext
  exact ⟨hinv.1, hinv.2, fun x _ => push_keeps s.heap x, pop_nil, fun _ ha => pop_keeps ha hinv.1⟩

/-- A comparator that answers `Greater` to every question, and panics at every
third. -/
def contrary : Comparator ℕ ℕ := fun asked _ _ =>
  if asked % 3 = 2 then none else some (.gt, asked + 1)

/-- Four elements pushed, in the last case with a panic, a `pop` that returns, and
one in which it panics. -/
theorem robust_of_reachable_contrary :
    ([9, 8] ++ [7] ++ [4] : List ℕ).Perm [8, 7, 9, 4] ∧ Robust 100 contrary ⟨[9, 8], 1⟩ :=
  have hrun : (system 100 contrary 0).run (system 100 contrary 0).init
      [(.push 4, 0), (.push 9, 0), (.push 7, 0), (.push 8, 0), (.pop, 0), (.pop, 1)]
      = some ⟨⟨[9, 8], 1⟩, [8, 7, 9, 4], [7], [4]⟩ := rfl
  (robust_of_reachable (.of_run hrun)).2

/-- **A `pop` whose comparator panics drops what it has taken out**: of three
elements pushed without a panic two are left, and none has been returned. -/
theorem not_perm_of_pop_panicked :
    ∃ s s' : State ℕ ℕ, (system 100 contrary 0).run (system 100 contrary 0).init
        [(.push 1, 0), (.push 2, 0), (.push 3, 0)] = some s
      ∧ s.heap.data = [3, 1, 2]
      ∧ pop 100 contrary s.heap = .error (.panicked [2, 1], [[2, 1]])
      ∧ (system 100 contrary 0).next s (.pop, 0) = some s'
      ∧ s'.pushed = [3, 2, 1] ∧ ¬ (s'.heap.data ++ s'.popped).Perm s'.pushed :=
  ⟨_, _, rfl, rfl, rfl, rfl, rfl, by decide⟩

end Run

end Machine

end Heap
