import Algors.Heap.Order
import Mathlib.Data.Multiset.AddSub

/-!
# What a heap holds

Over every run of pushes and pops, with a comparator that is a total preorder:
the elements held are those pushed and not popped, the one at the root is
least, and it is the one that the next pop hands back. So a heap filled from a
list and then emptied sorts the list.
-/

namespace Heap

open HeapOrder

variable {T : Type} {cmp : T → T → Ordering} {h : Heap T Unit} {x : T}

/-! ## Push and pop -/

theorem row_append_of_lt {i : ℕ} (hi : i < h.len) :
    row ⟨h.data ++ [x], ()⟩ i = h.row i := List.getElem?_append_left hi

section Calls

variable [Std.TransCmp cmp]

omit [Std.TransCmp cmp] in
/-- An element at the end of an ordered heap may be above no other. -/
theorem Ordered.orderedUp_append (hord : h.Ordered cmp) (x : T) :
    OrderedUp (Before cmp) (row ⟨h.data ++ [x], ()⟩) h.len := by
  have hpast : ∀ c, h.len < c → row ⟨h.data ++ [x], ()⟩ c = none := fun c hc =>
    row_of_le (by simpa [len] using hc)
  constructor
  · intro c hc hne
    rcases Nat.lt_or_gt_of_ne hne with hlt | hgt
    · rw [row_append_of_lt hlt, row_append_of_lt ((parent_lt hc).trans hlt)]
      exact hord c hc
    · rw [hpast c hgt]
      exact before_none _
  · intro _ c hc
    rw [hpast c hc.lt]
    exact before_none _

/-- **A push** returns, keeps the order and adds the element. -/
theorem push_spec (hord : h.Ordered cmp) (x : T) : ∃ h', h.push (.pure cmp) x = .ok h'
    ∧ h'.data.Perm (x :: h.data) ∧ h'.Ordered cmp := by
  have hlen : (⟨h.data ++ [x], ()⟩ : Heap T Unit).len = h.len + 1 := by simp [len]
  have hperm : (h.data ++ [x]).Perm (x :: h.data) := List.perm_append_singleton x h.data
  by_cases hone : (⟨h.data ++ [x], ()⟩ : Heap T Unit).len ≤ 1
  · exact ⟨_, by rw [push, siftUp, if_pos hone], hperm, ordered_of_len_le_one hone⟩
  · obtain ⟨h', hloop, hperm', hord'⟩ := @siftUpLoop_spec _ cmp ⟨h.data ++ [x], ()⟩ h.len _
      (h.len + 1) (by omega) (hord.orderedUp_append x) (Nat.lt_succ_self _)
    refine ⟨h', ?_, hperm'.trans hperm, hord'⟩
    rw [push, siftUp, if_neg hone, hlen, Nat.add_sub_cancel, hloop]

omit [Std.TransCmp cmp] in
/-- The root of an ordered heap may be any element, once it is above its
children only. -/
theorem Ordered.orderedDown_swap_dropLast {h₁ : Heap T Unit} (hord : h.Ordered cmp)
    (hlen : h₁.len = h.len) (hrow : h₁.row = swapped h.row 0 (h.len - 1)) :
    OrderedDown (Before cmp) (row ⟨h₁.data.dropLast, ()⟩) 0 := by
  have hdrop : ∀ i, row ⟨h₁.data.dropLast, ()⟩ i = if i < h.len - 1 then h₁.row i else none := by
    intro i
    rw [← hlen]
    exact List.getElem?_dropLast
  refine ⟨fun c hc hne => ?_, fun h0 => absurd h0 (Nat.lt_irrefl 0)⟩
  rw [hdrop c]
  split_ifs with hlt
  · have hpc := parent_lt hc
    rw [hdrop, if_pos (hpc.trans hlt), hrow, swapped_of_ne _ hne (by omega),
      swapped_of_ne _ hc.ne' hlt.ne]
    exact hord c hc
  · exact before_none _

/-- **A pop from a heap with elements** returns what `peek` does, keeps the
order and takes the element away. -/
theorem pop_spec {a : T} (hord : h.Ordered cmp) (ha : h.peek = some a) : ∃ h',
    h.pop (.pure cmp) = .ok (h', some a) ∧ h.data.Perm (a :: h'.data) ∧ h'.Ordered cmp := by
  have hroot : h.row 0 = some a := ha
  have hpos : 0 < h.len := lt_of_row hroot
  have hne : h.isEmpty = false := by
    rw [isEmpty, List.isEmpty_eq_false_iff]
    exact List.ne_nil_of_length_pos hpos
  obtain ⟨b, hb⟩ := exists_row (show h.len - 1 < h.len by omega)
  obtain ⟨h₁, hswap, hlen, hperm, hrow⟩ := swap_eq hroot hb
  have hlast : h₁.data.getLast? = some a := by
    rw [List.getLast?_eq_getElem?, show h₁.data.length = h.len from hlen]
    show h₁.row (h.len - 1) = some a
    rw [hrow, swapped_right, hroot]
  have hsplit : h.data.Perm (a :: h₁.data.dropLast) := by
    have hconcat : h₁.data.dropLast ++ [a] = h₁.data :=
      List.dropLast_append_getLast? a hlast
    rw [← hconcat] at hperm
    exact hperm.symm.trans (List.perm_append_singleton a _)
  by_cases hone : (⟨h₁.data.dropLast, ()⟩ : Heap T Unit).len ≤ 1
  · refine ⟨⟨h₁.data.dropLast, ()⟩, ?_, hsplit, ordered_of_len_le_one hone⟩
    simp only [pop, hne, Bool.false_eq_true, if_false, hswap, ok_bind, siftDown, if_pos hone, hlast]
  · obtain ⟨h', hloop, hperm', hord'⟩ := @siftDownLoop_spec _ cmp ⟨h₁.data.dropLast, ()⟩ 0 _
      (h₁.data.dropLast.length + 1) (by omega) (hord.orderedDown_swap_dropLast hlen hrow)
      (Nat.lt_succ_of_le (Nat.sub_le _ _))
    refine ⟨h', ?_, hsplit.trans (.cons a hperm'.symm), hord'⟩
    simp only [pop, hne, Bool.false_eq_true, if_false, hswap, ok_bind, siftDown, if_neg hone, hlast]
    rw [show (⟨h₁.data.dropLast, ()⟩ : Heap T Unit).len = h₁.data.dropLast.length from rfl, hloop]
    rfl

omit [Std.TransCmp cmp] in
/-- A pop from an empty heap. -/
theorem pop_eq_none (hpeek : h.peek = none) : h.pop (.pure cmp) = .ok (h, none) := by
  have hempty : h.isEmpty := List.isEmpty_iff_length_eq_zero.mpr
    (Nat.le_zero.mp (List.getElem?_eq_none_iff.mp hpeek))
  rw [pop, if_pos hempty]

/-- The root of an ordered heap is least. -/
theorem Ordered.peek_le {a b : T} (hord : h.Ordered cmp) (ha : h.peek = some a) (hb : b ∈ h.data) :
    cmp a b ≠ .gt := by
  obtain ⟨i, hi⟩ := List.mem_iff_getElem?.mp hb
  have hle := HeapOrder.Ordered.root_le hord i
  rwa [show h.row 0 = some a from ha, show h.row i = some b from hi] at hle

end Calls

/-! ## Runs -/

/-- **A heap between the calls**, with what was pushed and popped before. -/
structure Correct (cmp : T → T → Ordering) (s : State T Unit) : Prop where
  /-- No element is greater than a child of it. -/
  ordered : ∀ i c a b, c = left i ∨ c = right i → s.heap.data[i]? = some a →
    s.heap.data[c]? = some b → cmp a b ≠ .gt
  /-- What is stored is what was pushed less what was popped. -/
  stored : (s.heap.data : Multiset T) + s.popped = s.pushed
  /-- `peek` is an element stored, and least of them. -/
  peek_least : ∀ a, s.heap.peek = some a → a ∈ s.heap.data ∧ ∀ b ∈ s.heap.data, cmp a b ≠ .gt
  /-- The next pop returns, with what `peek` returns. -/
  pop_peek : ∃ h, s.heap.pop (.pure cmp) = .ok (h, s.heap.peek)
  /-- The next pop returns nothing just when nothing is stored. -/
  pop_none : (∃ h, s.heap.pop (.pure cmp) = .ok (h, none)) ↔ s.heap.data = []
  /-- The next push returns. -/
  push_returns : ∀ x, ∃ h, s.heap.push (.pure cmp) x = .ok h

section Runs

variable [Std.TransCmp cmp] {s s' : State T Unit} {op : Op T}

omit [Std.TransCmp cmp] in
/-- A call that returns has its successor. -/
theorem next_eq_some (hnext : (system (.pure cmp) ()).next s op = some s') : ∃ h res,
    s.heap.apply (.pure cmp) op = .ok (h, res)
      ∧ s' = ⟨h, op.pushed ++ s.pushed, res.toList ++ s.popped⟩ := by
  simp only [system, Option.map_eq_some_iff] at hnext
  obtain ⟨⟨h, res⟩, hp, rfl⟩ := hnext
  cases happly : s.heap.apply (.pure cmp) op with
  | error e =>
    rw [happly] at hp
    exact absurd hp (by simp [Except.toOption])
  | ok p =>
    rw [happly] at hp
    exact ⟨h, res, congrArg Except.ok (Option.some.inj hp), rfl⟩

/-- **A call** keeps the order, and the elements but those it pushes and
pops. -/
theorem step_spec (hord : s.heap.Ordered cmp)
    (hnext : (system (.pure cmp) ()).next s op = some s') : s'.heap.Ordered cmp
      ∧ (s'.heap.data ++ s'.popped).Perm (op.pushed ++ (s.heap.data ++ s.popped)) := by
  obtain ⟨h, res, happly, rfl⟩ := next_eq_some hnext
  cases op with
  | push x =>
    obtain ⟨h', hpush, hperm, hord'⟩ := push_spec hord x
    simp only [apply, hpush, ok_bind, Except.ok.injEq, Prod.mk.injEq] at happly
    obtain ⟨rfl, rfl⟩ := happly
    exact ⟨hord', hperm.append_right s.popped⟩
  | pop =>
    cases hpeek : s.heap.peek with
    | none =>
      simp only [apply, pop_eq_none hpeek, Except.ok.injEq, Prod.mk.injEq] at happly
      obtain ⟨rfl, rfl⟩ := happly
      exact ⟨hord, .refl _⟩
    | some a =>
      obtain ⟨h', hpop, hperm, hord'⟩ := pop_spec hord hpeek
      simp only [apply, hpop, Except.ok.injEq, Prod.mk.injEq] at happly
      obtain ⟨rfl, rfl⟩ := happly
      exact ⟨hord', List.perm_middle.trans (hperm.append_right s.popped).symm⟩

/-- In every run the heap is ordered, and holds what was pushed and not
popped. -/
theorem ordered_of_reachable (hs : (system (.pure cmp) ()).Reachable s) :
    s.heap.Ordered cmp ∧ (s.heap.data ++ s.popped).Perm s.pushed := by
  have hnew : (new () : Heap T Unit).Ordered cmp := ordered_of_len_le_one (Nat.zero_le 1)
  refine hs.invariant (I := fun s => s.heap.Ordered cmp ∧ (s.heap.data ++ s.popped).Perm s.pushed)
    ⟨hnew, .refl _⟩ ?_
  intro s op s' _ hinv _ hnext
  obtain ⟨hord, hperm⟩ := step_spec hinv.1 hnext
  obtain ⟨h, res, -, rfl⟩ := next_eq_some hnext
  exact ⟨hord, hperm.trans (hinv.2.append_left _)⟩

/-- **Over every run a heap is correct.** -/
theorem correct_of_reachable (hs : (system (.pure cmp) ()).Reachable s) : Correct cmp s where
  ordered i c a b hc ha hb := by
    have hchild : IsChild c i := by
      rcases hc with rfl | rfl
      · exact isChild_left i
      · exact isChild_right i
    have hle := (ordered_of_reachable hs).1 c hchild.1
    rwa [hchild.2, show s.heap.row i = some a from ha, show s.heap.row c = some b from hb] at hle
  stored := by
    rw [Multiset.coe_add]
    exact Multiset.coe_eq_coe.mpr (ordered_of_reachable hs).2
  peek_least a ha :=
    ⟨List.mem_of_getElem? ha, fun b hb => (ordered_of_reachable hs).1.peek_le ha hb⟩
  pop_peek := by
    cases hpeek : s.heap.peek with
    | none => exact ⟨_, pop_eq_none hpeek⟩
    | some a =>
      obtain ⟨h, hpop, -, -⟩ := pop_spec (ordered_of_reachable hs).1 hpeek
      exact ⟨h, hpop⟩
  pop_none := by
    constructor
    · rintro ⟨h, hpop⟩
      cases hpeek : s.heap.peek with
      | none =>
        exact List.length_eq_zero_iff.mp (Nat.le_zero.mp (List.getElem?_eq_none_iff.mp hpeek))
      | some a =>
        obtain ⟨h', hpop', -, -⟩ := pop_spec (ordered_of_reachable hs).1 hpeek
        rw [hpop] at hpop'
        simp at hpop'
    · intro hnil
      exact ⟨_, pop_eq_none (by rw [peek, hnil]; rfl)⟩
  push_returns x := by
    obtain ⟨h, hpush, -, -⟩ := push_spec (ordered_of_reachable hs).1 x
    exact ⟨h, hpush⟩

end Runs

/-! ## Sorting -/

section Sorting

variable [Std.TransCmp cmp]

theorem pushAll_spec (l : List T) (hord : h.Ordered cmp) : ∃ h', h.pushAll (.pure cmp) l = .ok h'
    ∧ h'.data.Perm (l ++ h.data) ∧ h'.Ordered cmp := by
  induction l generalizing h with
  | nil => exact ⟨h, rfl, .refl _, hord⟩
  | cons x l ih =>
    obtain ⟨h₁, hpush, hperm, hord₁⟩ := push_spec hord x
    obtain ⟨h', hall, hperm', hord'⟩ := ih hord₁
    refine ⟨h', by simp only [pushAll, hpush, ok_bind, hall], ?_, hord'⟩
    exact hperm'.trans ((hperm.append_left l).trans List.perm_middle)

theorem drain_spec (hord : h.Ordered cmp) : ∃ vals, vals.Perm h.data
    ∧ vals.Pairwise (fun a b => cmp a b ≠ .gt)
    ∧ ∀ fuel, h.len < fuel → h.drain (.pure cmp) fuel = .ok vals := by
  induction hlen : h.len generalizing h with
  | zero =>
    have hnil : h.data = [] := List.length_eq_zero_iff.mp hlen
    have hpop := @pop_eq_none _ cmp h (by rw [peek, hnil]; rfl)
    refine ⟨[], by rw [hnil], .nil, fun fuel hfuel => ?_⟩
    obtain ⟨fuel, rfl⟩ := Nat.exists_eq_add_of_lt hfuel
    simp only [Nat.zero_add, drain, hpop, ok_bind]
  | succ n ih =>
    obtain ⟨a, ha⟩ := exists_row (show 0 < h.len by omega)
    obtain ⟨h', hpop, hperm, hord'⟩ := pop_spec hord ha
    have hlen' : h'.len = n := by
      have := hperm.length_eq
      rw [List.length_cons] at this
      unfold len at hlen ⊢
      omega
    obtain ⟨vals, hvals, hsorted, hdrain⟩ := ih hord' hlen'
    refine ⟨a :: vals, (hvals.cons a).trans hperm.symm, .cons ?_ hsorted, fun fuel hfuel => ?_⟩
    · exact fun b hb => hord.peek_le ha (hperm.mem_iff.mpr (.tail _ (hvals.mem_iff.mp hb)))
    · obtain ⟨fuel, rfl⟩ := Nat.exists_eq_succ_of_ne_zero (Nat.ne_zero_of_lt hfuel)
      simp only [drain, hpop, ok_bind, hdrain fuel (by omega)]

/-- **Pushing a list and popping until nothing is left sorts it.** -/
theorem sorts (l : List T) : ∃ h vals, pushAll (.pure cmp) (new ()) l = .ok h
    ∧ vals.Perm l ∧ vals.Pairwise (fun a b => cmp a b ≠ .gt)
    ∧ ∀ fuel, l.length < fuel → h.drain (.pure cmp) fuel = .ok vals := by
  obtain ⟨h, hall, hperm, hord⟩ := @pushAll_spec _ cmp (new ()) _ l
    (ordered_of_len_le_one (Nat.zero_le 1))
  rw [show (new () : Heap T Unit).data = [] from rfl, List.append_nil] at hperm
  obtain ⟨vals, hvals, hsorted, hdrain⟩ := drain_spec hord
  refine ⟨h, vals, hall, hvals.trans hperm, hsorted, fun fuel hfuel => hdrain fuel ?_⟩
  rwa [len, hperm.length_eq]

end Sorting

/-- **The heap is a priority queue**: in every run of pushes and pops it is
correct after every call, and filling it from a list and emptying it sorts the
list. -/
theorem isPriorityQueue (cmp : T → T → Ordering) [Std.TransCmp cmp] :
    (∀ s, (system (.pure cmp) ()).Reachable s → Correct cmp s)
      ∧ ∀ l : List T, ∃ h vals, pushAll (.pure cmp) (new ()) l = .ok h ∧ vals.Perm l
        ∧ vals.Pairwise (fun a b => cmp a b ≠ .gt)
        ∧ ∀ fuel, l.length < fuel → h.drain (.pure cmp) fuel = .ok vals :=
  ⟨fun _ => correct_of_reachable, sorts⟩

/-- The heap of the numbers, by their order. -/
theorem isPriorityQueue_nat :
    (∀ s : State ℕ Unit, (system (.pure Ord.compare) ()).Reachable s → Correct Ord.compare s)
      ∧ ∀ l : List ℕ, ∃ h vals, pushAll (.pure Ord.compare) (new ()) l = .ok h ∧ vals.Perm l
        ∧ vals.Pairwise (fun a b => Ord.compare a b ≠ .gt)
        ∧ ∀ fuel, l.length < fuel → h.drain (.pure Ord.compare) fuel = .ok vals :=
  isPriorityQueue Ord.compare

end Heap
