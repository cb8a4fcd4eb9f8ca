import Algors.Lib.BothEnds
import Algors.Lib.Transition
import Algors.Trie.RawVecHolds

/-!
# The vector in a word is a list

Runs of `insert` and `remove` on a vector whose caller keeps the length, with the list
that the calls make kept beside it, and the iterators over the vector in every state of
a run. An allocator that returns addresses where there is no buffer, not null and
multiples of 8, is assumed of every call that may allocate.
-/

namespace Trie

variable [Target]

/-! ## Runs of the iterators -/

section Iterators

variable {T : Type} [Elem T]

/-- A call at an end. -/
def Iter.call (self : Iter) (mem : Buffers T) : End → Raw (Option (Ptr Usize) × Iter)
  | .front => self.next mem
  | .back => self.nextBack mem

/-- Calls at the ends, and the elements that the references they return refer to. -/
def Iter.run (mem : Buffers T) : Iter → List End → Raw (List (Option T) × Iter)
  | self, [] => .ok ([], self)
  | self, e :: ends => do
    let (res, self) ← self.call mem e
    let (outs, self) ← run mem self ends
    return (res.bind mem.read :: outs, self)

/-- A call at an end. -/
def IterMut.call (self : IterMut) (mem : Buffers T) : End → Raw (Option (Ptr Usize) × IterMut)
  | .front => self.next mem
  | .back => self.nextBack mem

omit [Elem T] in
/-- The element that a reference refers to, which is then changed through it. -/
def assign (f : T → T) (mem : Buffers T) : Option (Ptr Usize) → Raw (Option T × Buffers T)
  | none => .ok (none, mem)
  | some p => do
    let x ← Raw.defined (mem.read p)
    let mem ← Raw.defined (mem.write p (f x))
    return (some x, mem)

/-- Calls at the ends, where the caller changes the elements as they come, and the elements
that came. -/
def IterMut.run : IterMut → List (End × (T → T)) → Buffers T
    → Raw (List (Option T) × IterMut × Buffers T)
  | self, [], mem => .ok ([], self, mem)
  | self, (e, f) :: calls, mem => do
    let (res, self) ← self.call mem e
    let (out, mem) ← assign f mem res
    let (outs, self, mem) ← run self calls mem
    return (out :: outs, self, mem)

variable {others mem : Buffers T} {v : RawVec} {xs rest : List T} {p : Ptr Usize}

/-- **What is left of an iteration**: a run of the elements, from a pointer on. -/
structure Spans (v : RawVec) (xs : List T) (p : Ptr Usize) (rest : List T) : Prop where
  base : p.base = v.asMutPtr.base
  get : ∀ j x, rest[j]? = some x → xs[p.off + j]? = some x

/-- **An answer**: nothing, or a reference to an element that is not met again. -/
inductive Answer (v : RawVec) (xs : List T) (p : Ptr Usize) (rest : List T) :
    Option (Ptr Usize) → Option T → Prop
  | none (hrest : Spans v xs p rest) : Answer v xs p rest none none
  | some {j : ℕ} {x : T} (hx : xs[j]? = some x) (hrest : ∀ y, Spans v (xs.set j y) p rest) :
      Answer v xs p rest (some ⟨v.asMutPtr.base, j⟩) (some x)

omit [Elem T] in
/-- Elements that are not changed. -/
theorem Spans.set (h : Spans v xs p rest) {j : ℕ} (hj : j < p.off ∨ p.off + rest.length ≤ j)
    (y : T) : Spans v (xs.set j y) p rest where
  base := h.base
  get k x hk := by
    have hlt := (List.getElem?_eq_some_iff.mp hk).1
    rw [List.getElem?_set_ne (by omega)]
    exact h.get k x hk

omit [Elem T] in
/-- The elements after the first. -/
theorem Spans.tail {x : T} (h : Spans v xs p (x :: rest)) :
    Spans v xs ⟨p.base, p.off + 1⟩ rest where
  base := h.base
  get k y hk := by
    rw [show p.off + 1 + k = p.off + (k + 1) by omega]
    exact h.get (k + 1) y hk

omit [Elem T] in
/-- The elements before the last. -/
theorem Spans.init {x : T} (h : Spans v xs p (rest ++ [x])) : Spans v xs p rest where
  base := h.base
  get k y hk := h.get k y (by
    rw [List.getElem?_append_left (List.getElem?_eq_some_iff.mp hk).1]
    exact hk)

/-- **A call at the front.** -/
theorem Iter.next_spec (h : RawVec.Holds others mem v xs) {self : Iter}
    (hspan : Spans v xs self.ptr rest) (hlen : self.len = rest.length) :
    ∃ res self', self.next mem = .ok (res, self') ∧ self'.len = rest.tail.length
      ∧ Answer v xs self'.ptr rest.tail res rest.head? := by
  cases rest with
  | nil => exact ⟨none, self, if_pos hlen, hlen, .none hspan⟩
  | cons x rest =>
    obtain ⟨⟨base, off⟩, len⟩ := self
    obtain rfl : base = v.asMutPtr.base := hspan.base
    have hx : xs[off]? = some x := hspan.get 0 x rfl
    have hlt := (List.getElem?_eq_some_iff.mp hx).1
    have hread := h.read hx
    have hadd := h.add (i := off) (n := 1) (List.ne_nil_of_length_pos (by omega)) hlt
    refine ⟨_, ⟨⟨v.asMutPtr.base, off + 1⟩, len - 1⟩, ?_, ?_, .some hx fun y => ?_⟩
    · have hne : ¬ len = 0 := by
        rw [show len = _ from hlen, List.length_cons]
        omega
      rw [next, if_neg hne, RawVec.deref_eq hread, Raw.ok_bind, hadd]
      rfl
    · rw [show len = _ from hlen, List.length_cons]
      rfl
    · exact hspan.tail.set (Or.inl (Nat.lt_succ_self off)) y

/-- Elements have a size. -/
theorem addSized_eq (mem : Buffers T) (p : Ptr Usize) (n : ℕ) :
    addSized mem p n = Raw.defined (mem.add p n) := if_neg Elem.size_pos.ne'

/-- **A call at the back.** -/
theorem Iter.nextBack_spec (h : RawVec.Holds others mem v xs) {self : Iter}
    (hspan : Spans v xs self.ptr rest) (hlen : self.len = rest.length) :
    ∃ res self', self.nextBack mem = .ok (res, self') ∧ self'.len = rest.dropLast.length
      ∧ Answer v xs self'.ptr rest.dropLast res rest.getLast? := by
  rcases List.eq_nil_or_concat rest with rfl | ⟨rest, x, rfl⟩
  · exact ⟨none, self, if_pos hlen, hlen, .none hspan⟩
  · rw [List.concat_eq_append] at hspan hlen ⊢
    rw [List.getLast?_concat, List.dropLast_concat]
    obtain ⟨⟨base, off⟩, len⟩ := self
    obtain rfl : base = v.asMutPtr.base := hspan.base
    obtain rfl : len = rest.length + 1 := hlen.trans List.length_append
    have hx : xs[off + rest.length]? = some x := hspan.get rest.length x List.getElem?_concat_length
    have hlt := (List.getElem?_eq_some_iff.mp hx).1
    have hadd := h.add (i := off) (n := rest.length) (List.ne_nil_of_length_pos (by omega)) hlt.le
    refine ⟨_, ⟨⟨v.asMutPtr.base, off⟩, rest.length⟩, ?_, rfl, .some hx fun y => ?_⟩
    · rw [nextBack, if_neg (Nat.succ_ne_zero _)]
      dsimp only
      rw [Nat.add_sub_cancel, addSized_eq, hadd, Raw.defined_bind, RawVec.deref_eq (h.read hx)]
      rfl
    · exact hspan.init.set (Or.inr (Nat.le_refl _)) y

/-- **A call at either end** answers with the element there, and leaves the others. -/
theorem Iter.call_spec (h : RawVec.Holds others mem v xs) {self : Iter}
    (hspan : Spans v xs self.ptr rest) (hlen : self.len = rest.length) (e : End) :
    ∃ res self', self.call mem e = .ok (res, self') ∧ self'.len = (e.take rest).2.length
      ∧ Answer v xs self'.ptr (e.take rest).2 res (e.take rest).1 := by
  cases e with
  | front => exact next_spec h hspan hlen
  | back => exact nextBack_spec h hspan hlen

/-- The iterator of shared references that is at the same place. -/
def IterMut.toIter (self : IterMut) : Iter := ⟨self.ptr, self.len⟩

/-- The other way. -/
def Iter.toMut (self : Iter) : IterMut := ⟨self.ptr, self.len⟩

/-- Both iterators do the same. -/
theorem IterMut.call_eq (self : IterMut) (mem : Buffers T) (e : End) :
    self.call mem e = (self.toIter.call mem e).map fun r => (r.1, r.2.toMut) := by
  obtain ⟨ptr, len⟩ := self
  cases e with
  | front =>
    show IterMut.next ⟨ptr, len⟩ mem = (Iter.next ⟨ptr, len⟩ mem).map _
    rw [IterMut.next, Iter.next, addSized_eq]
    split_ifs
    · rfl
    · cases RawVec.deref mem ptr with
      | error e => rfl
      | ok p => cases mem.add ptr 1 <;> rfl
  | back =>
    show IterMut.nextBack ⟨ptr, len⟩ mem = (Iter.nextBack ⟨ptr, len⟩ mem).map _
    rw [IterMut.nextBack, Iter.nextBack]
    split_ifs
    · rfl
    · dsimp only
      cases addSized mem ptr (len - 1) with
      | error e => rfl
      | ok p =>
        simp only [Raw.ok_bind]
        cases RawVec.deref mem p <;> rfl

omit [Elem T] in
theorem Answer.spans {res : Option (Ptr Usize)} {out : Option T} (h : Answer v xs p rest res out) :
    Spans v xs p rest := by
  cases h with
  | none hrest => exact hrest
  | @some j x hx hrest =>
    have hsame : xs.set j x = xs := by
      obtain ⟨hlt, rfl⟩ := List.getElem?_eq_some_iff.mp hx
      exact List.set_getElem_self hlt
    exact hsame ▸ hrest x

theorem Answer.read {res : Option (Ptr Usize)} {out : Option T} (h : Answer v xs p rest res out)
    (hv : RawVec.Holds others mem v xs) : res.bind mem.read = out := by
  cases h with
  | none hrest => rfl
  | some hx hrest => exact hv.read hx

/-- An element that is changed where it is. -/
theorem Answer.assign {res : Option (Ptr Usize)} {out : Option T} (h : Answer v xs p rest res out)
    (hv : RawVec.Holds others mem v xs) (f : T → T) :
    ∃ mem' ys, Trie.assign f mem res = .ok (out, mem') ∧ RawVec.Holds others mem' v ys
      ∧ ys.length = xs.length ∧ Spans v ys p rest := by
  cases h with
  | none hrest => exact ⟨mem, xs, rfl, hv, rfl, hrest⟩
  | @some j x hx hrest =>
    obtain ⟨mem', hwrite, hv'⟩ := hv.write (List.getElem?_eq_some_iff.mp hx).1 (f x)
    refine ⟨mem', xs.set j (f x), ?_, hv', List.length_set .., hrest (f x)⟩
    rw [Trie.assign, hv.read hx, Raw.defined_bind, hwrite]
    rfl

/-- **Any calls of `next` and `next_back`** take the elements from the ends. -/
theorem Iter.run_spec (h : RawVec.Holds others mem v xs) {self : Iter}
    (hspan : Spans v xs self.ptr rest) (hlen : self.len = rest.length) (ends : List End) :
    ∃ self', self.run mem ends = .ok ((takeEnds ends rest).1, self') := by
  induction ends generalizing self rest with
  | nil => exact ⟨self, rfl⟩
  | cons e ends ih =>
    obtain ⟨res, self', hcall, hlen', hanswer⟩ := call_spec h hspan hlen e
    obtain ⟨self'', hrun⟩ := ih hanswer.spans hlen'
    refine ⟨self'', ?_⟩
    rw [run, hcall, Raw.ok_bind]
    dsimp only
    rw [hrun, Raw.ok_bind, hanswer.read h]
    rfl

/-- **So do they where the elements are changed** as they come; the vector then holds as
many. -/
theorem IterMut.run_spec (h : RawVec.Holds others mem v xs) {self : IterMut}
    (hspan : Spans v xs self.ptr rest) (hlen : self.len = rest.length)
    (calls : List (End × (T → T))) :
    ∃ self' mem' ys, self.run calls mem = .ok ((takeEnds (calls.map Prod.fst) rest).1, self', mem')
      ∧ RawVec.Holds others mem' v ys ∧ ys.length = xs.length := by
  induction calls generalizing self rest mem xs with
  | nil => exact ⟨self, mem, xs, rfl, h, rfl⟩
  | cons call calls ih =>
    obtain ⟨e, f⟩ := call
    obtain ⟨res, it, hcall, hlen', hanswer⟩ :=
      Iter.call_spec h (show Spans v xs self.toIter.ptr rest from hspan) hlen e
    obtain ⟨mem', ys, hassign, hys, hyslen, hspan'⟩ := hanswer.assign h f
    obtain ⟨self'', mem'', zs, hrun, hzs, hzslen⟩ :=
      ih hys (show Spans v ys it.toMut.ptr (e.take rest).2 from hspan') hlen'
    refine ⟨self'', mem'', zs, ?_, hzs, hzslen.trans hyslen⟩
    have hcall' : self.call mem e = .ok (res, it.toMut) := by
      rw [call_eq, hcall]
      rfl
    rw [run, hcall', Raw.ok_bind]
    dsimp only
    rw [hassign, Raw.ok_bind]
    dsimp only
    rw [hrun]
    rfl

omit [Elem T] in
/-- At the start all elements are left. -/
theorem spans_start (v : RawVec) (xs : List T) : Spans v xs v.asMutPtr xs where
  base := rfl
  get j x hj := by
    rw [show v.asMutPtr.off + j = j from Nat.zero_add j]
    exact hj

end Iterators

/-! ## Runs of the vector -/

namespace RawVec

section Runs

variable {T : Type} [Elem T]

/-- **A state of a run**: the vector and the memory, the length that the caller keeps, and
the list that the calls make. -/
structure State (T : Type) where
  vec : RawVec
  mem : Buffers T
  len : ℕ
  items : List T

/-- The calls, with the address that the allocator returns if it is asked. -/
inductive Call (T : Type) where
  | insert (i : ℕ) (element : T) (newPtr : Usize)
  | remove (i : ℕ)

/-- Runs of calls, which are passed the length; one that panics has no successor. -/
def system (others : Buffers T) : System (State T) (Call T) where
  init := ⟨new, others, 0, []⟩
  next s
    | .insert i element newPtr =>
      match s.vec.insert (fun _ => newPtr) i element s.len s.mem with
      | .ok (vec, mem) => some ⟨vec, mem, s.len + 1, s.items.insertIdx i element⟩
      | .error _ => none
    | .remove i =>
      match s.vec.remove i s.len s.mem with
      | .ok (res, mem) =>
        some ⟨s.vec, mem, if res.isSome then s.len - 1 else s.len, s.items.eraseIdx i⟩
      | .error _ => none

/-- **What a caller may do**, and what is assumed of the allocator. -/
def Permitted (s : State T) : Call T → Prop
  | .insert i _ newPtr => i ≤ s.len ∧ s.len < 256 ∧ Address newPtr ∧ s.mem newPtr = none
  | .remove _ => True

instance (a : Usize) : Decidable (Address a) :=
  decidable_of_iff (a ≠ 0 ∧ a.toNat % 8 = 0) ⟨fun h => ⟨h.1, h.2⟩, fun h => ⟨h.1, h.2⟩⟩

instance [DecidableEq T] (s : State T) (c : Call T) : Decidable (Permitted s c) :=
  match c with
  | .insert i _ newPtr =>
    inferInstanceAs (Decidable (i ≤ s.len ∧ s.len < 256 ∧ Address newPtr ∧ s.mem newPtr = none))
  | .remove _ => .isTrue trivial

/-- **The buffer of a vector**: none, or a block of as many slots as the tag says,
allocated for as many, a power of two. The memory is otherwise that of the others. -/
def OwnsBuffer (others mem : Buffers T) (v : RawVec) : Prop :=
  (v.capacity = 0 ∧ mem = others)
    ∨ ∃ k a b, v.capacity = 2 ^ k ∧ v.asMutPtr = ⟨a, 0⟩ ∧ others a = none
      ∧ mem = others.place a b ∧ b.cells.length = v.capacity
      ∧ b.layout = ⟨Elem.size T * v.capacity, alignment T⟩

/-- **An insertion with no layout for the buffer it needs.** -/
def Unlaid (s : State T) : Prop := s.len = s.vec.capacity ∧ newLayout T s.vec = none

variable {others : Buffers T} {s s' : State T}

theorem Holds.ownsBuffer {mem : Buffers T} {v : RawVec} {xs : List T}
    (h : Holds others mem v xs) : OwnsBuffer others mem v ∧ v.capacity ≤ 256 := by
  cases h with
  | null => exact ⟨.inl ⟨rfl, rfl⟩, Nat.zero_le _⟩
  | @buffer a t b xs ha hfree hb hxs =>
    have hcap := ha.capacity hb.lt
    refine ⟨.inr ⟨t + 1, a, b, hcap, ha.asMutPtr hb.lt, hfree, rfl, hb.cells.trans hcap.symm, ?_⟩,
      ?_⟩
    · rw [hcap]
      exact layout_eq hb.layout
    · rw [hcap]
      exact Nat.pow_le_pow_right (by decide) hb.lt

/-- **Every permitted call** keeps what the vector holds, and the length. -/
theorem holds_step {c : Call T} (h : Holds others s.mem s.vec s.items)
    (hlen : s.len = s.items.length) (hc : Permitted s c)
    (hnext : (system others).next s c = some s') :
    Holds others s'.mem s'.vec s'.items ∧ s'.len = s'.items.length := by
  cases c with
  | insert i element newPtr =>
    obtain ⟨hi, hlt, halloc⟩ := hc
    obtain ⟨hpanic, hok⟩ := insert_spec h (hlen ▸ hi) (hlen ▸ hlt) (fun _ => halloc) element
    simp only [system, hlen] at hnext
    by_cases hfull : s.items.length = s.vec.capacity ∧ newLayout T s.vec = none
    · rw [hpanic hfull] at hnext
      cases hnext
    · obtain ⟨v', mem', hinsert, hholds⟩ := hok hfull
      rw [hinsert] at hnext
      obtain rfl := Option.some.inj hnext
      exact ⟨hholds, (List.length_insertIdx_of_le_length (hlen ▸ hi) element).symm⟩
  | remove i =>
    obtain ⟨mem', hremove, hholds⟩ := remove_spec h i
    simp only [system, hlen, hremove] at hnext
    obtain rfl := Option.some.inj hnext
    refine ⟨hholds, ?_⟩
    rcases Nat.lt_or_ge i s.items.length with hi | hi
    · rw [List.getElem?_eq_getElem hi, List.length_eraseIdx_of_lt hi]
      rfl
    · rw [List.getElem?_eq_none hi, List.eraseIdx_of_length_le hi]
      rfl

/-- **In every run** the vector holds the list, and the length is its length. -/
theorem holds_of_reachable (h : (system others).ReachableWhile Permitted s) :
    Holds others s.mem s.vec s.items ∧ s.len = s.items.length :=
  h.invariant ⟨.null, rfl⟩ fun _ _ _ _ hs hc hnext => holds_step hs.1 hs.2 hc hnext

/-- **The vector refines a list**, in every state of every run. The length is that of the
list; `get` refers to the element there is, or returns none; calls of `next` and
`next_back` on an iterator meet each element once, also when the elements are changed as
they come. The length is at most the capacity, which is at most 256 and is the number of
slots that the buffer was allocated with; apart from the buffer the memory is as it was.
A permitted `insert` leads to the next state, but where the buffer is full and no layout
can be made for a larger one it panics; `remove` returns the element that was there. -/
theorem refines_list (h : (system others).ReachableWhile Permitted s) :
    s.len = s.items.length
    ∧ (∀ i, ∃ r, s.vec.get i s.len s.mem = .ok r ∧ r.bind s.mem.read = s.items[i]?
        ∧ (r = none ↔ s.len ≤ i))
    ∧ (∀ ends, ∃ outs it, (s.vec.iter s.len).run s.mem ends = .ok (outs, it)
        ∧ EachOnce s.items ends outs)
    ∧ (∀ calls, ∃ outs it mem, (s.vec.iterMut s.len).run calls s.mem = .ok (outs, it, mem)
        ∧ EachOnce s.items (calls.map Prod.fst) outs ∧ OwnsBuffer others mem s.vec)
    ∧ s.len ≤ s.vec.capacity ∧ s.vec.capacity ≤ 256 ∧ OwnsBuffer others s.mem s.vec
    ∧ (∀ i element newPtr, Permitted s (.insert i element newPtr) →
        (Unlaid s → s.vec.insert (fun _ => newPtr) i element s.len s.mem
          = .error (.panic (.expectFailed layoutMsg)))
        ∧ (¬ Unlaid s → ∃ s', (system others).next s (.insert i element newPtr) = some s'))
    ∧ ∀ i, ∃ mem, s.vec.remove i s.len s.mem = .ok (s.items[i]?, mem)
        ∧ ∃ s', (system others).next s (.remove i) = some s' := by
  obtain ⟨hholds, hlen⟩ := holds_of_reachable h
  obtain ⟨hbuffer, hmax⟩ := hholds.ownsBuffer
  refine ⟨hlen, fun i => ?_, fun ends => ?_, fun calls => ?_, ?_, hmax, hbuffer,
    fun i element newPtr hc => ?_, fun i => ?_⟩
  · rw [hlen]
    exact get_spec hholds i
  · obtain ⟨it, hrun⟩ := Iter.run_spec hholds
      (show Spans s.vec s.items (s.vec.iter s.len).ptr s.items from spans_start ..) hlen ends
    exact ⟨_, it, hrun, eachOnce_takeEnds ends s.items⟩
  · obtain ⟨it, mem', ys, hrun, hys, -⟩ := IterMut.run_spec hholds
      (show Spans s.vec s.items (s.vec.iterMut s.len).ptr s.items from spans_start ..) hlen calls
    exact ⟨_, it, mem', hrun, eachOnce_takeEnds _ s.items, hys.ownsBuffer.1⟩
  · exact hlen ▸ hholds.le_capacity
  · obtain ⟨hi, hlt, halloc⟩ := hc
    obtain ⟨hpanic, hok⟩ := insert_spec hholds (hlen ▸ hi) (hlen ▸ hlt) (fun _ => halloc) element
    rw [← hlen] at hpanic hok
    refine ⟨hpanic, fun hlaid => ?_⟩
    obtain ⟨v', mem', hinsert, -⟩ := hok hlaid
    refine ⟨⟨v', mem', s.len + 1, s.items.insertIdx i element⟩, ?_⟩
    simp only [system, hinsert]
  · obtain ⟨mem', hremove, -⟩ := remove_spec hholds i
    rw [← hlen] at hremove
    refine ⟨mem', hremove, ⟨s.vec, mem', if s.items[i]?.isSome then s.len - 1 else s.len,
      s.items.eraseIdx i⟩, ?_⟩
    simp only [system, hremove]

end Runs

end RawVec

end Trie

/-! ## Two runs -/

namespace Trie.RawVec

/-- A `u64`, with pointers of 8 bytes. -/
@[reducible] def elemU64 : @Elem .x86_64 UInt64 :=
  @Elem.mk .x86_64 UInt64 8 8 (by decide) (by decide) (by decide)

/-- Three insertions, the last of which grows the buffer, and a removal. -/
def threeCalls : List (@Call .x86_64 UInt64) :=
  letI : Target := .x86_64
  [.insert 0 5 64, .insert 0 6 128, .insert 1 7 192, .remove 0]

/-- Two elements are left, in a buffer of four slots. -/
theorem refines_list_three :
    letI : Target := .x86_64
    letI : Elem UInt64 := elemU64
    ∃ s, (system fun _ => none).run (system fun _ => none).init threeCalls = some s
      ∧ s.items = [7, 5] ∧ s.vec.capacity = 4
      ∧ ∃ outs it, (s.vec.iter s.len).run s.mem [.back, .front, .front] = .ok (outs, it)
        ∧ EachOnce s.items [.back, .front, .front] outs := by
  let target : Target := .x86_64
  let elem : Elem UInt64 := elemU64
  have hvalues : ((system fun _ => none).run (system fun _ => none).init threeCalls).map
      (fun s => (s.items, s.vec.capacity)) = some ([7, 5], 4) := by
    decide +kernel
  obtain ⟨s, hs, hvalues⟩ := Option.map_eq_some_iff.mp hvalues
  obtain ⟨hitems, hcap⟩ := Prod.mk.inj hvalues
  have hmeets : (system fun _ => none).RunMeets Permitted (system fun _ => none).init
      threeCalls := by
    subst target
    decide +kernel
  have hreach : (system fun _ => none).ReachableWhile Permitted s :=
    System.ReachableWhile.init.of_run hmeets hs
  exact ⟨s, hs, hitems, hcap, (refines_list hreach).2.2.1 [.back, .front, .front]⟩

/-- A target with pointers of 4 bytes. -/
@[reducible] def target32 : Target := ⟨.little, 4⟩

/-- `[u8; 2³⁰]`, with pointers of 4 bytes. -/
@[reducible] def elemGiB : @Elem target32 (Vector UInt8 (2 ^ 30)) :=
  @Elem.mk target32 _ (2 ^ 30) 1 (by decide) (by decide) (by decide)

/-- **With pointers of 4 bytes two elements of 2³⁰ bytes have no layout**, and the first
insertion panics. -/
theorem insert_eq_panic_gib :
    letI : Target := target32
    letI : Elem (Vector UInt8 (2 ^ 30)) := elemGiB
    Permitted (system fun _ => none).init (.insert 0 (Vector.replicate (2 ^ 30) (0 : UInt8)) 8)
      ∧ new.insert (fun _ => 8) 0 (Vector.replicate (2 ^ 30) (0 : UInt8)) 0 (fun _ => none)
        = .error (.panic (.expectFailed layoutMsg)) := by
  let target : Target := target32
  let elem : Elem (Vector UInt8 (2 ^ 30)) := elemGiB
  have haddress : Address 8 := ⟨by decide, by decide⟩
  have halloc : Allocates (fun _ => none : Buffers (Vector UInt8 (2 ^ 30))) fun _ => 8 :=
    fun _ => ⟨haddress, rfl⟩
  have hnone : newLayout (Vector UInt8 (2 ^ 30)) new = none := by decide
  refine ⟨⟨Nat.le_refl 0, by decide, haddress, rfl⟩, ?_⟩
  exact (insert_spec .null (Nat.le_refl 0) (by decide) halloc _).1 ⟨rfl, hnone⟩

end Trie.RawVec
