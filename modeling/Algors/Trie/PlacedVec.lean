import Algors.Trie.PlacedMemory
import Algors.Trie.RawVecRuns
import Algors.Trie.RawVecHolds

/-!
# The vectors of a trie in memory

What is known of `BoundedRawVec` on a memory of its own holds on the memory of a trie, where
a vector owns its buffer: `VecHolds`. The elements are words, and there is a layout for all
buffers of words; when the allocator has no room `insert` stops. `deallocate` drops the
elements where they are and gives the buffer back.
-/

namespace Trie

variable [Target]

/-! ## An allocator without room

The vector on a memory of its own always finds room, with an allocator that never says no. The
one here may. Where it does, `insert` stops before it has changed anything; where it does not,
the vector cannot tell the two apart. -/

namespace RawVec

section NoRoom

variable {T : Type} [Elem T] {others mem : Buffers T} {v : RawVec} {xs : List T} {i : ℕ}
  {alloc alloc' : Layout → Usize}

/-- A new buffer depends on the allocator at its own layout only. -/
theorem newBuffer_congr (mem : Buffers T) {t : ℕ} (h : ∀ layout, layoutOf T t = some layout →
      alloc layout = alloc' layout) :
    newBuffer alloc t mem = newBuffer alloc' t mem := by
  by_cases hsize : Elem.size T * 2 ^ (t + 1) < 2 ^ (8 * Target.ptrSize)
  · rw [newBuffer, newBuffer, Nat.one_shiftLeft, toUsize_eq_ok hsize, Raw.lift_ok_bind,
      Raw.lift_ok_bind]
    cases hlayout : Layout.fromSizeAlign (Elem.size T * 2 ^ (t + 1)) (alignment T) with
    | none => rfl
    | some layout =>
      rw [Rust.expect_some, Raw.lift_ok_bind, Raw.lift_ok_bind, h layout hlayout]
  · rw [newBuffer, newBuffer, Nat.one_shiftLeft, toUsize, if_neg hsize]
    rfl

/-- The layout of the buffer that a full one is replaced by. -/
theorem nextTag_layoutOf (h : Holds others mem v xs) (hlen : xs.length < 256)
    (hfull : xs.length = v.capacity) :
    ∃ t, v.nextTag = .ok t ∧ newLayout T v = layoutOf T t := by
  cases h with
  | null => exact ⟨0, rfl, rfl⟩
  | @buffer a t b xs ha hfree hb hxs =>
    have ht : t < 7 := by
      by_contra hge
      obtain rfl : t = 7 := by
        have := hb.lt
        omega
      rw [ha.capacity hb.lt] at hfull
      omega
    refine ⟨t + 1, ?_, ?_⟩
    · rw [nextTag, ha.capacity hb.lt, if_neg (Nat.two_pow_pos _).ne', capTag,
        ha.or_tag_and_mask hb.lt]
      exact if_pos ht
    · rw [newLayout, ha.capacity hb.lt, if_neg (Nat.two_pow_pos _).ne', ← Nat.pow_succ', layoutOf]

/-- **An insertion depends on the allocator at one layout only.** -/
theorem insert_congr (alloc' : Layout → Usize) (h : Holds others mem v xs)
    (hlen : xs.length < 256) {x : T}
    (halloc : ∀ layout, newLayout T v = some layout → alloc layout = alloc' layout) :
    v.insert alloc i x xs.length mem = v.insert alloc' i x xs.length mem := by
  unfold insert makeGap
  split_ifs with hfull
  · obtain ⟨t, ht, hlayout⟩ := nextTag_layoutOf h hlen hfull
    rw [grow, grow, ht]
    simp only [Raw.ok_bind, newBuffer_congr mem fun layout hl =>
      halloc layout (hlayout.trans hl)]
  · rfl

/-- **When there is no room** for the buffer it needs, `insert` does not return. -/
theorem insert_eq_allocError (h : Holds others mem v xs) (hlen : xs.length < 256) {x : T}
    (hfull : xs.length = v.capacity) {layout : Layout} (hlayout : newLayout T v = some layout)
    (hnull : alloc layout = 0) : v.insert alloc i x xs.length mem = .error .allocError := by
  obtain ⟨t, ht, heq⟩ := nextTag_layoutOf h hlen hfull
  rw [heq] at hlayout
  have hsize : Elem.size T * 2 ^ (t + 1) < 2 ^ (8 * Target.ptrSize) := by
    have hle := size_le_of_layout alignment_pos hlayout
    have := two_mul_lt_of_le_isizeMax hle
    omega
  have hnew : newBuffer alloc t mem = .error .allocError := by
    rw [newBuffer, Nat.one_shiftLeft, toUsize_eq_ok hsize, Raw.lift_ok_bind,
      show Layout.fromSizeAlign _ _ = some layout from hlayout, Rust.expect_some,
      Raw.lift_ok_bind, if_pos hnull]
  rw [insert, makeGap, if_pos hfull, grow, ht]
  simp only [Raw.ok_bind, hnew]
  rfl

/-- **An insertion** where the allocator has room, if it is asked. -/
theorem insert_eq_ok (alloc : Layout → Usize) (h : Holds others mem v xs)
    (hi : i ≤ xs.length) (hlen : xs.length < 256)
    (x : T) {layout : Layout} (hlayout : newLayout T v = some layout)
    (halloc : xs.length = v.capacity → Address (alloc layout) ∧ mem (alloc layout) = none) :
    ∃ v' mem', v.insert alloc i x xs.length mem = .ok (v', mem')
      ∧ Holds others mem' v' (xs.insertIdx i x) := by
  by_cases hfull : xs.length = v.capacity
  · rw [insert_congr (fun _ => alloc layout) h hlen fun layout' hlayout' => by
      rw [Option.some.inj (hlayout'.symm.trans hlayout)]]
    refine (insert_spec h hi hlen (fun _ => halloc hfull) x).2 fun hnone => ?_
    exact absurd (hlayout.symm.trans hnone.2) (Option.some_ne_none layout)
  · have hgap := makeRoom_spec h hi (lt_of_le_of_ne h.le_capacity hfull)
    obtain ⟨r, hr, hgap⟩ := hgap
    cases hgap with
    | intro ha hfree hb hin hxs =>
      refine ⟨_, _, ?_, .buffer ha hfree (hb.with_cells (List.length_set ..)) (hxs x)⟩
      rw [insert, makeGap, if_neg hfull, hr, Raw.ok_bind]
      dsimp only
      rw [Blocks.add_place (by omega), Raw.defined_bind, Nat.zero_add, Blocks.write_place hin]
      rfl

end NoRoom

end RawVec

namespace Placed

variable {T : Type} [hwidth : PointerWidth] {stops : Stop → Prop} {v : RawVec} {ws : List Node}
  {r : Held T} {i : ℕ} {w : Node}

/-- **The vector holds the words of a list**, in a buffer that it owns. -/
inductive VecHolds : RawVec → List Node → Held T → Prop
  | null : VecHolds RawVec.new [] 0
  | buffer {a : Usize} {t : ℕ} {b : Block Layout Node} {ws : List Node} (ha : RawVec.Address a)
      (hb : RawVec.Sized t b) (hws : Filled b.cells ws) :
      VecHolds ⟨a ||| BitVec.ofNat _ t⟩ ws (bufferAt a b)

/-! ## The memory of the vector, and that of the others

A vector owns one buffer or none. For the lemmas on a memory of its own, everything else that is
in the memory of the trie is a matter of the others. -/

/-- Without its buffer the memory is that of the others. -/
theorem VecHolds.holds {h : Heap T} {total : Multiset T} {frame : Held T}
    (hv : VecHolds v ws r) (hh : Has total h (r + frame)) :
    ∃ others, RawVec.Holds others h.buffers v ws
      ∧ Has total { h with buffers := others } frame := by
  cases hv with
  | null => exact ⟨h.buffers, .null, (zero_add frame) ▸ hh⟩
  | @buffer a t b ws ha hb hws =>
    refine ⟨Function.update h.buffers a none, ?_, hh.erase (view_buffers h a none) rfl⟩
    have hplace : h.buffers = Blocks.place (Function.update h.buffers a none) a b := by
      rw [Blocks.place, Function.update_idem, ← buffers_of_has hh, Function.update_eq_self]
    have hholds : RawVec.Holds _ (Blocks.place (Function.update h.buffers a none) a b) _ ws :=
      .buffer ha (Function.update_self ..) hb hws
    rwa [← hplace] at hholds

/-- With its buffer it is all of it. -/
theorem exists_vecHolds {h : Heap T} {total : Multiset T} {frame : Held T}
    {others mem : Buffers Node} (hv : RawVec.Holds others mem v ws)
    (hh : Has total { h with buffers := others } frame) :
    ∃ r, VecHolds v ws r ∧ Has total { h with buffers := mem } (r + frame) := by
  cases hv with
  | null => exact ⟨0, .null, (zero_add frame).symm ▸ hh⟩
  | @buffer a t b ws ha hfree hb hws =>
    refine ⟨bufferAt a b, .buffer ha hb hws, ?_⟩
    exact hh.insert (congrArg (Option.map Content.buffer) hfree)
      (view_buffers { h with buffers := others } a (some b)) rfl

/-! ## The calls

Each is the call on a memory of its own, with what the vector owns before and after. -/

/-- There is a layout for every buffer of words, which is aligned to 8. -/
theorem exists_newLayout (hv : v.capacity ≤ 256) :
    ∃ layout, RawVec.newLayout Node v = some layout ∧ layout.align = 8 := by
  have hall : ∀ p n, p = 4 ∨ p = 8 → n ≤ 512 →
      (p * n + max p 8 - 1) / max p 8 * max p 8 ≤ 2 ^ (8 * p - 1) - 1 := by
    intro p n hp hn
    have hmax : max p 8 = 8 := by omega
    have hpow : 2 ^ 31 ≤ 2 ^ (8 * p - 1) := Nat.pow_le_pow_right (by decide) (by omega)
    have hmul : p * n ≤ 8 * 512 := Nat.mul_le_mul (by omega) hn
    rw [hmax]
    omega
  have halign : RawVec.alignment Node = 8 := by
    have := hwidth.eq
    show max PTR_SIZE 8 = 8
    omega
  unfold RawVec.newLayout Layout.fromSizeAlign
  refine ⟨_, if_pos ⟨by rw [halign]; decide, ?_⟩, halign⟩
  refine hall PTR_SIZE _ hwidth.eq ?_
  split_ifs <;> omega

/-- **A slot** holds its word, and can be written over. -/
theorem VecHolds.slot (hv : VecHolds v ws r) (hi : i < ws.length) :
    ∃ a b, r = bufferAt a b ∧ b.cells[i]? = some (some ws[i])
      ∧ Looks (vecGet v i ws.length : Prog T _) r (.ok (some ⟨a, i⟩) : Rust _)
      ∧ ∀ w, VecHolds v (ws.set i w)
        (bufferAt a { b with cells := b.cells.set i (some w) } : Held T) := by
  cases hv with
  | null => cases hi
  | @buffer a t b ws ha hb hws =>
    have hcell := hws i ws[i] (List.getElem?_eq_getElem hi)
    refine ⟨a, b, rfl, hcell, ?_, fun w =>
      .buffer ha (hb.with_cells (List.length_set ..)) (hws.set hi)⟩
    rintro _ ⟨⟩ h total frame hh
    have hlt := (List.getElem?_eq_some_iff.mp hcell).1
    have hat := buffers_of_has hh
    have hread : h.buffers.read ⟨a, i⟩ = some ws[i] := by
      rw [Blocks.read, hat]
      exact congrArg (· >>= fun cell => cell) hcell
    have hnull : ¬ (a ||| BitVec.ofNat _ t = 0 ∨ ws.length ≤ i) := by
      rintro (hzero | hle)
      · exact ha.or_tag_ne_zero hb.lt hzero
      · omega
    rw [vecGet, RawVec.get, if_neg hnull, ha.asMutPtr hb.lt,
      Blocks.add_eq_some hat (by omega), Raw.defined_bind, Nat.zero_add, RawVec.deref_eq hread]
    rfl

/-- **`Iter::next`** hands the slots out in turn. -/
theorem VecHolds.next (hv : VecHolds v ws r) (hi : i < ws.length) :
    Looks (readWord ⟨v.asMutPtr.base, i⟩ : Prog T _) r (.ok ws[i] : Rust _)
      ∧ Looks (iterNext ⟨⟨v.asMutPtr.base, i⟩, ws.length - i⟩ : Prog T _) r
        (.ok (some ⟨v.asMutPtr.base, i⟩, ⟨⟨v.asMutPtr.base, i + 1⟩, ws.length - (i + 1)⟩) :
          Rust _) := by
  have hw : ws[i]? = some ws[i] := List.getElem?_eq_getElem hi
  refine ⟨?_, ?_⟩
  · rintro _ ⟨⟩ h total frame hh
    obtain ⟨others, hholds, -⟩ := hv.holds hh
    rw [readWord, hholds.read hw]
    rfl
  · rintro _ ⟨⟩ h total frame hh
    obtain ⟨others, hholds, -⟩ := hv.holds hh
    rw [iterNext, Iter.next, if_neg (Nat.sub_ne_zero_of_lt hi), RawVec.deref_eq (hholds.read hw),
      Raw.ok_bind, hholds.add (List.ne_nil_of_length_pos (Nat.zero_lt_of_lt hi)) hi, Nat.sub_add_eq]
    rfl

/-- **`insert`** puts the word where it is to be, or stops for lack of room. -/
theorem realizes_vecInsert {A : Allocator T} (hA : A.Sound) (hv : VecHolds v ws r)
    (hi : i ≤ ws.length) (hlen : ws.length < 256) (w : Node) :
    Realizes MayStop (vecInsert A v i w ws.length) r (.ok () : Rust Unit)
      fun v' _ kept => VecHolds v' (ws.insertIdx i w) kept := by
  rintro _ ⟨⟩ h total frame hh
  obtain ⟨others, hholds, hothers⟩ := hv.holds hh
  obtain ⟨layout, hlayout, height⟩ := exists_newLayout hholds.ownsBuffer.2
  rw [vecInsert]
  by_cases hnull : ws.length = v.capacity ∧ A h layout = 0
  · refine Or.inl ⟨_, rfl, ?_⟩
    rw [RawVec.insert_eq_allocError hholds hlen hnull.1 hlayout hnull.2]
    rfl
  · obtain ⟨v', mem', hinsert, hv'⟩ := RawVec.insert_eq_ok (A h) hholds hi hlen w
      hlayout fun hfull => by
        obtain ⟨halign, hunused⟩ := hA h layout fun hzero => hnull ⟨hfull, hzero⟩
        rw [height] at halign
        exact ⟨⟨fun hzero => hnull ⟨hfull, hzero⟩, Nat.mod_eq_zero_of_dvd halign⟩,
          hunused.buffer⟩
    obtain ⟨r', hr', hh'⟩ := exists_vecHolds hv' hothers
    exact Or.inr ⟨v', _, r', by rw [hinsert]; rfl, hr', has_ticks hh' _⟩

/-- **`remove`** hands the word back that was there. -/
theorem realizes_vecRemove (hv : VecHolds v ws r) (i : ℕ) :
    Realizes stops (vecRemove v i ws.length : Prog T _) r (.ok () : Rust Unit)
      fun w _ kept => w = ws[i]? ∧ VecHolds v (ws.eraseIdx i) kept := by
  rintro _ ⟨⟩ h total frame hh
  obtain ⟨others, hholds, hothers⟩ := hv.holds hh
  obtain ⟨mem', hremove, hv'⟩ := RawVec.remove_spec hholds i
  obtain ⟨r', hr', hh'⟩ := exists_vecHolds hv' hothers
  refine Or.inr ⟨ws[i]?, _, r', ?_, ⟨rfl, hr'⟩, hh'⟩
  rw [vecRemove, hremove]
  rfl

/-! ## The end of a vector

The elements are dropped where they are, the first one first, and then the buffer is given back. -/

section Deallocate

variable {C : Type} {P : C → Node → Held T → Prop} {cs : List C} {rc : Held T}
  {drop : Node → Prog T Unit}

omit hwidth in
/-- **The elements are dropped** where they are, one after another. -/
theorem realizes_dropElements {a : Usize} {b : Block Layout Node}
    (heach : Holdings.Each P cs ws rc) (hws : ∀ j w, ws[j]? = some w →
      b.cells[i + j]? = some (some w))
    (hdrop : ∀ c ∈ cs, ∀ w own, P c w own →
      Realizes stops (drop w) own (.ok () : Rust Unit) fun _ _ kept => kept = 0) :
    Realizes stops (Node.dropElements drop ⟨a, 0⟩ i ws.length) (bufferAt a b + rc)
      (.ok () : Rust Unit) fun _ _ kept => kept = bufferAt a b := by
  induction heach generalizing i with
  | nil => exact Realizes.ret (add_zero _)
  | @cons c w cs ws own rest h hs ih =>
    have hcell : b.cells[i]? = some (some w) := hws 0 w rfl
    have hi : i < b.cells.length := (List.getElem?_eq_some_iff.mp hcell).1
    refine Realizes.lookLeft ((looks_addWords (by omega)).more rfl) ?_
    rw [Nat.zero_add]
    refine Realizes.lookLeft ((looks_readWord hcell).more rfl) ?_
    refine Realizes.bindLeft (add_left_comm _ _ _) (hdrop c List.mem_cons_self w own h)
      fun _ kept hkept => ?_
    rw [hkept, zero_add]
    refine ih (fun j w hw => ?_) fun c hc => hdrop c (List.mem_cons_of_mem _ hc)
    rw [Nat.add_right_comm, Nat.add_assoc]
    exact hws (j + 1) w hw

/-- **`deallocate`** drops the elements and gives the buffer back, with the layout it was
allocated with. -/
theorem realizes_deallocate (hv : VecHolds v ws r) (heach : Holdings.Each P cs ws rc)
    (hdrop : ∀ c ∈ cs, ∀ w own, P c w own →
      Realizes stops (drop w) own (.ok () : Rust Unit) fun _ _ kept => kept = 0) :
    Realizes stops (Node.deallocate drop v ws.length) (r + rc) (.ok () : Rust Unit)
      fun v' _ kept => v' = RawVec.new ∧ kept = 0 := by
  cases hv with
  | null =>
    cases heach with
    | nil =>
      have hbase : RawVec.new.asMutPtr.base = 0 := BitVec.zero_and
      rw [Node.deallocate, if_pos hbase]
      exact Realizes.ret ⟨rfl, add_zero _⟩
  | @buffer a t b ws ha hb hws =>
    have hsize := hb.size_le
    have hlt := RawVec.two_mul_lt_of_le_isizeMax hsize
    rw [Node.deallocate, ha.asMutPtr hb.lt, if_neg ha.ne_zero]
    refine Realizes.bindLeft (add_zero _).symm
      (realizes_dropElements heach (fun j w hw => ?_) hdrop) fun _ kept hkept => ?_
    · rw [Nat.zero_add]
      exact hws j w hw
    rw [hkept, add_zero, ha.capacity hb.lt, Nat.mul_comm, RawVec.toUsize_eq_ok (by omega),
      Raw.lift_ok, lift_ok_bind, hb.layout, Rust.unwrap_some, Raw.lift_ok, lift_ok_bind]
    exact Realizes.bindLeft (add_zero _).symm realizes_freeBuffer fun _ kept hkept => by
      rw [hkept, add_zero]
      exact Realizes.ret ⟨rfl, rfl⟩

end Deallocate

end Placed

end Trie
