import Algors.Lib.Blocks
import Algors.Raw

/-!
# A vector in one word

`BoundedRawVec` is a pointer to a buffer of slots, whose lowest three bits are the size
class of the buffer: with tag `t` it has `2 ^ (t + 1)` slots, and a null pointer has
none. The length is kept by the caller, who passes it with every call.

The model is on a memory of blocks of cells. It has the allocator as a parameter, and
`undefined` wherever the source may not go: to a cell outside of a buffer, to one that
was never written, to a buffer that was freed, or freeing with another layout than the
one of the allocation. `Elem` is what the code asks of the type of the elements, which is
not zero-sized here, so that the branches for zero-sized types fall away.
-/

/-- `usize`. -/
abbrev Usize [Target] := BitVec (8 * Target.ptrSize)

/-- **A type of elements** as the compiler lays it out: not zero-sized, and not larger
than any object may be. -/
class Elem [Target] (T : Type) where
  /-- `mem::size_of`. -/
  size : ℕ
  /-- `mem::align_of`. -/
  align : ℕ
  size_pos : 0 < size
  size_le : size ≤ isizeMax
  align_pow : 2 ^ align.log2 = align

namespace Trie

variable [Target]

/-- `BoundedRawVec<T>`. -/
structure RawVec where
  tagged : Usize
deriving DecidableEq

/-- The buffers at their addresses. -/
abbrev Buffers (T : Type) := Blocks Usize Layout T

/-- `TAG_MASK`. -/
def TAG_MASK : Usize := 0b111

def TAG_MAX : ℕ := 0b111

namespace RawVec

/-- `BoundedRawVec::new`. -/
def new : RawVec := ⟨0⟩

/-- `BoundedRawVec::cap_tag`. -/
def capTag (self : RawVec) : ℕ := (self.tagged &&& TAG_MASK).toNat

/-- `BoundedRawVec::capacity`. -/
def capacity (self : RawVec) : ℕ := if self.tagged = 0 then 0 else 1 <<< (self.capTag + 1)

/-- `BoundedRawVec::as_mut_ptr`. -/
def asMutPtr (self : RawVec) : Ptr Usize := ⟨self.tagged &&& ~~~TAG_MASK, 0⟩

/-- `usize` subtraction, with overflow checks. -/
def subUsize (a b : ℕ) : Rust ℕ := if b ≤ a then .ok (a - b) else .error .overflow

/-- The message of `Layout::from_size_align(..).expect(..)`. -/
def layoutMsg : String := "Invalid layout for BoundedRawVec"

section Calls

variable {T : Type} [Elem T]

/-- `BoundedRawVec::alignment`. -/
def alignment (T : Type) [Elem T] : ℕ := max (Elem.align T) 8

omit [Elem T] in
/-- A reference to a place, which must hold an element. -/
def deref (mem : Buffers T) (p : Ptr Usize) : Raw (Ptr Usize) := do
  let _element ← Raw.defined (mem.read p)
  return p

omit [Elem T] in
/-- `BoundedRawVec::get`. -/
def get (self : RawVec) (i len : ℕ) (mem : Buffers T) : Raw (Option (Ptr Usize)) :=
  if self.tagged = 0 ∨ len ≤ i then .ok none
  else do
    let p ← Raw.defined (mem.add self.asMutPtr i)
    let p ← deref mem p
    return some p

omit [Elem T] in
/-- `BoundedRawVec::get_mut`. -/
def getMut (self : RawVec) (i len : ℕ) (mem : Buffers T) : Raw (Option (Ptr Usize)) :=
  if self.tagged = 0 ∨ len ≤ i then .ok none
  else do
    let p ← Raw.defined (mem.add self.asMutPtr i)
    let p ← deref mem p
    return some p

/-- Moving the elements to the new buffer, with a gap at `i`, and freeing the old one, if
there is one. -/
def moveTo (ptr newPtr : Ptr Usize) (i len curCap : ℕ) (mem : Buffers T) : Raw (Buffers T) :=
  if ptr.base = 0 then .ok mem
  else do
    -- copy the elements before the insertion position
    let mem ← Raw.defined (mem.copyNonoverlapping ptr newPtr i)
    -- copy the elements after the insertion position
    let src ← Raw.defined (mem.add ptr i)
    let dst ← Raw.defined (mem.add newPtr (i + 1))
    let n ← Raw.lift (subUsize len i)
    let mem ← Raw.defined (mem.copyNonoverlapping src dst n)
    let oldSize ← Raw.lift (toUsize (curCap * Elem.size T))
    let oldLayout ← Raw.lift (Rust.unwrap (Layout.fromSizeAlign oldSize (alignment T)))
    Raw.defined (mem.deallocate ptr oldLayout)

/-- The tag of the next size class. -/
def nextTag (self : RawVec) : Raw ℕ :=
  if self.capacity = 0 then .ok 0
  else if self.capTag < TAG_MAX then .ok (self.capTag + 1)
  else .error (.panic (.assertFailed "cur_tag < TAG_MAX"))

/-- The buffer of a size class. -/
def newBuffer (alloc : Layout → Usize) (newTag : ℕ) (mem : Buffers T) :
    Raw (Usize × Buffers T) := do
  let newCap := 1 <<< (newTag + 1)
  let size ← Raw.lift (toUsize (Elem.size T * newCap))
  let layout ← Raw.lift (Rust.expect layoutMsg (Layout.fromSizeAlign size (alignment T)))
  let newPtr := alloc layout
  if newPtr = 0 then .error .allocError
  else .ok (newPtr, mem.allocate newPtr layout (layout.size / Elem.size T))

/-- The branch of `BoundedRawVec::insert` for a buffer that is full. -/
def grow (alloc : Layout → Usize) (self : RawVec) (i len : ℕ) (mem : Buffers T) :
    Raw (Ptr Usize × RawVec × Buffers T) := do
  let newTag ← self.nextTag
  let (newPtr, mem) ← newBuffer alloc newTag mem
  let mem ← moveTo self.asMutPtr ⟨newPtr, 0⟩ i len self.capacity mem
  return (⟨newPtr, 0⟩, ⟨newPtr ||| BitVec.ofNat _ newTag⟩, mem)

omit [Elem T] in
/-- The branch for a buffer with room. -/
def makeRoom (self : RawVec) (i len : ℕ) (mem : Buffers T) :
    Raw (Ptr Usize × RawVec × Buffers T) := do
  let ptr := self.asMutPtr
  let src ← Raw.defined (mem.add ptr i)
  let dst ← Raw.defined (mem.add ptr (i + 1))
  let n ← Raw.lift (subUsize len i)
  let mem ← Raw.defined (mem.copy src dst n)
  return (ptr, self, mem)

/-- Both branches. -/
def makeGap (alloc : Layout → Usize) (self : RawVec) (i len : ℕ) (mem : Buffers T) :
    Raw (Ptr Usize × RawVec × Buffers T) :=
  if len = self.capacity then self.grow alloc i len mem else self.makeRoom i len mem

/-- **`BoundedRawVec::insert`.** -/
def insert (alloc : Layout → Usize) (self : RawVec) (i : ℕ) (element : T) (len : ℕ)
    (mem : Buffers T) : Raw (RawVec × Buffers T) := do
  let (ptr, self, mem) ← self.makeGap alloc i len mem
  let p ← Raw.defined (mem.add ptr i)
  let mem ← Raw.defined (mem.write p element)
  return (self, mem)

omit [Elem T] in
/-- **`BoundedRawVec::remove`.** -/
def remove (self : RawVec) (i len : ℕ) (mem : Buffers T) : Raw (Option T × Buffers T) :=
  if self.tagged = 0 ∨ len ≤ i then .ok (none, mem)
  else do
    let p := self.asMutPtr
    let src ← Raw.defined (mem.add p i)
    let val ← Raw.defined (mem.read src)
    let next ← Raw.defined (mem.add p (i + 1))
    let mem ← Raw.defined (mem.copy next src (len - i - 1))
    return (some val, mem)

end Calls

end RawVec

/-! ## The iterators -/

/-- `Iter`. -/
structure Iter where
  ptr : Ptr Usize
  len : ℕ
deriving DecidableEq

/-- `IterMut`. -/
structure IterMut where
  ptr : Ptr Usize
  len : ℕ
deriving DecidableEq

namespace RawVec

/-- `BoundedRawVec::iter`. -/
def iter (self : RawVec) (len : ℕ) : Iter := ⟨self.asMutPtr, len⟩

/-- `BoundedRawVec::iter_mut`. -/
def iterMut (self : RawVec) (len : ℕ) : IterMut := ⟨self.asMutPtr, len⟩

end RawVec

section Iterators

variable {T : Type}

/-- `Iter::next`. -/
def Iter.next (self : Iter) (mem : Buffers T) : Raw (Option (Ptr Usize) × Iter) :=
  if self.len = 0 then .ok (none, self)
  else do
    let res ← RawVec.deref mem self.ptr
    let ptr ← Raw.defined (mem.add self.ptr 1)
    return (some res, ⟨ptr, self.len - 1⟩)

/-- `ptr.add(n)`, where elements have a size, and else the pointer itself. -/
def addSized [Elem T] (mem : Buffers T) (p : Ptr Usize) (n : ℕ) : Raw (Ptr Usize) :=
  if Elem.size T = 0 then .ok p else Raw.defined (mem.add p n)

/-- `Iter::next_back`. -/
def Iter.nextBack [Elem T] (self : Iter) (mem : Buffers T) : Raw (Option (Ptr Usize) × Iter) :=
  if self.len = 0 then .ok (none, self)
  else do
    let len := self.len - 1
    let p ← addSized mem self.ptr len
    let p ← RawVec.deref mem p
    return (some p, ⟨self.ptr, len⟩)

/-- `IterMut::next`. -/
def IterMut.next [Elem T] (self : IterMut) (mem : Buffers T) :
    Raw (Option (Ptr Usize) × IterMut) :=
  if self.len = 0 then .ok (none, self)
  else do
    let res ← RawVec.deref mem self.ptr
    let ptr ← addSized mem self.ptr 1
    return (some res, ⟨ptr, self.len - 1⟩)

/-- `IterMut::next_back`. -/
def IterMut.nextBack [Elem T] (self : IterMut) (mem : Buffers T) :
    Raw (Option (Ptr Usize) × IterMut) :=
  if self.len = 0 then .ok (none, self)
  else do
    let len := self.len - 1
    let p ← addSized mem self.ptr len
    let p ← RawVec.deref mem p
    return (some p, ⟨self.ptr, len⟩)

end Iterators

end Trie
