import Algors.Basic
import Algors.Lib.HeapOrder
import Algors.Lib.Transition

/-!
# The binary heap

A vector laid out as a tree, and a comparator. The comparator is an `FnMut`
closure: a function of what it captured, which it may change, and which may
panic. A panic in the middle of an operation leaves the heap with the vector as
it was at the call, so that is what the outcome `panicked` keeps.

`sift_up` and `sift_down` are loops on an index; they end since the index comes
nearer to the root, or to the end of the vector, and the bound on the number of
rounds is the length.
-/

namespace Heap

/-- **A comparator**: its answer and what it has captured after it, or a
panic. -/
abbrev Comparator (T σ : Type) := σ → T → T → Option (Ordering × σ)

/-- A comparator that is a function of what it compares. -/
def Comparator.pure {T : Type} (cmp : T → T → Ordering) : Comparator T Unit :=
  fun s a b => some (cmp a b, s)

/-- **The ways an operation does not return.** -/
inductive Halt (T : Type) where
  | fault (e : Fault)
  /-- The comparator panicked while the heap had these elements. -/
  | panicked (data : List T)
deriving DecidableEq

@[simp] theorem ok_bind {T α β : Type} (a : α) (f : α → Except (Halt T) β) :
    (bind (Except.ok a : Except (Halt T) α) f : Except (Halt T) β) = f a := rfl

end Heap

/-- `Heap`, with what its comparator has captured. -/
structure Heap (T σ : Type) where
  data : List T
  captured : σ

namespace Heap

variable {T σ : Type} (cmp : Comparator T σ)

/-- `Heap::new`. -/
def new (captured : σ) : Heap T σ := ⟨[], captured⟩

/-- `Heap::len`. -/
def len (self : Heap T σ) : ℕ := self.data.length

/-- `Heap::is_empty`. -/
def isEmpty (self : Heap T σ) : Bool := self.data.isEmpty

/-- `Heap::left`. -/
def left (i : ℕ) : ℕ := i * 2 + 1

/-- `Heap::right`. -/
def right (i : ℕ) : ℕ := i * 2 + 2

/-- `Heap::parent`. -/
def parent (i : ℕ) : ℕ := (i - 1) / 2

/-- `(self.cmp)(&self.data[i], &self.data[j])`. -/
def compare (self : Heap T σ) (i j : ℕ) : Except (Halt T) (Heap T σ × Ordering) :=
  match self.data[i]?, self.data[j]? with
  | some a, some b =>
    match cmp self.captured a b with
    | some (ord, captured) => .ok (⟨self.data, captured⟩, ord)
    | none => .error (.panicked self.data)
  | _, _ => .error (.fault .indexOutOfBounds)

/-- `self.data.swap(i, j)`. -/
def swap (self : Heap T σ) (i j : ℕ) : Except (Halt T) (Heap T σ) :=
  match self.data[i]?, self.data[j]? with
  | some a, some b => .ok ⟨(self.data.set i b).set j a, self.captured⟩
  | _, _ => .error (.fault .indexOutOfBounds)

/-- The loop of `sift_up`: `while i > 0`. -/
def siftUpLoop : ℕ → Heap T σ → ℕ → Except (Halt T) (Heap T σ)
  | 0, _, _ => .error (.fault .diverges)
  | fuel + 1, self, i =>
    if i > 0 then do
      let p := parent i
      let (self, ord) ← self.compare cmp p i
      match ord with
      | .lt | .eq => .ok self
      | .gt => do
        let self ← self.swap i p
        siftUpLoop fuel self p
    else .ok self

/-- `Heap::sift_up`. -/
def siftUp (self : Heap T σ) : Except (Halt T) (Heap T σ) :=
  if self.len ≤ 1 then .ok self else siftUpLoop cmp self.len self (self.len - 1)

/-- The smaller child in `sift_down`: the right one, if it is there and less
than the left. -/
def smallerChild (self : Heap T σ) (i : ℕ) : Except (Halt T) (Heap T σ × ℕ) :=
  if right i < self.len then do
    let (self, ord) ← self.compare cmp (right i) (left i)
    .ok (self, if ord = .lt then right i else left i)
  else .ok (self, left i)

/-- The loop of `sift_down`: `while i < self.len()`. -/
def siftDownLoop : ℕ → Heap T σ → ℕ → Except (Halt T) (Heap T σ)
  | 0, _, _ => .error (.fault .diverges)
  | fuel + 1, self, i =>
    if i < self.len then
      if left i ≥ self.len then .ok self
      else do
        let (self, child) ← self.smallerChild cmp i
        let (self, ord) ← self.compare cmp i child
        match ord with
        | .gt => do
          let self ← self.swap i child
          siftDownLoop fuel self child
        | .lt | .eq => .ok self
    else .ok self

/-- `Heap::sift_down`. -/
def siftDown (self : Heap T σ) : Except (Halt T) (Heap T σ) :=
  if self.len ≤ 1 then .ok self else siftDownLoop cmp (self.len + 1) self 0

/-- **`Heap::push`.** -/
def push (self : Heap T σ) (element : T) : Except (Halt T) (Heap T σ) :=
  siftUp cmp ⟨self.data ++ [element], self.captured⟩

/-- **`Heap::pop`.** -/
def pop (self : Heap T σ) : Except (Halt T) (Heap T σ × Option T) :=
  if self.isEmpty then .ok (self, none)
  else do
    let self ← self.swap 0 (self.len - 1)
    let res := self.data.getLast?
    let self ← siftDown cmp ⟨self.data.dropLast, self.captured⟩
    .ok (self, res)

/-- `Heap::peek`. -/
def peek (self : Heap T σ) : Option T := self.data[0]?

/-! ## Runs -/

/-- A call that changes the heap. -/
inductive Op (T : Type) where
  | push (element : T)
  | pop
deriving DecidableEq

/-- The heap after a call, and what the call hands back. -/
def apply (self : Heap T σ) : Op T → Except (Halt T) (Heap T σ × Option T)
  | .push element => do
    let self ← self.push cmp element
    .ok (self, none)
  | .pop => self.pop cmp

/-- **The heap, with the elements pushed and popped so far.** -/
structure State (T σ : Type) where
  heap : Heap T σ
  pushed : List T
  popped : List T

/-- The elements a call pushes. -/
def Op.pushed : Op T → List T
  | push element => [element]
  | pop => []

/-- **Runs of calls**: a call that does not return has no successor. -/
def system (captured : σ) : System (State T σ) (Op T) where
  init := ⟨new captured, [], []⟩
  next s op := (s.heap.apply cmp op).toOption.map fun p =>
    ⟨p.1, op.pushed ++ s.pushed, p.2.toList ++ s.popped⟩

/-- Pushing the elements of a list. -/
def pushAll (self : Heap T σ) : List T → Except (Halt T) (Heap T σ)
  | [] => .ok self
  | element :: elements => do
    let self ← self.push cmp element
    self.pushAll elements

/-- `while let Some(val) = heap.pop()`: what is popped until nothing is. -/
def drain : ℕ → Heap T σ → Except (Halt T) (List T)
  | 0, _ => .error (.fault .diverges)
  | fuel + 1, self => do
    let (self, res) ← self.pop cmp
    match res with
    | none => .ok []
    | some val => do
      let vals ← drain fuel self
      .ok (val :: vals)

end Heap
