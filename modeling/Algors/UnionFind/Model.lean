import Algors.Basic
import Algors.Lib.Transition
import Mathlib.Algebra.Order.Ring.Int

/-!
# Union-find

The structure keeps one signed number an element: a negative one makes the
element a root and has the size of its set as absolute value, and any other is
the index of the element's parent. `find` follows the parents to the root, and
then goes the way again and makes every element on it a child of the root.

The loops are recursions on a bound, and running out of it is the fault
`diverges`; an index out of range and a subtraction below zero are faults too.
The numbers are integers, so that sizes and indices do not overflow.
-/

/-- `UnionFind`. -/
structure UnionFind where
  data : List ℤ
  numSets : ℕ
deriving DecidableEq, Repr

namespace UnionFind

/-- `UnionFind::new`. -/
def new (size : ℕ) : UnionFind := ⟨List.replicate size (-1), size⟩

/-- `UnionFind::with_capacity`: the capacity does not show. -/
def withCapacity (_size : ℕ) : UnionFind := ⟨[], 0⟩

/-- `UnionFind::len`. -/
def len (self : UnionFind) : ℕ := self.data.length

/-- `UnionFind::num_sets`. -/
def num_sets (self : UnionFind) : ℕ := self.numSets

/-- `UnionFind::add`. -/
def add (self : UnionFind) : UnionFind × ℕ :=
  (⟨self.data ++ [-1], self.numSets + 1⟩, self.data.length)

/-- The first loop of `find`: `while self.data[root] >= 0`. -/
def rootLoop (data : List ℤ) : ℕ → ℕ → Rust ℕ
  | 0, _ => .error .diverges
  | fuel + 1, root => do
    let value ← Rust.index data root
    if value ≥ 0 then rootLoop data fuel value.toNat else .ok root

/-- The second loop of `find`: `while self.data[cur] >= 0`. -/
def flattenLoop (root : ℕ) : ℕ → List ℤ → ℕ → Rust (List ℤ)
  | 0, _, _ => .error .diverges
  | fuel + 1, data, cur => do
    let next ← Rust.index data cur
    if next ≥ 0 then flattenLoop root fuel (data.set cur root) next.toNat else .ok data

/-- **`UnionFind::find`.** -/
def find (self : UnionFind) (i : ℕ) : Rust (UnionFind × ℕ) := do
  let root ← rootLoop self.data (self.len + 1) i
  let data ← flattenLoop root (self.len + 1) self.data i
  .ok (⟨data, self.numSets⟩, root)

/-- `self.data[child] += ..; self.data[child] = parent`: a root with the sizes
of two added up, and the other root its child. -/
def attach (data : List ℤ) (child parent : ℕ) : Rust (List ℤ) := do
  let sizeParent ← Rust.index data parent
  let sizeChild ← Rust.index data child
  .ok ((data.set parent (sizeParent + sizeChild)).set child parent)

/-- `self.num_sets -= 1`. -/
def decrement (numSets : ℕ) : Rust ℕ :=
  match numSets with
  | 0 => .error .overflow
  | numSets + 1 => .ok numSets

/-- **`UnionFind::union`.** -/
def union (self : UnionFind) (i j : ℕ) : Rust (UnionFind × Bool) := do
  let (self, rootI) ← self.find i
  let (self, rootJ) ← self.find j
  if rootJ = rootI then .ok (self, false)
  else
    let sizeJ ← Rust.index self.data rootJ
    let sizeI ← Rust.index self.data rootI
    let data ←
      if sizeJ ≤ sizeI then attach self.data rootI rootJ else attach self.data rootJ rootI
    let numSets ← decrement self.numSets
    .ok (⟨data, numSets⟩, true)

/-- `UnionFind::size_of`. -/
def sizeOf (self : UnionFind) (i : ℕ) : Rust (UnionFind × ℕ) := do
  let (self, root) ← self.find i
  let size ← Rust.index self.data root
  .ok (self, size.natAbs)

/-! ## Runs -/

/-- A call that changes the structure. -/
inductive Op where
  | add
  | find (i : ℕ)
  | union (i j : ℕ)
  | sizeOf (i : ℕ)
deriving DecidableEq, Repr

/-- The indices of a call are in range. -/
def Op.InRange (len : ℕ) : Op → Prop
  | add => True
  | find i | sizeOf i => i < len
  | union i j => i < len ∧ j < len

instance (len : ℕ) : (op : Op) → Decidable (op.InRange len)
  | .add => inferInstanceAs (Decidable True)
  | .find i | .sizeOf i => inferInstanceAs (Decidable (i < len))
  | .union i j => inferInstanceAs (Decidable (i < len ∧ j < len))

/-- The structure after a call. -/
def apply (self : UnionFind) : Op → Rust UnionFind
  | .add => .ok self.add.1
  | .find i => (self.find i).map Prod.fst
  | .union i j => (self.union i j).map Prod.fst
  | .sizeOf i => (self.sizeOf i).map Prod.fst

/-- How a structure is made. -/
inductive Start where
  | new (size : ℕ)
  | withCapacity (size : ℕ)

/-- The structure as it is made. -/
def Start.build : Start → UnionFind
  | new size => UnionFind.new size
  | withCapacity size => UnionFind.withCapacity size

/-- **The structure, and the pairs united so far.** -/
structure State where
  uf : UnionFind
  pairs : List (ℕ × ℕ)

/-- The pair a call unites. -/
def Op.pairs : Op → List (ℕ × ℕ)
  | union i j => [(i, j)]
  | _ => []

/-- **Runs of calls** on indices in range: a call that does not return has no
successor. -/
def system (start : Start) : System State Op where
  init := ⟨start.build, []⟩
  next s op :=
    if op.InRange s.uf.len then
      (s.uf.apply op).toOption.map fun uf => ⟨uf, op.pairs ++ s.pairs⟩
    else none

end UnionFind
