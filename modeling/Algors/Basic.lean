import Mathlib.Data.List.Basic

/-!
# What a call does: return, or fault

The functions of the crates are total in Rust's type system and partial in
fact: an `unwrap` on `None`, an `expect`, an `assert!` and an index past the
end of a slice all panic. A model of such a function returns in `Rust`, which
is `Except` with the panics as errors; proving that it returns `.ok` is
proving that none of them happens.

Loops that the source leaves to run until they break are recursions on an
explicit bound, and running past it is the separate fault `diverges`, so that
a result is never the artefact of a bound.

`Target` is the part of the compilation target the code looks at.
-/

/-- **The ways a call does not return.** -/
inductive Fault where
  /-- `Option::unwrap` on `None`. -/
  | unwrapNone
  /-- `Option::expect` or `Result::expect`, with its message. -/
  | expectFailed (msg : String)
  /-- A failed `assert!`. -/
  | assertFailed (msg : String)
  /-- An index out of the bounds of a slice or a `Vec`. -/
  | indexOutOfBounds
  /-- Integer arithmetic out of range, with overflow checks on. -/
  | overflow
  /-- The bound on a loop ran out before the loop broke. -/
  | diverges
deriving DecidableEq, Repr

/-- The result of a call: a value, or the fault that ended it. -/
abbrev Rust (α : Type) := Except Fault α

namespace Rust

variable {α β : Type}

@[simp] theorem ok_bind (a : α) (f : α → Rust β) :
    (bind (Except.ok a : Rust α) f : Rust β) = f a := rfl

@[simp] theorem error_bind (e : Fault) (f : α → Rust β) :
    (bind (Except.error e : Rust α) f : Rust β) = Except.error e := rfl

@[simp] theorem pure_eq_ok (a : α) : (pure a : Rust α) = Except.ok a := rfl

/-- **A sequence of calls returns** when both of them do. -/
theorem bind_eq_ok {x : Rust α} {f : α → Rust β} {b : β} :
    (bind x f : Rust β) = .ok b ↔ ∃ a, x = .ok a ∧ f a = .ok b := by
  cases x with
  | ok a => simp
  | error e => simp

/-- `Option::unwrap`. -/
def unwrap : Option α → Rust α
  | some a => .ok a
  | none => .error .unwrapNone

@[simp] theorem unwrap_some (a : α) : unwrap (some a) = .ok a := rfl

theorem unwrap_eq_ok {x : Option α} {a : α} : unwrap x = .ok a ↔ x = some a := by
  cases x with
  | some b => simp
  | none => simp [unwrap]

/-- `Option::expect`. -/
def expect (msg : String) : Option α → Rust α
  | some a => .ok a
  | none => .error (.expectFailed msg)

@[simp] theorem expect_some (msg : String) (a : α) : expect msg (some a) = .ok a := rfl

/-- Indexing a slice. -/
def index (xs : List α) (i : ℕ) : Rust α :=
  match xs[i]? with
  | some a => .ok a
  | none => .error .indexOutOfBounds

/-- `&xs[i..]`. -/
def sliceFrom (xs : List α) (i : ℕ) : Rust (List α) :=
  if i ≤ xs.length then .ok (xs.drop i) else .error .indexOutOfBounds

/-- `&xs[..i]`. -/
def sliceTo (xs : List α) (i : ℕ) : Rust (List α) :=
  if i ≤ xs.length then .ok (xs.take i) else .error .indexOutOfBounds

theorem sliceFrom_eq_ok {xs : List α} {i : ℕ} (h : i ≤ xs.length) :
    sliceFrom xs i = .ok (xs.drop i) := if_pos h

theorem sliceTo_eq_ok {xs : List α} {i : ℕ} (h : i ≤ xs.length) :
    sliceTo xs i = .ok (xs.take i) := if_pos h

end Rust

/-- The byte order of a compilation target. -/
inductive Endian where
  | little
  | big
deriving DecidableEq, Repr

/-- **The compilation target**, as far as the code looks at it:
`cfg!(target_endian)` and the size of a pointer. -/
class Target where
  endian : Endian
  /-- `size_of::<*const u8>()`. -/
  ptrSize : ℕ

/-- A 64-bit little-endian target, the one the examples run on. -/
@[reducible] def Target.x86_64 : Target := ⟨.little, 8⟩

/-- A little-endian target with pointers of 4 bytes. -/
@[reducible] def Target.i686 : Target := ⟨.little, 4⟩

/-- A byte string: what a `&[u8]` points to. -/
abbrev Bytes := List UInt8
