import Mathlib.Data.List.Basic

/-!
# Taking a list apart from both ends

Calls that take an element from the front or from the back of what is left of a list,
in any order. What came from the front, what is left, and what came from the back make
up the list, and a call finds nothing only when as many calls as the list has elements
were made before it: so every element is taken exactly once.
-/

variable {α β : Type}

/-- An end of a list. -/
inductive End where
  | front
  | back
deriving DecidableEq

/-- **Taking an element from an end**: the element, if there is one, and what is left. -/
def End.take : End → List α → Option α × List α
  | front, xs => (xs.head?, xs.tail)
  | back, xs => (xs.getLast?, xs.dropLast)

/-- **Taking elements from the ends**, one for each call: what the calls got, and what is
left. -/
def takeEnds : List End → List α → List (Option α) × List α
  | [], xs => ([], xs)
  | e :: ends, xs =>
    let (outs, rest) := takeEnds ends (e.take xs).2
    ((e.take xs).1 :: outs, rest)

/-- The elements that the calls at one end got, in the order of the calls. -/
def taken (e : End) : List End → List (Option α) → List α
  | e' :: ends, out :: outs => (if e' = e then out.toList else []) ++ taken e ends outs
  | _, _ => []

theorem takeEnds_cons (e : End) (ends : List End) (xs : List α) :
    takeEnds (e :: ends) xs
      = ((e.take xs).1 :: (takeEnds ends (e.take xs).2).1, (takeEnds ends (e.take xs).2).2) := rfl

/-- **The elements that were taken and those that are left make up the list.** -/
theorem takeEnds_split (ends : List End) (xs : List α) :
    xs = taken .front ends (takeEnds ends xs).1 ++ (takeEnds ends xs).2
      ++ (taken .back ends (takeEnds ends xs).1).reverse := by
  induction ends generalizing xs with
  | nil => simp [taken, takeEnds]
  | cons e ends ih =>
    rw [takeEnds_cons]
    cases e with
    | front =>
      cases xs with
      | nil => simpa [taken, End.take] using ih []
      | cons x xs => simpa [taken, End.take] using ih xs
    | back =>
      rcases List.eq_nil_or_concat xs with rfl | ⟨xs, x, rfl⟩
      · simpa [taken, End.take] using ih []
      · have hxs := ih xs
        simp only [taken, End.take, reduceCtorEq, if_false, if_true, List.nil_append,
          List.concat_eq_append, List.getLast?_concat, List.dropLast_concat, Option.toList_some,
          List.reverse_append, List.reverse_singleton]
        rw [← List.append_assoc, ← hxs]

/-- One element less is left. -/
theorem length_take_snd (e : End) (xs : List α) : (e.take xs).2.length = xs.length - 1 := by
  cases e
  · exact List.length_tail
  · exact List.length_dropLast

/-- An end has nothing exactly when the list is empty. -/
theorem take_fst_eq_none_iff (e : End) (xs : List α) : (e.take xs).1 = none ↔ xs.length = 0 := by
  cases e
  · exact List.head?_eq_none_iff.trans List.length_eq_zero_iff.symm
  · exact List.getLast?_eq_none_iff.trans List.length_eq_zero_iff.symm

/-- **A call finds nothing** when there were as many calls before it as elements. -/
theorem takeEnds_eq_none_iff (ends : List End) (xs : List α) (k : ℕ) :
    (takeEnds ends xs).1[k]? = some none ↔ k < ends.length ∧ xs.length ≤ k := by
  induction ends generalizing xs k with
  | nil => simp [takeEnds]
  | cons e ends ih =>
    rw [takeEnds_cons]
    cases k with
    | zero =>
      rw [List.getElem?_cons_zero, Option.some.injEq, take_fst_eq_none_iff]
      simp
    | succ k =>
      rw [List.getElem?_cons_succ, ih, length_take_snd, List.length_cons]
      omega

/-- All calls are answered. -/
theorem length_takeEnds (ends : List End) (xs : List α) :
    (takeEnds ends xs).1.length = ends.length := by
  induction ends generalizing xs with
  | nil => rfl
  | cons e ends ih =>
    rw [takeEnds_cons, List.length_cons, List.length_cons, ih]

/-- **Each element is taken once**, from its end, until there are none: the answers of
the calls, with what is left, make up the list, and the calls after as many as there are
elements get nothing. -/
def EachOnce (xs : List α) (ends : List End) (outs : List (Option α)) : Prop :=
  outs.length = ends.length
    ∧ (∃ rest, xs = taken .front ends outs ++ rest ++ (taken .back ends outs).reverse)
    ∧ ∀ k : ℕ, outs[k]? = some none ↔ k < ends.length ∧ xs.length ≤ k

/-- So it is where elements are taken from both ends. -/
theorem eachOnce_takeEnds (ends : List End) (xs : List α) :
    EachOnce xs ends (takeEnds ends xs).1 :=
  ⟨length_takeEnds ends xs, ⟨_, takeEnds_split ends xs⟩, takeEnds_eq_none_iff ends xs⟩
