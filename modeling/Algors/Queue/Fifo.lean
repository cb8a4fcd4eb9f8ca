import Mathlib.Data.List.Basic
import Mathlib.Data.Finset.Insert
import Mathlib.Data.Fintype.Defs

/-!
# The bounded queue

What the queues of the crate are for: a queue of at most `cap` elements, where
`try_push` appends or gives the value back, and `try_pop` takes the oldest
element if there is one. Each call is one step here.
-/

namespace Fifo

variable {T : Type}

/-- **A call.** -/
inductive Op (T : Type) where
  | push (val : T)
  | pop
deriving DecidableEq

/-- **What a call returns**: `Ok(())` or `Err(val)` from `try_push`,
`Some(data)` or `None` from `try_pop`. -/
inductive Outcome (T : Type) where
  | pushed
  | full (val : T)
  | popped (data : T)
  | empty
deriving DecidableEq

/-- The two sides of a queue. -/
inductive Side where
  | producer
  | consumer
deriving DecidableEq

instance : Fintype Side := ⟨{.producer, .consumer}, fun k => by cases k <;> decide⟩

/-- The side a side waits for. -/
def Side.other : Side → Side
  | producer => consumer
  | consumer => producer

theorem Side.ne_other (k : Side) : k ≠ k.other := by cases k <;> exact Side.noConfusion

theorem Side.eq_or_eq_other (k k' : Side) : k = k' ∨ k = k'.other := by
  cases k <;> cases k' <;> simp [Side.other]

/-- The side that makes a call. -/
def Op.side : Op T → Side
  | push _ => .producer
  | pop => .consumer

/-- The side a call returns to. -/
def Outcome.side : Outcome T → Side
  | pushed | full _ => .producer
  | popped _ | empty => .consumer

/-- **The call to make again** after one that gave up, with the value it gave
back. -/
def Outcome.retry : Outcome T → Option (Op T)
  | full val => some (.push val)
  | empty => some .pop
  | pushed | popped _ => none

theorem Outcome.side_of_retry {o : Outcome T} {op : Op T} (h : o.retry = some op) :
    op.side = o.side := by
  cases o with
  | full val | empty =>
    obtain rfl := Option.some.inj h
    rfl
  | pushed | popped data => cases h

/-- **A call on the stored elements**, the oldest first. -/
def apply (cap : ℕ) (stored : List T) : Op T → List T × Outcome T
  | .push val => if stored.length < cap then (stored ++ [val], .pushed) else (stored, .full val)
  | .pop =>
    match stored with
    | [] => ([], .empty)
    | val :: stored => (stored, .popped val)

/-- A call that gave up changed nothing. -/
theorem eq_of_retry {cap : ℕ} {stored stored' : List T} {op op' : Op T} {o : Outcome T}
    (h : apply cap stored op = (stored', o)) (ho : o.retry = some op') : stored' = stored := by
  cases op with
  | push val =>
    unfold apply at h
    split_ifs at h with hlt
    · obtain rfl := congrArg Prod.snd h
      cases ho
    · exact (congrArg Prod.fst h).symm
  | pop =>
    cases stored with
    | nil => exact (congrArg Prod.fst h).symm
    | cons val stored =>
      obtain rfl := congrArg Prod.snd h
      cases ho

/-- **A run of calls**: what is stored after it, and what the calls return. -/
def run (cap : ℕ) (stored : List T) : List (Op T) → List T × List (Outcome T)
  | [] => (stored, [])
  | op :: ops =>
    let (stored, o) := apply cap stored op
    let (stored, os) := run cap stored ops
    (stored, o :: os)

/-! ## Histories -/

/-- **A history of calls that is a run of the bounded queue**, from nothing
stored. -/
def Serial (cap : ℕ) (history : List (Op T × Outcome T)) (stored : List T) : Prop :=
  run cap [] (history.map Prod.fst) = (stored, history.map Prod.snd)

theorem run_append (cap : ℕ) (stored : List T) (ops ops' : List (Op T)) :
    run cap stored (ops ++ ops') = ((run cap (run cap stored ops).1 ops').1,
      (run cap stored ops).2 ++ (run cap (run cap stored ops).1 ops').2) := by
  induction ops generalizing stored with
  | nil => rfl
  | cons op ops ih =>
    simp only [List.cons_append, run, ih]

theorem Serial.nil (cap : ℕ) : Serial cap ([] : List (Op T × Outcome T)) [] := rfl

/-- One call more. -/
theorem Serial.snoc {cap : ℕ} {history : List (Op T × Outcome T)} {stored stored' : List T}
    (h : Serial cap history stored) {op : Op T} {o : Outcome T}
    (happly : apply cap stored op = (stored', o)) :
    Serial cap (history ++ [(op, o)]) stored' := by
  unfold Serial at h ⊢
  simp [run_append, h, run, happly]

/-- The values pushed, in order. -/
def pushed (history : List (Op T × Outcome T)) : List T :=
  history.filterMap fun
    | (.push val, .pushed) => some val
    | _ => none

/-- The values popped, in order. -/
def popped (history : List (Op T × Outcome T)) : List T :=
  history.filterMap fun
    | (_, .popped data) => some data
    | _ => none

/-- **What was pushed was popped or is stored**, in the order it was pushed. -/
theorem append_pushed_eq {cap : ℕ} {history : List (Op T × Outcome T)} {stored stored' : List T}
    (h : run cap stored (history.map Prod.fst) = (stored', history.map Prod.snd)) :
    stored ++ pushed history = popped history ++ stored' := by
  induction history generalizing stored with
  | nil =>
    obtain rfl : stored = stored' := congrArg Prod.fst h
    simp [pushed, popped]
  | cons call history ih =>
    obtain ⟨op, o⟩ := call
    simp only [List.map_cons, run, Prod.mk.injEq, List.cons.injEq] at h
    obtain ⟨hstored, ho, hos⟩ := h
    have hrest := ih (Prod.ext hstored hos)
    cases op with
    | push val =>
      unfold apply at ho hrest
      split_ifs at ho hrest with hlt
      · obtain rfl : .pushed = o := ho
        simpa [pushed, popped] using hrest
      · obtain rfl : .full val = o := ho
        simpa [pushed, popped] using hrest
    | pop =>
      cases stored with
      | nil =>
        obtain rfl : .empty = o := ho
        simpa [pushed, popped, apply] using hrest
      | cons val stored =>
        obtain rfl : .popped val = o := ho
        simpa [pushed, popped, apply] using hrest

theorem Serial.pushed_eq {cap : ℕ} {history : List (Op T × Outcome T)} {stored : List T}
    (h : Serial cap history stored) : pushed history = popped history ++ stored :=
  append_pushed_eq h

/-- The values given to pushes, in order. -/
def given (history : List (Op T × Outcome T)) : List T :=
  history.filterMap fun
    | (.push val, _) => some val
    | _ => none

/-- The values handed back by pushes, in order. -/
def handedBack (history : List (Op T × Outcome T)) : List T :=
  history.filterMap fun
    | (_, .full val) => some val
    | _ => none

/-- **What was given to a push was handed back or accepted.** -/
theorem given_perm {cap : ℕ} {history : List (Op T × Outcome T)} {stored stored' : List T}
    (h : run cap stored (history.map Prod.fst) = (stored', history.map Prod.snd)) :
    (given history).Perm (handedBack history ++ pushed history) := by
  induction history generalizing stored with
  | nil => exact .nil
  | cons call history ih =>
    obtain ⟨op, o⟩ := call
    simp only [List.map_cons, run, Prod.mk.injEq, List.cons.injEq] at h
    obtain ⟨hstored, ho, hos⟩ := h
    have hrest := ih (Prod.ext hstored hos)
    cases op with
    | push val =>
      unfold apply at ho
      split_ifs at ho with hlt
      · obtain rfl : .pushed = o := ho
        exact (hrest.cons val).trans List.perm_middle.symm
      · obtain rfl : .full val = o := ho
        exact hrest.cons val
    | pop =>
      cases stored with
      | nil =>
        obtain rfl : .empty = o := ho
        exact hrest
      | cons val stored =>
        obtain rfl : .popped val = o := ho
        exact hrest

theorem Serial.given_perm {cap : ℕ} {history : List (Op T × Outcome T)} {stored : List T}
    (h : Serial cap history stored) : (given history).Perm (handedBack history ++ pushed history) :=
  Fifo.given_perm h

end Fifo
