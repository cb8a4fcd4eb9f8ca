import Algors.Basic
import Algors.Lib.Ring
import Algors.Lib.Transition
import Algors.Queue.Fifo

/-!
# The single-producer single-consumer queue

A ring of `2 ^ pow` slots and two counters, one a side. Each side keeps a copy
of the other's counter and reloads it only when the copy says that the queue is
full, or empty. As in `Algors.Queue.Mpmc`, a call is a sequence of steps – a
load or a store of a counter, with the comparison that follows it, or a write
or a read of a slot –, a `Call` is what it has left to do, and a slot with no
value in it is `none`. The counters do not wrap, and the differences the code
takes are integers.

There is one `Producer` and one `Consumer`, and their methods take them by
`&mut self`, so each side has at most one call under way; `system` lets the two
sides make calls and take their steps in any order.
-/

namespace Spsc

variable {T : Type} {pow : ℕ}

open Fifo (Op Outcome Side)

/-! ## The queue -/

/-- **The shared state**: `Inner`. -/
structure Inner (T : Type) (pow : ℕ) where
  head : ℕ
  tail : ℕ
  buf : Fin (2 ^ pow) → Option T

namespace Inner

/-- The body of the loop of `Inner::drop`: the value of the slot is dropped, and
is in it no more. -/
def dropSlot (idx : ℕ) (self : Inner T pow) : Option (Inner T pow × List T) :=
  (Ring.get self.buf idx).map fun val => ({ self with buf := Ring.set self.buf idx none }, [val])

/-- **`Inner::drop`**, with the values it drops; `needsDrop` is
`mem::needs_drop::<T>()`. -/
def drop (needsDrop : Bool) (self : Inner T pow) : Option (Inner T pow × List T) :=
  if needsDrop = false then some (self, [])
  else Ring.walk dropSlot (self.tail - self.head) self.head self

end Inner

/-- **The queue with its two handles**: `Producer::head_cache` and
`Consumer::tail_cache`. -/
structure Queue (T : Type) (pow : ℕ) where
  inner : Inner T pow
  headCache : ℕ
  tailCache : ℕ

/-- What `new_spsc` builds: no slot is written yet. -/
def Queue.empty (pow : ℕ) : Queue T pow := ⟨⟨0, 0, fun _ => none⟩, 0, 0⟩

/-- `new_spsc`, with the assertion of `Inner::new`. -/
def newSpsc [Target] (pow : ℕ) : Rust (Queue T pow) :=
  if pow < 8 * Target.ptrSize then .ok (.empty pow)
  else .error (.assertFailed "u32::from(pow) < usize::BITS")

namespace Queue

/-- `Inner::len`. -/
def len (_self : Queue T pow) : ℕ := 2 ^ pow

/-- The slot of a position. -/
def slot (self : Queue T pow) (pos : ℕ) : Option T := Ring.get self.inner.buf pos

/-- The queue with the slot of a position changed. -/
def setSlot (self : Queue T pow) (pos : ℕ) (slot : Option T) : Queue T pow :=
  { self with inner.buf := Ring.set self.inner.buf pos slot }

end Queue

/-! ## The steps of a call -/

/-- **What a call has left to do**, with its local variables. -/
inductive Call (T : Type) where
  /-- `try_push`: load the tail, and compare it with the cached head. -/
  | pushLoadTail (val : T)
  /-- Reload the head, and compare the tail with it. -/
  | pushLoadHead (val : T) (t : ℕ)
  /-- Write the value. -/
  | pushWrite (val : T) (t : ℕ)
  /-- Publish it. -/
  | pushStoreTail (t : ℕ)
  /-- `try_pop`: load the head, and compare it with the cached tail. -/
  | popLoadHead
  /-- Reload the tail, and compare it with the head. -/
  | popLoadTail (h : ℕ)
  /-- Read the value. -/
  | popRead (h : ℕ)
  /-- Give the slot back. -/
  | popStoreHead (h : ℕ) (val : T)
deriving DecidableEq

open Call

/-- The first step of a call. -/
def invoke : Op T → Call T
  | .push val => pushLoadTail val
  | .pop => popLoadHead

/-- **One step of a call.** A read of a slot with no value in it is undefined
and has no result. -/
def exec (q : Queue T pow) : Call T → Option (Queue T pow × (Call T ⊕ Outcome T))
  | pushLoadTail val =>
    let t := q.inner.tail
    if (t : ℤ) - q.headCache = q.len then some (q, .inl (pushLoadHead val t))
    else some (q, .inl (pushWrite val t))
  | pushLoadHead val t =>
    let q := { q with headCache := q.inner.head }
    if (t : ℤ) - q.headCache = q.len then some (q, .inr (.full val))
    else some (q, .inl (pushWrite val t))
  | pushWrite val t => some (q.setSlot t (some val), .inl (pushStoreTail t))
  | pushStoreTail t => some ({ q with inner.tail := t + 1 }, .inr .pushed)
  | popLoadHead =>
    let h := q.inner.head
    if (q.tailCache : ℤ) - h = 0 then some (q, .inl (popLoadTail h))
    else some (q, .inl (popRead h))
  | popLoadTail h =>
    let q := { q with tailCache := q.inner.tail }
    if (q.tailCache : ℤ) - h = 0 then some (q, .inr .empty)
    else some (q, .inl (popRead h))
  | popRead h => (q.slot h).map fun val => (q.setSlot h none, .inl (popStoreHead h val))
  | popStoreHead h val => some ({ q with inner.head := h + 1 }, .inr (.popped val))

/-! ## The two sides -/

/-- **The queue with its two sides**: each is idle or in a call, which was made
for an operation. The history has the calls that returned, in that order. -/
structure State (T : Type) (pow : ℕ) where
  queue : Queue T pow
  call : Side → Option (Op T × Call T)
  history : List (Op T × Outcome T)

/-- What a side may do: make a call when it is idle, one of its own kind, or
take a step of its call. -/
inductive Action (T : Type) where
  | call (op : Op T)
  | step (side : Side)
deriving DecidableEq

/-- The state after the call of a side went on to `r`. -/
def State.advance (s : State T pow) (side : Side) (op : Op T) (q : Queue T pow) :
    Call T ⊕ Outcome T → State T pow
  | .inl c => { s with queue := q, call := Function.update s.call side (some (op, c)) }
  | .inr o =>
    { queue := q
      call := Function.update s.call side none
      history := s.history ++ [(op, o)] }

/-- **All interleavings** of the calls of the two sides. -/
def system (T : Type) (pow : ℕ) : System (State T pow) (Action T) where
  init := ⟨.empty pow, fun _ => none, []⟩
  next s
    | .call op =>
      match s.call op.side with
      | none => some
          { s with call := Function.update s.call op.side (some (op, invoke op)) }
      | some _ => none
    | .step side =>
      match s.call side with
      | none => none
      | some (op, c) => (exec s.queue c).map fun p => s.advance side op p.1 p.2

/-- Runs start from what `new_spsc` builds. -/
theorem init_of_newSpsc [Target] {q : Queue T pow} (h : newSpsc pow = .ok q) :
    (system T pow).init.queue = q := by
  unfold newSpsc at h
  split_ifs at h
  exact Except.ok.inj h

/-! ## What each step does -/

/-- **One step of a call**, by what it does to the queue. -/
inductive ExecStep (q : Queue T pow) : Call T → Queue T pow → Call T ⊕ Outcome T → Prop
  | pushReload (val : T) (h : q.inner.tail = q.headCache + 2 ^ pow) :
      ExecStep q (pushLoadTail val) q (.inl (pushLoadHead val q.inner.tail))
  | pushCached (val : T) (h : q.inner.tail ≠ q.headCache + 2 ^ pow) :
      ExecStep q (pushLoadTail val) q (.inl (pushWrite val q.inner.tail))
  | pushFull (val : T) (t : ℕ) (h : t = q.inner.head + 2 ^ pow) :
      ExecStep q (pushLoadHead val t) { q with headCache := q.inner.head } (.inr (.full val))
  | pushRoom (val : T) (t : ℕ) (h : t ≠ q.inner.head + 2 ^ pow) :
      ExecStep q (pushLoadHead val t) { q with headCache := q.inner.head }
        (.inl (pushWrite val t))
  | pushWrite (val : T) (t : ℕ) :
      ExecStep q (pushWrite val t) (q.setSlot t (some val)) (.inl (pushStoreTail t))
  | pushStoreTail (t : ℕ) :
      ExecStep q (pushStoreTail t) { q with inner.tail := t + 1 } (.inr .pushed)
  | popReload (h : q.tailCache = q.inner.head) :
      ExecStep q popLoadHead q (.inl (popLoadTail q.inner.head))
  | popCached (h : q.tailCache ≠ q.inner.head) :
      ExecStep q popLoadHead q (.inl (popRead q.inner.head))
  | popEmpty (h : ℕ) (hempty : q.inner.tail = h) :
      ExecStep q (popLoadTail h) { q with tailCache := q.inner.tail } (.inr .empty)
  | popSome (h : ℕ) (hsome : q.inner.tail ≠ h) :
      ExecStep q (popLoadTail h) { q with tailCache := q.inner.tail } (.inl (popRead h))
  | popRead (h : ℕ) (val : T) (hslot : q.slot h = some val) :
      ExecStep q (popRead h) (q.setSlot h none) (.inl (popStoreHead h val))
  | popStoreHead (h : ℕ) (val : T) :
      ExecStep q (popStoreHead h val) { q with inner.head := h + 1 } (.inr (.popped val))

/-- **Every step is one of these.** -/
theorem execStep_of_exec {q q' : Queue T pow} {c : Call T} {r : Call T ⊕ Outcome T}
    (h : exec q c = some (q', r)) : ExecStep q c q' r := by
  cases c with
  | pushLoadTail val =>
    simp only [exec] at h
    split_ifs at h with heq <;> obtain ⟨rfl, rfl⟩ := Prod.mk.inj (Option.some.inj h)
    · exact .pushReload val (by rw [Queue.len] at heq; omega)
    · exact .pushCached val (by rw [Queue.len] at heq; omega)
  | pushLoadHead val t =>
    simp only [exec] at h
    split_ifs at h with heq <;> obtain ⟨rfl, rfl⟩ := Prod.mk.inj (Option.some.inj h)
    · exact .pushFull val t (by rw [Queue.len] at heq; omega)
    · exact .pushRoom val t (by rw [Queue.len] at heq; omega)
  | pushWrite val t =>
    obtain ⟨rfl, rfl⟩ := Prod.mk.inj (Option.some.inj h)
    exact .pushWrite val t
  | pushStoreTail t =>
    obtain ⟨rfl, rfl⟩ := Prod.mk.inj (Option.some.inj h)
    exact .pushStoreTail t
  | popLoadHead =>
    simp only [exec] at h
    split_ifs at h with heq <;> obtain ⟨rfl, rfl⟩ := Prod.mk.inj (Option.some.inj h)
    · exact .popReload (by omega)
    · exact .popCached (by omega)
  | popLoadTail h' =>
    simp only [exec] at h
    split_ifs at h with heq <;> obtain ⟨rfl, rfl⟩ := Prod.mk.inj (Option.some.inj h)
    · exact .popEmpty h' (by omega)
    · exact .popSome h' (by omega)
  | popRead h' =>
    obtain ⟨val, hval, hp⟩ := Option.map_eq_some_iff.mp h
    obtain ⟨rfl, rfl⟩ := Prod.mk.inj hp
    exact .popRead h' val hval
  | popStoreHead h' val =>
    obtain ⟨rfl, rfl⟩ := Prod.mk.inj (Option.some.inj h)
    exact .popStoreHead h' val

/-- **A step of the system**: an idle side makes a call, or a side in a call
takes a step of it. -/
theorem system_next_cases {s s' : State T pow} {a : Action T}
    (h : (system T pow).next s a = some s') :
    (∃ op, s.call op.side = none
      ∧ s' = { s with call := Function.update s.call op.side (some (op, invoke op)) })
    ∨ ∃ side op c q r, s.call side = some (op, c) ∧ ExecStep s.queue c q r
      ∧ s' = s.advance side op q r := by
  unfold system at h
  cases a with
  | call op =>
    cases hc : s.call op.side with
    | none =>
      simp only [hc, Option.some.injEq] at h
      exact Or.inl ⟨op, hc, h.symm⟩
    | some c => simp [hc] at h
  | step side =>
    cases hc : s.call side with
    | none => simp [hc] at h
    | some oc =>
      obtain ⟨op, c⟩ := oc
      simp only [hc, Option.map_eq_some_iff, Prod.exists] at h
      obtain ⟨q, r, hexec, rfl⟩ := h
      exact Or.inr ⟨side, op, c, q, r, hc, execStep_of_exec hexec, rfl⟩

end Spsc
