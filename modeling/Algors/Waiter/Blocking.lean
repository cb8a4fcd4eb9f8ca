import Algors.Lib.Transition
import Algors.Queue.Fifo
import Mathlib

/-!
# Blocking calls

`push` and `pop` wait for an operation of the queue to succeed, on one object
of type `BlockingWait`, and then notify another, or the same. A thread tries
its operation a few times, then reads the epoch, tries once more, and blocks
if the epoch is still the same; a notification advances the epoch and wakes
one of the blocked threads, whichever it is.

Nothing here depends on which queue it is: an `Operations` says how a call of
the queue starts and what its steps do, and which `BlockingWait` a side waits
on and notifies is a `Setup`. Each critical section of the mutex is one step,
and so is `Condvar::wait`, up to where it blocks. A thread blocked there may
also wake by itself. The epoch is a natural number, which does not wrap.
-/

open Fifo (Op Outcome Side)

/-! ## Backoff -/

/-- `Backoff`. -/
structure Backoff where
  count : ℕ
deriving DecidableEq

namespace Backoff

def YIELD_MAX : ℕ := 8

/-- `Backoff::new`, and what `Backoff::reset` leaves. -/
def new : Backoff := ⟨0⟩

/-- `Backoff::spin`, with its `saturating_add`. -/
def spin (self : Backoff) : Backoff := ⟨min (self.count + 1) (2 ^ 32 - 1)⟩

/-- `Backoff::done`. -/
def done (self : Backoff) : Bool := self.count ≥ YIELD_MAX

end Backoff

/-! ## Threads that wait -/

namespace Waiter

/-- **The operations of a queue** with the state `σ`: how a call starts, which
side a call under way is of, and its steps, which may be told to fail
spuriously. -/
structure Operations (σ C T : Type) where
  init : σ
  start : Op T → C
  side : C → Side
  step : σ → Bool → C → Option (σ × (C ⊕ Outcome T))

/-- **Which object a side waits on and notifies.** -/
structure Setup (ω : Type) where
  waiter : Side → ω
  notifier : Side → ω

namespace Setup

/-- One object a side: the consumers wait on one and notify the other. -/
def separate : Setup Side := ⟨id, Side.other⟩

/-- One object for all. -/
def shared : Setup Unit := ⟨fun _ => (), fun _ => ()⟩

end Setup

/-- **Where a thread is** in `push` or `pop`. -/
inductive Pc (C T : Type) where
  /-- Between calls. -/
  | idle
  /-- `wait_for`, before the backoff is done: in the operation. -/
  | spinning (backoff : Backoff) (c : C)
  /-- About to read the epoch. -/
  | reading (op : Op T)
  /-- In the operation, after it read the epoch. -/
  | retrying (prev : ℕ) (c : C)
  /-- About to lock the mutex and compare the epoch. -/
  | checking (prev : ℕ) (op : Op T)
  /-- In `cvar.wait`. -/
  | blocked (prev : ℕ) (op : Op T)
  /-- The operation succeeded, and the notifier is to be notified. -/
  | notifying (o : Outcome T)
deriving DecidableEq

variable {ω τ σ C T : Type}

/-- The queue, the epochs, and the threads with the calls they are still to
make. -/
structure State (ω τ σ C T : Type) where
  queue : σ
  epoch : ω → ℕ
  pc : τ → Pc C T
  script : τ → List (Op T)

/-- What happens next. -/
inductive Action (τ : Type) where
  /-- A thread takes a step, and its compare-exchange may fail. -/
  | step (t : τ) (spurious : Bool)
  /-- A thread notifies, and a blocked thread wakes, if there is one. -/
  | notify (t : τ) (woken : Option τ)
  /-- A blocked thread wakes by itself. -/
  | wakeup (t : τ)

/-- Steps of one thread, with no spurious failure. -/
def steps {τ : Type} (t : τ) (n : ℕ) : List (Action τ) := List.replicate n (.step t false)

/-- The side of the call a thread is blocked in. -/
def Pc.blockedSide : Pc C T → Option Side
  | blocked _ op => some op.side
  | _ => none

/-- A thread is blocked on an object. -/
abbrev Pc.BlockedOn (W : Setup ω) (w : ω) (pc : Pc C T) : Prop :=
  pc.blockedSide.map W.waiter = some w

/-- A thread woken from `cvar.wait` has to lock the mutex again and compare. -/
def Pc.wake : Pc C T → Pc C T
  | blocked prev op => checking prev op
  | pc => pc

/-- **The body of the loop of `wait_for`**, from its start. -/
def loopStart (M : Operations σ C T) (backoff : Backoff) (op : Op T) : Pc C T :=
  if backoff.done then .reading op else .spinning backoff (M.start op)

/-- Where an operation of the spinning phase leads. -/
def afterSpin (M : Operations σ C T) (backoff : Backoff) : C ⊕ Outcome T → Pc C T
  | .inl c => .spinning backoff c
  | .inr o =>
    match o.retry with
    | none => .notifying o
    | some op => loopStart M backoff.spin op

/-- Where the operation tried after the epoch was read leads. -/
def afterRetry (prev : ℕ) : C ⊕ Outcome T → Pc C T
  | .inl c => .retrying prev c
  | .inr o =>
    match o.retry with
    | none => .notifying o
    | some op => .checking prev op

variable [DecidableEq τ]

/-- A thread takes the next step of its own. -/
def step (M : Operations σ C T) (W : Setup ω) (s : State ω τ σ C T) (t : τ) (spurious : Bool) :
    Option (State ω τ σ C T) :=
  match s.pc t with
  | .idle =>
    match s.script t with
    | [] => none
    | op :: ops => some
        { s with
          pc := Function.update s.pc t (loopStart M .new op)
          script := Function.update s.script t ops }
  | .spinning backoff c => (M.step s.queue spurious c).map fun p =>
      { s with queue := p.1, pc := Function.update s.pc t (afterSpin M backoff p.2) }
  | .reading op => some
      { s with
        pc := Function.update s.pc t (.retrying (s.epoch (W.waiter op.side)) (M.start op)) }
  | .retrying prev c => (M.step s.queue spurious c).map fun p =>
      { s with queue := p.1, pc := Function.update s.pc t (afterRetry prev p.2) }
  | .checking prev op => some
      { s with
        pc := Function.update s.pc t <|
          if s.epoch (W.waiter op.side) = prev then .blocked prev op
          -- `backoff.reset()` leaves it new
          else loopStart M .new op }
  | .blocked _ _ => none
  | .notifying _ => none

variable [DecidableEq ω] [Fintype τ]

/-- **`BlockingWait::notify`**: advance the epoch and wake one of the blocked
threads, if there are any. -/
def notify (W : Setup ω) (s : State ω τ σ C T) (t : τ) (woken : Option τ) :
    Option (State ω τ σ C T) :=
  match s.pc t with
  | .notifying o =>
    let w := W.notifier o.side
    let epoch := Function.update s.epoch w (s.epoch w + 1)
    match woken with
    | none =>
      if ∀ t', ¬ (s.pc t').BlockedOn W w then
        some { s with epoch, pc := Function.update s.pc t .idle }
      else none
    | some t' =>
      if (s.pc t').BlockedOn W w then
        some { s with
          epoch
          pc := Function.update (Function.update s.pc t' (s.pc t').wake) t .idle }
      else none
  | _ => none

/-- **All interleavings** of threads that make the calls of their scripts. -/
def system (M : Operations σ C T) (W : Setup ω) (scripts : τ → List (Op T)) :
    System (State ω τ σ C T) (Action τ) where
  init := ⟨M.init, fun _ => 0, fun _ => .idle, scripts⟩
  next s
    | .step t spurious => step M W s t spurious
    | .notify t woken => notify W s t woken
    | .wakeup t =>
      match s.pc t with
      | .blocked prev op => some { s with pc := Function.update s.pc t (.checking prev op) }
      | _ => none

/-! ## What each step does -/

omit [Fintype τ] in
/-- **One step of the system**, by what it does. -/
inductive Step (M : Operations σ C T) (W : Setup ω) (s : State ω τ σ C T) :
    Action τ → State ω τ σ C T → Prop
  | call (t : τ) (spurious : Bool) (op : Op T) (ops : List (Op T)) (hpc : s.pc t = .idle)
      (hscript : s.script t = op :: ops) : Step M W s (.step t spurious)
        { s with
          pc := Function.update s.pc t (loopStart M .new op)
          script := Function.update s.script t ops }
  | spin (t : τ) (spurious : Bool) (backoff : Backoff) (c : C) (q : σ) (r : C ⊕ Outcome T)
      (hpc : s.pc t = .spinning backoff c) (hstep : M.step s.queue spurious c = some (q, r)) :
      Step M W s (.step t spurious)
        { s with queue := q, pc := Function.update s.pc t (afterSpin M backoff r) }
  | read (t : τ) (spurious : Bool) (op : Op T) (hpc : s.pc t = .reading op) :
      Step M W s (.step t spurious)
        { s with
          pc := Function.update s.pc t (.retrying (s.epoch (W.waiter op.side)) (M.start op)) }
  | retry (t : τ) (spurious : Bool) (prev : ℕ) (c : C) (q : σ) (r : C ⊕ Outcome T)
      (hpc : s.pc t = .retrying prev c) (hstep : M.step s.queue spurious c = some (q, r)) :
      Step M W s (.step t spurious)
        { s with queue := q, pc := Function.update s.pc t (afterRetry prev r) }
  | block (t : τ) (spurious : Bool) (prev : ℕ) (op : Op T) (hpc : s.pc t = .checking prev op)
      (hprev : s.epoch (W.waiter op.side) = prev) : Step M W s (.step t spurious)
        { s with pc := Function.update s.pc t (.blocked prev op) }
  | again (t : τ) (spurious : Bool) (prev : ℕ) (op : Op T) (hpc : s.pc t = .checking prev op)
      (hprev : s.epoch (W.waiter op.side) ≠ prev) : Step M W s (.step t spurious)
        { s with pc := Function.update s.pc t (loopStart M .new op) }
  | notifyNone (t : τ) (o : Outcome T) (hpc : s.pc t = .notifying o)
      (hnone : ∀ t', ¬ (s.pc t').BlockedOn W (W.notifier o.side)) : Step M W s (.notify t none)
        { s with
          epoch := Function.update s.epoch (W.notifier o.side) (s.epoch (W.notifier o.side) + 1)
          pc := Function.update s.pc t .idle }
  | notifySome (t t' : τ) (o : Outcome T) (prev : ℕ) (op : Op T) (hpc : s.pc t = .notifying o)
      (hpc' : s.pc t' = .blocked prev op) (hwaiter : W.waiter op.side = W.notifier o.side) :
      Step M W s (.notify t (some t'))
        { s with
          epoch := Function.update s.epoch (W.notifier o.side) (s.epoch (W.notifier o.side) + 1)
          pc := Function.update (Function.update s.pc t' (.checking prev op)) t .idle }
  | wakeup (t : τ) (prev : ℕ) (op : Op T) (hpc : s.pc t = .blocked prev op) :
      Step M W s (.wakeup t) { s with pc := Function.update s.pc t (.checking prev op) }

omit [Fintype τ] in
theorem step_of_step {M : Operations σ C T} {W : Setup ω} {s s' : State ω τ σ C T} {t : τ}
    {spurious : Bool} (h : step M W s t spurious = some s') : Step M W s (.step t spurious) s' := by
  unfold step at h
  cases hpc : s.pc t with
  | idle =>
    cases hscript : s.script t with
    | nil => simp [hpc, hscript] at h
    | cons op ops =>
      simp only [hpc, hscript, Option.some.injEq] at h
      exact h ▸ .call t spurious op ops hpc hscript
  | spinning backoff c =>
    simp only [hpc, Option.map_eq_some_iff, Prod.exists] at h
    obtain ⟨q, r, hstep, rfl⟩ := h
    exact .spin t spurious backoff c q r hpc hstep
  | reading op =>
    simp only [hpc, Option.some.injEq] at h
    exact h ▸ .read t spurious op hpc
  | retrying prev c =>
    simp only [hpc, Option.map_eq_some_iff, Prod.exists] at h
    obtain ⟨q, r, hstep, rfl⟩ := h
    exact .retry t spurious prev c q r hpc hstep
  | checking prev op =>
    simp only [hpc, Option.some.injEq] at h
    subst h
    split_ifs with hprev
    · exact .block t spurious prev op hpc hprev
    · exact .again t spurious prev op hpc hprev
  | blocked prev op => simp [hpc] at h
  | notifying o => simp [hpc] at h

theorem step_of_notify {M : Operations σ C T} {W : Setup ω} {s s' : State ω τ σ C T} {t : τ}
    {woken : Option τ} (h : notify W s t woken = some s') : Step M W s (.notify t woken) s' := by
  unfold notify at h
  cases hpc : s.pc t with
  | notifying o =>
    cases woken with
    | none =>
      simp only [hpc, Option.ite_none_right_eq_some, Option.some.injEq] at h
      exact h.2 ▸ .notifyNone t o hpc h.1
    | some t' =>
      simp only [hpc, Option.ite_none_right_eq_some, Option.some.injEq] at h
      obtain ⟨hblocked, rfl⟩ := h
      cases hpc' : s.pc t' with
      | blocked prev op =>
        rw [hpc'] at hblocked
        exact .notifySome t t' o prev op hpc hpc' (Option.some.inj hblocked)
      | _ => simp [Pc.BlockedOn, Pc.blockedSide, hpc'] at hblocked
  | _ => simp [hpc] at h

/-- **Every step is one of these.** -/
theorem step_of_next {M : Operations σ C T} {W : Setup ω} {scripts : τ → List (Op T)}
    {s s' : State ω τ σ C T} {a : Action τ} (h : (system M W scripts).next s a = some s') :
    Step M W s a s' := by
  cases a with
  | step t spurious => exact step_of_step h
  | notify t woken => exact step_of_notify h
  | wakeup t =>
    unfold system at h
    cases hpc : s.pc t with
    | blocked prev op =>
      simp only [hpc, Option.some.injEq] at h
      exact h ▸ .wakeup t prev op hpc
    | _ => simp [hpc] at h

end Waiter
