import Algors.Waiter.Pair
import Algors.Waiter.Separate

/-!
# Waiting with any waiter

`push` and `pop` are generic in the waiter. All they know of `wait_for` is that
it calls their closure, and that it either returns what the closure at last came
back with or gives up with an error of its own. The closure of `push` has to
lend the value to every try and to get it back from every one that fails: it
keeps it in `store`, takes it out for the try and puts it back after.

Here a waiter is whatever it can do: between two calls of the closure it makes
another one, or gives up, as it likes and as often as it likes. The tries are
the calls of the queue, step by step, and between any two steps the other
threads do what they do – wait in calls of their own, with waiters of their own,
or try without waiting.

A `Frame` is a call of `push` or `pop` with its local variables. What it has done
so far is recorded in it, and no step looks at the record.
-/

open Fifo (Op Outcome Side)

namespace Waiter

/-! ## A call of `push` or `pop` -/

/-- **What `push` and `pop` return**: `Ok(())` and `Err((val, e))`, `Ok(val)` and
`Err(e)`. -/
inductive Returned (T E : Type) where
  | pushed
  | pushErr (val : T) (e : E)
  | popped (val : T)
  | popErr (e : E)
deriving DecidableEq

/-- Where a call of `push` or `pop` is. -/
inductive Stage (C T E : Type) where
  /-- In `wait_for`, and not in the closure. -/
  | waiting
  /-- In the closure, in the call of `try_push` or `try_pop` that `arg` names. -/
  | trying (arg : Op T) (c : C)
  /-- `wait_for` has returned `Ok`, and `r` is about to be returned. -/
  | notifying (r : Returned T E)
  | returned (r : Returned T E)
  /-- `store.take().unwrap()` found nothing. -/
  | panicked
deriving DecidableEq

/-- **A call of `push` or `pop`**, and what it has done. -/
structure Frame (σ C T E : Type) where
  op : Op T
  /-- The variable `store` of `push`. -/
  store : Option T
  stage : Stage C T E
  /-- What was tried, and what came of it; the latest first. -/
  tries : List (Op T × Outcome T)
  /-- The queue before and after each step of the tries. -/
  steps : List (σ × σ)
  /-- How often the notifier was notified. -/
  notified : ℕ
  /-- What the waiter gave up with. -/
  error : Option E

variable {σ ι τ C T E : Type}

namespace Frame

/-- The start of `push`, `let mut store = Some(val)`, and of `pop`. -/
def enter (op : Op T) : Frame σ C T E where
  op := op
  store := match op with
    | .push val => some val
    | .pop => none
  stage := .waiting
  tries := []
  steps := []
  notified := 0
  error := none

/-- The closure is called. -/
def callOp (M : Operations σ C T) (self : Frame σ C T E) : Frame σ C T E :=
  match self.op with
  | .push _ =>
    match self.store with
    | some val => { self with store := none, stage := .trying (.push val) (M.start (.push val)) }
    -- `store.take()?` is `None`, and so is what the closure returns
    | none => self
  | .pop => { self with stage := .trying .pop (M.start .pop) }

/-- The closure after its try: the value of a failed `try_push` is put back, and
the waiter stops at the first `Some`. -/
def tried (self : Frame σ C T E) (arg : Op T) (o : Outcome T) : Frame σ C T E :=
  let self := { self with tries := (arg, o) :: self.tries }
  match o with
  | .pushed => { self with stage := .notifying .pushed }
  | .full val => { self with store := some val, stage := .waiting }
  | .popped data => { self with stage := .notifying (.popped data) }
  | .empty => { self with stage := .waiting }

/-- `wait_for` returns `Err(e)`. -/
def giveUp (self : Frame σ C T E) (e : E) : Frame σ C T E :=
  let self := { self with error := some e }
  match self.op with
  | .push _ =>
    match self.store with
    | some val => { self with store := none, stage := .returned (.pushErr val e) }
    | none => { self with stage := .panicked }
  | .pop => { self with stage := .returned (.popErr e) }

end Frame

/-- What happens next in a call of `push` or `pop`. -/
inductive Turn (E : Type) where
  /-- The waiter calls the closure. -/
  | callOp
  /-- The waiter gives up. -/
  | giveUp (e : E)
  /-- A step of the try, whose compare-exchange may fail. -/
  | step (spurious : Bool)
  /-- `notifier.notify()`, and the return. -/
  | notify
deriving DecidableEq

/-- **One step of a call of `push` or `pop`**, and what it makes of the queue. -/
def Frame.next (M : Operations σ C T) (q : σ) (self : Frame σ C T E) :
    Turn E → Option (σ × Frame σ C T E)
  | .callOp =>
    match self.stage with
    | .waiting => some (q, self.callOp M)
    | _ => none
  | .giveUp e =>
    match self.stage with
    | .waiting => some (q, self.giveUp e)
    | _ => none
  | .step spurious =>
    match self.stage with
    | .trying arg c => (M.step q spurious c).map fun p =>
      let self := { self with steps := (q, p.1) :: self.steps }
      (p.1, p.2.elim (fun c => { self with stage := .trying arg c }) (self.tried arg))
    | _ => none
  | .notify =>
    match self.stage with
    | .notifying r => some (q, { self with notified := self.notified + 1, stage := .returned r })
    | _ => none

/-! ## Threads -/

/-- What a thread is doing. -/
inductive Thread (σ C T E : Type) where
  | idle
  /-- Trying without waiting: in a call of `try_push` or `try_pop` of its own. -/
  | direct (c : C)
  /-- In a call of `push` or `pop`, or just returned from it. -/
  | within (f : Frame σ C T E)

/-- What a thread does next. -/
inductive Move (T E : Type) where
  /-- It calls `push` or `pop`. -/
  | call (op : Op T)
  /-- The call goes on. -/
  | turn (a : Turn E)
  /-- It goes on after the call. -/
  | leave
  /-- It calls `try_push` or `try_pop`. -/
  | tryCall (op : Op T)
  /-- A step of that. -/
  | tryStep (spurious : Bool)
deriving DecidableEq

/-- The queue and its threads. -/
structure Crowd (σ τ C T E : Type) where
  queue : σ
  thread : τ → Thread σ C T E

/-- **All interleavings** of threads that wait, each with a waiter of its own, and
of threads that do not. -/
def crowd [DecidableEq τ] (M : Operations σ C T) (E : Type) :
    System (Crowd σ τ C T E) (τ × Move T E) where
  init := ⟨M.init, fun _ => .idle⟩
  next s a :=
    match s.thread a.1, a.2 with
    | .idle, .call op => some ⟨s.queue, Function.update s.thread a.1 (.within (.enter op))⟩
    | .idle, .tryCall op => some ⟨s.queue, Function.update s.thread a.1 (.direct (M.start op))⟩
    | .direct c, .tryStep spurious => (M.step s.queue spurious c).map fun p =>
      ⟨p.1, Function.update s.thread a.1 (p.2.elim .direct fun _ => .idle)⟩
    | .within f, .turn turn => (f.next M s.queue turn).map fun p =>
      ⟨p.1, Function.update s.thread a.1 (.within p.2)⟩
    | .within f, .leave =>
      match f.stage with
      | .returned _ => some ⟨s.queue, Function.update s.thread a.1 .idle⟩
      | _ => none
    | _, _ => none

/-! ## Calls that keep the value -/

/-- The success that a return value reports. -/
def Returned.success : Returned T E → Option (Outcome T)
  | pushed => some .pushed
  | popped val => some (.popped val)
  | pushErr _ _ | popErr _ => none

/-- The waiter's error, with the value of a `push`. -/
def Returned.err : Op T → E → Returned T E
  | .push val, e => .pushErr val e
  | .pop, e => .popErr e

namespace Frame

/-- What the tries that succeeded came back with. -/
def successes (self : Frame σ C T E) : List (Outcome T) :=
  (self.tries.map Prod.snd).filter fun o => o.retry.isNone

/-- No step of a try has changed what the threads share. -/
def Unchanged (shared : σ → ι) (self : Frame σ C T E) : Prop :=
  ∀ p ∈ self.steps, shared p.1 = shared p.2

/-- **A call of `push` or `pop` loses and doubles nothing.** -/
structure Conserves (shared : σ → ι) (self : Frame σ C T E) : Prop where
  /-- Every try is of the operation itself, a `try_push` of the one value. -/
  tried : ∀ p ∈ self.tries, p.1 = self.op
  atMostOne : self.successes.length ≤ 1
  sided : ∀ o ∈ self.successes, o.side = self.op.side
  noPanic : self.stage ≠ .panicked
  notYet : (∀ r, self.stage ≠ .returned r) → self.notified = 0
  /-- After a try that succeeded there is only the notification left. -/
  settled : ∀ o, self.successes = [o] → ∃ r, r.success = some o
    ∧ (self.stage = .notifying r ∨ self.stage = .returned r)
  /-- `Ok` is returned just when a try succeeded, and says what it came back
  with. -/
  ok : ∀ r o, self.stage = .returned r → (r.success = some o ↔ self.successes = [o])
  notified : ∀ r, self.stage = .returned r → r.success ≠ none → self.notified = 1
  /-- Otherwise it is the waiter's error, together with the original value. -/
  err : ∀ r, self.stage = .returned r → r.success = none → ∃ e, self.error = some e
    ∧ r = .err self.op e ∧ self.notified = 0 ∧ self.Unchanged shared

end Frame

/-- **A try that fails gives back what it was given and changes nothing**: `todo`
is what a call of the queue was made for, as long as it may still fail. -/
structure Harmless (M : Operations σ C T) (shared : σ → ι) (todo : C → Option (Op T)) : Prop where
  start : ∀ op, todo (M.start op) = some op
  step : ∀ q spurious c op q' c', todo c = some op → M.step q spurious c = some (q', .inl c') →
    todo c' = none ∨ (todo c' = some op ∧ shared q = shared q')
  fail : ∀ q spurious c op q' o, todo c = some op → M.step q spurious c = some (q', .inr o) →
    o.retry = some op ∧ shared q = shared q'
  stepDone : ∀ q spurious c q' c', todo c = none → M.step q spurious c = some (q', .inl c') →
    todo c' = none
  succeed : ∀ q spurious c q' o, todo c = none → M.step q spurious c = some (q', .inr o) →
    o.retry = none

namespace Frame

/-- The value a call has to hold on to between its tries. -/
def held : Op T → Option T
  | .push val => some val
  | .pop => none

section Step

variable {M : Operations σ C T} {shared : σ → ι} {todo : C → Option (Op T)}
  {f g : Frame σ C T E} {q q' : σ}

/-! ### What the pieces of a call do to a value that is held -/

theorem enter_eq (op : Op T) : (enter op : Frame σ C T E)
    = ⟨op, held op, .waiting, [], [], 0, none⟩ := by
  cases op <;> rfl

/-- The closure finds the value in `store`. -/
theorem callOp_eq (h : f.store = held f.op) :
    f.callOp M = { f with store := none, stage := .trying f.op (M.start f.op) } := by
  obtain ⟨op, store, stage, tries, steps, notified, error⟩ := f
  obtain rfl : store = held op := h
  cases op <;> rfl

/-- **So does the call when the waiter has given up**, and hands it back. -/
theorem giveUp_eq (h : f.store = held f.op) (e : E) : f.giveUp e
    = { f with store := none, stage := .returned (.err f.op e), error := some e } := by
  obtain ⟨op, store, stage, tries, steps, notified, error⟩ := f
  obtain rfl : store = held op := h
  cases op <;> rfl

/-- A try that fails puts it back. -/
theorem tried_of_fail (h : f.store = none) {o : Outcome T} (ho : o.retry = some f.op) :
    f.tried f.op o
      = { f with store := held f.op, stage := .waiting, tries := (f.op, o) :: f.tries } := by
  obtain ⟨op, store, stage, tries, steps, notified, error⟩ := f
  obtain rfl : store = none := h
  cases o with
  | full val | empty =>
    obtain rfl := Option.some.inj ho
    rfl
  | pushed | popped data => cases ho

/-- A try that succeeds ends the waiting. -/
theorem tried_of_success {o : Outcome T} (ho : o.retry = none) : ∃ r : Returned T E,
    r.success = some o
      ∧ f.tried f.op o = { f with stage := .notifying r, tries := (f.op, o) :: f.tries } := by
  cases o with
  | pushed => exact ⟨.pushed, rfl, rfl⟩
  | popped data => exact ⟨.popped data, rfl, rfl⟩
  | full val | empty => cases ho

/-! ### The invariant of a call -/

/-- **What a call has done where it is.** -/
def At (M : Operations σ C T) (shared : σ → ι) (todo : C → Option (Op T)) (f : Frame σ C T E) :
    Stage C T E → Prop
  | .waiting => f.store = held f.op ∧ f.successes = [] ∧ f.notified = 0 ∧ f.Unchanged shared
  | .trying arg c => arg = f.op ∧ f.store = none ∧ M.side c = f.op.side ∧ f.successes = []
    ∧ f.notified = 0 ∧ (todo c = none ∨ (todo c = some f.op ∧ f.Unchanged shared))
  | .notifying r => ∃ o, r.success = some o ∧ o.side = f.op.side ∧ f.successes = [o]
    ∧ f.notified = 0
  | .returned r => (∃ o, r.success = some o ∧ o.side = f.op.side ∧ f.successes = [o]
      ∧ f.notified = 1)
    ∨ ∃ e, f.error = some e ∧ r = .err f.op e ∧ f.successes = [] ∧ f.notified = 0
      ∧ f.Unchanged shared
  | .panicked => False

/-- The invariant of a call. -/
structure Inv (M : Operations σ C T) (shared : σ → ι) (todo : C → Option (Op T))
    (f : Frame σ C T E) : Prop where
  tried : ∀ p ∈ f.tries, p.1 = f.op
  stage : f.At M shared todo f.stage

theorem inv_enter (op : Op T) : (enter op : Frame σ C T E).Inv M shared todo := by
  rw [enter_eq]
  exact ⟨fun p hp => (List.not_mem_nil hp).elim, rfl, rfl, rfl,
    fun p hp => (List.not_mem_nil hp).elim⟩

/-- The record of one step more. -/
theorem Unchanged.cons (h : f.Unchanged shared) (hsame : shared q = shared q') :
    ({ f with steps := (q, q') :: f.steps } : Frame σ C T E).Unchanged shared := by
  intro p hp
  rcases List.mem_cons.mp hp with rfl | hp
  · exact hsame
  · exact h p hp

/-- A try that failed is not among the successes. -/
theorem successes_of_fail {op op' : Op T} {o : Outcome T} (ho : o.retry = some op')
    (h : f.tries = (op, o) :: g.tries) : f.successes = g.successes := by
  simp [successes, h, ho]

/-- One that succeeded is. -/
theorem successes_of_success {op : Op T} {o : Outcome T} (ho : o.retry = none)
    (h : f.tries = (op, o) :: g.tries) : f.successes = o :: g.successes := by
  simp [successes, h, ho]

/-- **The end of a try.** -/
theorem Inv.tried_inv (h : f.Inv M shared todo) (hM : Harmless M shared todo) (hS : Sided M)
    {arg : Op T} {c : C} (hstage : f.stage = .trying arg c) {spurious : Bool} {o : Outcome T}
    (hstep : M.step q spurious c = some (q', .inr o)) :
    (({ f with steps := (q, q') :: f.steps } : Frame σ C T E).tried arg o).Inv M shared todo := by
  obtain ⟨rfl, hstore, hside, hsucc, hnot, htodo⟩ : f.At M shared todo (.trying arg c) :=
    hstage ▸ h.stage
  have htried : ∀ p ∈ (f.op, o) :: f.tries, p.1 = f.op := fun p hp => by
    rcases List.mem_cons.mp hp with rfl | hp
    · rfl
    · exact h.tried p hp
  have hoside : o.side = f.op.side := (hS.step q spurious c q' (.inr o) hstep).trans hside
  cases hretry : o.retry with
  | none =>
    obtain ⟨r, hr, heq⟩ := tried_of_success (E := E)
      (f := { f with steps := (q, q') :: f.steps }) hretry
    rw [heq]
    refine ⟨htried, o, hr, hoside, ?_, hnot⟩
    rw [successes_of_success (g := f) hretry rfl, hsucc]
  | some op =>
    rcases htodo with hdone | ⟨hdoing, hsame⟩
    · cases hretry.symm.trans (hM.succeed q spurious c q' o hdone hstep)
    · obtain ⟨hfail, hshared⟩ := hM.fail q spurious c _ q' o hdoing hstep
      rw [tried_of_fail (f := { f with steps := (q, q') :: f.steps }) hstore hfail]
      refine ⟨htried, rfl, ?_, hnot, hsame.cons hshared⟩
      rw [successes_of_fail (g := f) hfail rfl, hsucc]

/-- **Every step keeps the invariant of a call**, whatever the queue is. -/
theorem Inv.next (h : f.Inv M shared todo) (hM : Harmless M shared todo) (hS : Sided M)
    {turn : Turn E} (hnext : f.next M q turn = some (q', g)) : g.Inv M shared todo := by
  unfold Frame.next at hnext
  cases hstage : f.stage with
  | waiting =>
    obtain ⟨hstore, hsucc, hnot, hsame⟩ : f.At M shared todo .waiting := hstage ▸ h.stage
    cases turn with
    | callOp =>
      simp only [hstage, callOp_eq hstore, Option.some.injEq, Prod.mk.injEq] at hnext
      obtain ⟨-, rfl⟩ := hnext
      exact ⟨h.tried, rfl, rfl, hS.start _, hsucc, hnot, Or.inr ⟨hM.start _, hsame⟩⟩
    | giveUp e =>
      simp only [hstage, giveUp_eq hstore, Option.some.injEq, Prod.mk.injEq] at hnext
      obtain ⟨-, rfl⟩ := hnext
      exact ⟨h.tried, Or.inr ⟨e, rfl, rfl, hsucc, hnot, hsame⟩⟩
    | step spurious | notify => simp [hstage] at hnext
  | trying arg c =>
    cases turn with
    | step spurious =>
      simp only [hstage, Option.map_eq_some_iff, Prod.exists, Prod.mk.injEq] at hnext
      obtain ⟨q₁, r, hstep, rfl, rfl⟩ := hnext
      cases r with
      | inr o => exact h.tried_inv hM hS hstage hstep
      | inl c' =>
        obtain ⟨rfl, hstore, hside, hsucc, hnot, htodo⟩ : f.At M shared todo (.trying arg c) :=
          hstage ▸ h.stage
        have hside' : M.side c' = f.op.side :=
          (hS.step q spurious c q₁ (.inl c') hstep).trans hside
        refine ⟨h.tried, rfl, hstore, hside', hsucc, hnot, ?_⟩
        rcases htodo with hdone | ⟨hdoing, hsame⟩
        · exact Or.inl (hM.stepDone q spurious c q₁ c' hdone hstep)
        · exact (hM.step q spurious c _ q₁ c' hdoing hstep).imp_right fun hstill =>
            ⟨hstill.1, hsame.cons hstill.2⟩
    | callOp | giveUp e | notify => simp [hstage] at hnext
  | notifying r =>
    cases turn with
    | notify =>
      simp only [hstage, Option.some.injEq, Prod.mk.injEq] at hnext
      obtain ⟨-, rfl⟩ := hnext
      obtain ⟨o, hr, hside, hsucc, hnot⟩ : f.At M shared todo (.notifying r) := hstage ▸ h.stage
      exact ⟨h.tried, Or.inl ⟨o, hr, hside, hsucc, congrArg Nat.succ hnot⟩⟩
    | callOp | giveUp e | step spurious => simp [hstage] at hnext
  | returned r | panicked => cases turn <;> simp [hstage] at hnext

/-- **The invariant says that nothing is lost or doubled.** -/
theorem Inv.conserves (h : f.Inv M shared todo) : f.Conserves shared := by
  have hstage := h.stage
  cases hf : f.stage with
  | waiting | trying arg c =>
    rw [hf] at hstage
    have hsucc : f.successes = [] := by
      first | exact hstage.2.1 | exact hstage.2.2.2.1
    have hnot : f.notified = 0 := by
      first | exact hstage.2.2.1 | exact hstage.2.2.2.2.1
    refine ⟨h.tried, by simp [hsucc], by simp [hsucc], by simp [hf], fun _ => hnot,
      by simp [hsucc], ?_, ?_, ?_⟩ <;> simp [hf]
  | notifying r =>
    rw [hf] at hstage
    obtain ⟨o, hr, hside, hsucc, hnot⟩ := hstage
    refine ⟨h.tried, by simp [hsucc], by simp [hsucc, hside], by simp [hf], fun _ => hnot,
      fun o' ho => ⟨r, ?_, Or.inl hf⟩, ?_, ?_, ?_⟩
    · rw [hr, (List.cons.inj (hsucc.symm.trans ho)).1]
    all_goals simp [hf]
  | returned r =>
    rw [hf] at hstage
    -- what is returned is `r`
    have hret : ∀ r', f.stage = .returned r' → r = r' := fun r' hr' =>
      Stage.returned.inj (hf.symm.trans hr')
    rcases hstage with ⟨o, hr, hside, hsucc, hnot⟩ | ⟨e, he, rfl, hsucc, hnot, hsame⟩
    · refine ⟨h.tried, by simp [hsucc], by simp [hsucc, hside], by simp [hf],
        fun hno => absurd hf (hno r), fun o' ho => ⟨r, ?_, Or.inr hf⟩, fun r' o' hr' => ?_,
        fun _ _ _ => hnot, fun r' hr' hnone => ?_⟩
      · rw [hr, (List.cons.inj (hsucc.symm.trans ho)).1]
      · obtain rfl := hret r' hr'
        rw [hr, hsucc]
        simp
      · obtain rfl := hret r' hr'
        cases hr.symm.trans hnone
    · have herr : (Returned.err f.op e).success = none := by cases f.op <;> rfl
      refine ⟨h.tried, by simp [hsucc], by simp [hsucc], by simp [hf],
        fun hno => absurd hf (hno _), by simp [hsucc], fun r' o' hr' => ?_, fun r' hr' hok => ?_,
        fun r' hr' _ => ?_⟩
      · obtain rfl := hret r' hr'
        rw [herr, hsucc]
        simp
      · obtain rfl := hret r' hr'
        exact absurd herr hok
      · obtain rfl := hret r' hr'
        exact ⟨e, he, rfl, hnot, hsame⟩
  | panicked =>
    rw [hf] at hstage
    exact hstage.elim

end Step

end Frame

/-! ## Every run -/

section Run

variable [DecidableEq τ] {M : Operations σ C T} {shared : σ → ι} {todo : C → Option (Op T)}

/-- **Every call of every thread keeps its invariant**, in whatever order the
threads take their steps. -/
theorem inv_of_reachable (hM : Harmless M shared todo) (hS : Sided M) {s : Crowd σ τ C T E}
    (hs : (crowd M E).Reachable s) (t : τ) (f : Frame σ C T E) (hf : s.thread t = .within f) :
    f.Inv M shared todo := by
  refine hs.invariant (I := fun s => ∀ t f, s.thread t = .within f → f.Inv M shared todo)
    (fun t f hf => by cases hf) ?_ t f hf
  rintro s ⟨t, a⟩ s' - hinv - hnext
  -- a thread other than the one that moves stays in the call it is in
  have hother : ∀ q n, (∀ f, n = .within f → f.Inv M shared todo) →
      ∀ t' f, (⟨q, Function.update s.thread t n⟩ : Crowd σ τ C T E).thread t' = .within f →
        f.Inv M shared todo := by
    intro q n hn t' f hf
    by_cases ht : t' = t
    · subst ht
      exact hn f (by simpa using hf)
    · exact hinv t' f (by simpa [ht] using hf)
  unfold crowd at hnext
  cases hthread : s.thread t with
  | idle =>
    cases a with
    | call op =>
      simp only [hthread, Option.some.injEq] at hnext
      subst hnext
      exact hother _ _ fun f hf => Thread.within.inj hf ▸ Frame.inv_enter op
    | tryCall op =>
      simp only [hthread, Option.some.injEq] at hnext
      subst hnext
      exact hother _ _ fun f hf => by cases hf
    | turn a | leave | tryStep spurious => simp [hthread] at hnext
  | direct c =>
    cases a with
    | tryStep spurious =>
      simp only [hthread, Option.map_eq_some_iff, Prod.exists] at hnext
      obtain ⟨q, r, -, rfl⟩ := hnext
      exact hother _ _ fun f hf => by cases r <;> cases hf
    | call op | turn a | leave | tryCall op => simp [hthread] at hnext
  | within f =>
    cases a with
    | turn a =>
      simp only [hthread, Option.map_eq_some_iff, Prod.exists] at hnext
      obtain ⟨q, g, hstep, rfl⟩ := hnext
      exact hother _ _ fun g' hg => Thread.within.inj hg ▸ (hinv t f hthread).next hM hS hstep
    | leave =>
      simp only [hthread] at hnext
      cases hstage : f.stage <;> simp only [hstage, Option.some.injEq, reduceCtorEq] at hnext
      subst hnext
      exact hother _ _ fun f hf => by cases hf
    | call op | tryCall op | tryStep spurious => simp [hthread] at hnext

end Run

end Waiter

/-! ## The queues of the crate -/

namespace Mpmc

variable {T : Type} {pow : ℕ} {w : Width pow}

open Call

/-- What a call was made for, until it claims a position. -/
def Call.todo : Call T → Option (Op T)
  | pushLoadTail val | pushLoadSeq val _ | pushCas val _ => some (.push val)
  | popLoadHead | popLoadSeq _ | popCas _ => some .pop
  | pushWrite _ _ | pushStoreSeq _ | popRead _ | popStoreSeq _ _ => none

/-- **A `try_push` or `try_pop` that fails changes nothing.** -/
theorem harmless_ops : Waiter.Harmless (ops T w) id Call.todo where
  start op := by cases op <;> rfl
  step q spurious c op q' c' htodo hexec := by
    cases execStep_of_exec hexec with
    | pushClaim val | popClaim => exact Or.inl rfl
    | pushLoadTail val | pushReady val idx hseq | pushStale val idx hseq | pushCasFail val idx
    | popLoadHead | popReady idx hseq | popStale idx hseq | popCasFail idx =>
      exact Or.inr ⟨htodo, rfl⟩
    | pushWrite val idx | popRead idx data hdata => cases htodo
  fail q spurious c op q' o htodo hexec := by
    cases execStep_of_exec hexec with
    | pushFull val idx hseq | popEmpty idx hseq => exact ⟨htodo, rfl⟩
    | pushStoreSeq idx | popStoreSeq idx data => cases htodo
  stepDone q spurious c q' c' htodo hexec := by
    cases execStep_of_exec hexec with
    | pushWrite val idx | popRead idx data hdata => rfl
    | _ => cases htodo
  succeed q spurious c q' o htodo hexec := by
    cases execStep_of_exec hexec with
    | pushStoreSeq idx | popStoreSeq idx data => rfl
    | _ => cases htodo

end Mpmc

namespace Spsc

variable {T : Type} {pow : ℕ}

open Call

/-- What a call was made for, until it goes to the slot. -/
def Call.todo : Call T → Option (Op T)
  | pushLoadTail val | pushLoadHead val _ => some (.push val)
  | popLoadHead | popLoadTail _ => some .pop
  | pushWrite _ _ | pushStoreTail _ | popRead _ | popStoreHead _ _ => none

/-- **A `try_push` or `try_pop` that fails changes nothing** but the copy of the
other side's counter, which its own side keeps. -/
theorem harmless_ops : Waiter.Harmless (ops T pow) Queue.inner Call.todo where
  start op := by cases op <;> rfl
  step q spurious c op q' c' htodo hexec := by
    cases execStep_of_exec hexec with
    | pushCached val h | pushRoom val t h | popCached h | popSome h hsome => exact Or.inl rfl
    | pushReload val h | popReload h => exact Or.inr ⟨htodo, rfl⟩
    | pushWrite val t | popRead h val hslot => cases htodo
  fail q spurious c op q' o htodo hexec := by
    cases execStep_of_exec hexec with
    | pushFull val t h | popEmpty h hempty => exact ⟨htodo, rfl⟩
    | pushStoreTail t | popStoreHead h val => cases htodo
  stepDone q spurious c q' c' htodo hexec := by
    cases execStep_of_exec hexec with
    | pushWrite val t | popRead h val hslot => rfl
    | _ => cases htodo
  succeed q spurious c q' o htodo hexec := by
    cases execStep_of_exec hexec with
    | pushStoreTail t | popStoreHead h val => rfl
    | _ => cases htodo

end Spsc

namespace Waiter

variable {τ T E : Type}

/-- **`push` and `pop` lose and double nothing, whatever the waiter does**, in
both queues and whatever the other threads do meanwhile. -/
theorem conserves_of_reachable [DecidableEq τ] {pow : ℕ} (w : Mpmc.Width pow) :
    (∀ s : Crowd (Mpmc.Inner T pow) τ (Mpmc.Call T) T E,
      (crowd (Mpmc.ops T w) E).Reachable s → ∀ t f, s.thread t = .within f → f.Conserves id)
    ∧ ∀ s : Crowd (Spsc.Queue T pow) τ (Spsc.Call T) T E,
      (crowd (Spsc.ops T pow) E).Reachable s →
        ∀ t f, s.thread t = .within f → f.Conserves Spsc.Queue.inner :=
  ⟨fun _ hs t f hf => (inv_of_reachable Mpmc.harmless_ops Mpmc.sided_ops hs t f hf).conserves,
    fun _ hs t f hf => (inv_of_reachable Spsc.harmless_ops Spsc.sided_ops hs t f hf).conserves⟩

/-- The call a thread is in. -/
def Thread.frame {σ C : Type} : Thread σ C T E → Option (Frame σ C T E)
  | within f => some f
  | idle | direct _ => none

theorem Thread.frame_eq_some {σ C : Type} {th : Thread σ C T E} {f : Frame σ C T E} :
    th.frame = some f ↔ th = .within f := by
  cases th <;> simp [Thread.frame]

/-- A try within a call, of so many steps. -/
def tryOnce {τ : Type} (t : τ) (n : ℕ) : List (τ × Move ℕ String) :=
  (t, .turn .callOp) :: List.replicate n (t, .turn (.step false))

/-- A thread fills the queue without waiting, and a `push` of another gives up
after two tries. -/
def abandonedPush {τ : Type} (t t' : τ) : List (τ × Move ℕ String) :=
  let fill (val : ℕ) : List (τ × Move ℕ String) :=
    (t, .tryCall (.push val)) :: List.replicate 5 (t, .tryStep false)
  [fill 7, fill 9, [(t', .call (.push 8))], tryOnce t' 2, tryOnce t' 2,
    [(t', .turn (.giveUp "timeout"))]].flatten

/-- A `pop` gives up on an empty queue, and a `push` succeeds at its first try. -/
def abandonedPop {τ : Type} (t t' : τ) : List (τ × Move ℕ String) :=
  [[(t, .call .pop)], tryOnce t 2, [(t, .turn (.giveUp "timeout")), (t', .call (.push 8))],
    tryOnce t' 3, [(t', .turn .notify)]].flatten

/-- The value of the `push` that gave up is handed back, and the value of the one
that did not is in the queue. -/
theorem conserves_of_reachable_abandoned :
    (∃ s : Crowd (Mpmc.Inner ℕ 1) (Fin 2) (Mpmc.Call ℕ) ℕ String,
      (crowd (Mpmc.ops ℕ .twoSlots) String).run (crowd (Mpmc.ops ℕ .twoSlots) String).init
          (abandonedPush 0 1) = some s
        ∧ ∃ f, s.thread 1 = .within f ∧ f.stage = .returned (.pushErr 8 "timeout")
          ∧ f.tries.length = 2 ∧ f.Conserves id)
    ∧ ∃ s : Crowd (Spsc.Queue ℕ 0) (Fin 2) (Spsc.Call ℕ) ℕ String,
      (crowd (Spsc.ops ℕ 0) String).run (crowd (Spsc.ops ℕ 0) String).init (abandonedPop 0 1)
          = some s
        ∧ ∃ f, s.thread 1 = .within f ∧ f.stage = .returned .pushed
          ∧ f.tries.length = 1 ∧ f.Conserves Spsc.Queue.inner := by
  have hpush : (((crowd (Mpmc.ops ℕ .twoSlots) String).run
      (crowd (Mpmc.ops ℕ .twoSlots) String).init (abandonedPush (0 : Fin 2) 1)).bind
        fun s => (s.thread 1).frame).map
        (fun f => (f.stage, f.tries.length)) = some (.returned (.pushErr 8 "timeout"), 2) := by
    decide +kernel
  have hpop : (((crowd (Spsc.ops ℕ 0) String).run (crowd (Spsc.ops ℕ 0) String).init
      (abandonedPop (0 : Fin 2) 1)).bind fun s => (s.thread 1).frame).map
        (fun f => (f.stage, f.tries.length)) = some (.returned .pushed, 1) := by
    decide +kernel
  obtain ⟨f, hf, hview⟩ := Option.map_eq_some_iff.mp hpush
  obtain ⟨s, hs, hframe⟩ := Option.bind_eq_some_iff.mp hf
  obtain ⟨hstage, htries⟩ := Prod.mk.inj hview
  obtain ⟨g, hg, hview'⟩ := Option.map_eq_some_iff.mp hpop
  obtain ⟨s', hs', hframe'⟩ := Option.bind_eq_some_iff.mp hg
  obtain ⟨hstage', htries'⟩ := Prod.mk.inj hview'
  have hin := Thread.frame_eq_some.mp hframe
  have hin' := Thread.frame_eq_some.mp hframe'
  exact ⟨⟨s, hs, f, hin, hstage, htries,
      (conserves_of_reachable .twoSlots).1 s (.of_run hs) 1 f hin⟩, s', hs', g, hin', hstage',
    htries', (conserves_of_reachable .oneSlot).2 s' (.of_run hs') 1 g hin'⟩

end Waiter
