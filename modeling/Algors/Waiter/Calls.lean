import Algors.Waiter.Wakeup

/-!
# Waiting threads run the queue

Of what a waiting thread does, the queue sees the calls: a thread makes a call
when it is in none, takes the steps of it, and is in none again when it ends.
So whatever relation between the queue and the calls of the threads is kept by
these three is kept by waiting threads, in whatever order they block, notify
and wake. The two queues of the crate bring their own systems of calls as such
a relation, and with it all that was proved about them.

A queue may ask that a thread makes calls of some sides only. A thread that
repeats an operation stays on the side it is on.
-/

open Fifo (Op Outcome Side)

namespace Waiter

variable {ω τ σ C T : Type}

/-! ## Relations that calls keep -/

/-- The calls after the step of a thread's call. -/
def afterStep [DecidableEq τ] (calls : τ → Option C) (t : τ) (r : C ⊕ Outcome T) : τ → Option C :=
  Function.update calls t (r.elim some fun _ => none)

/-- **A relation between the queue and the calls of the threads** that holds at
the start and is kept by the calls and their steps, as long as each thread
makes calls of sides it may. -/
structure Closed [DecidableEq τ] (M : Operations σ C T) (may : τ → Side → Prop)
    (R : σ → (τ → Option C) → Prop) : Prop where
  init : R M.init fun _ => none
  start : ∀ q calls t op, R q calls → calls t = none → may t op.side →
    R q (Function.update calls t (some (M.start op)))
  step : ∀ q calls t c spurious q' r, R q calls → calls t = some c →
    M.step q spurious c = some (q', r) → R q' (afterStep calls t r)

/-- **The steps of a call stay on its side.** -/
structure Sided (M : Operations σ C T) : Prop where
  start : ∀ op, M.side (M.start op) = op.side
  step : ∀ q spurious c q' r, M.step q spurious c = some (q', r) → M.sideOf r = M.side c

/-- The side a thread is on. -/
def Pc.side (M : Operations σ C T) : Pc C T → Option Side
  | idle => none
  | spinning _ c | retrying _ c => some (M.side c)
  | reading op | checking _ op | blocked _ op => some op.side
  | notifying o => some o.side

/-- A thread is where it may be: on one of its sides, and notifying after a
success only. -/
structure Pc.Ok (M : Operations σ C T) (may : Side → Prop) (pc : Pc C T) : Prop where
  side : ∀ k, pc.side M = some k → may k
  success : ∀ o, pc = .notifying o → o.retry = none

/-- The calls of waiting threads. -/
def State.calls (s : State ω τ σ C T) (t : τ) : Option C := (s.pc t).call

section Closed

variable {M : Operations σ C T} {W : Setup ω} {may : Side → Prop} {k : Side}

/-- A thread is in no call, or in one that it has only just made. -/
def Fresh (M : Operations σ C T) (may : Side → Prop) (c : Option C) : Prop :=
  c = none ∨ ∃ op, may op.side ∧ c = some (M.start op)

/-- Where a step of a call leads, as far as the calls go. -/
def Follows (M : Operations σ C T) (may : Side → Prop) (r : C ⊕ Outcome T) (n : Option C) : Prop :=
  (∃ c, r = .inl c ∧ n = some c) ∨ ((∃ o, r = .inr o) ∧ Fresh M may n)

theorem fresh_loopStart (backoff : Backoff) {op : Op T} (hmay : may op.side) :
    Fresh M may (loopStart M backoff op).call := by
  unfold loopStart
  split_ifs
  · exact Or.inl rfl
  · exact Or.inr ⟨op, hmay, rfl⟩

theorem follows_afterSpin (backoff : Backoff) {r : C ⊕ Outcome T} (hmay : may (M.sideOf r)) :
    Follows M may r (afterSpin M backoff r).call := by
  cases r with
  | inl c => exact Or.inl ⟨c, rfl, rfl⟩
  | inr o =>
    refine Or.inr ⟨⟨o, rfl⟩, ?_⟩
    cases hretry : o.retry with
    | none => simp only [afterSpin, hretry]; exact Or.inl rfl
    | some op =>
      simp only [afterSpin, hretry]
      exact fresh_loopStart _ (Outcome.side_of_retry hretry ▸ hmay)

theorem follows_afterRetry (prev : ℕ) (r : C ⊕ Outcome T) :
    Follows M may r (afterRetry prev r).call := by
  cases r with
  | inl c => exact Or.inl ⟨c, rfl, rfl⟩
  | inr o =>
    refine Or.inr ⟨⟨o, rfl⟩, Or.inl ?_⟩
    cases hretry : o.retry <;> simp only [afterRetry, hretry] <;> rfl

theorem ok_idle : Pc.Ok M may (.idle : Pc C T) where
  side k hk := by cases hk
  success o ho := by cases ho

theorem ok_loopStart (hM : Sided M) (backoff : Backoff) {op : Op T} (hmay : may op.side) :
    (loopStart M backoff op).Ok M may := by
  unfold loopStart
  split_ifs
  · exact ⟨fun k hk => Option.some.inj hk ▸ hmay, fun o ho => by cases ho⟩
  · refine ⟨fun k hk => ?_, fun o ho => by cases ho⟩
    obtain rfl := Option.some.inj hk
    exact (hM.start op).symm ▸ hmay

theorem ok_afterSpin (hM : Sided M) (backoff : Backoff) {r : C ⊕ Outcome T}
    (hmay : may (M.sideOf r)) : (afterSpin M backoff r).Ok M may := by
  cases r with
  | inl c => exact ⟨fun k hk => Option.some.inj hk ▸ hmay, fun o ho => by cases ho⟩
  | inr o =>
    cases hretry : o.retry with
    | none =>
      simp only [afterSpin, hretry]
      refine ⟨fun k hk => Option.some.inj hk ▸ hmay, fun o' ho => ?_⟩
      obtain rfl := Pc.notifying.inj ho
      exact hretry
    | some op =>
      simp only [afterSpin, hretry]
      exact ok_loopStart hM _ (Outcome.side_of_retry hretry ▸ hmay)

theorem ok_afterRetry (prev : ℕ) {r : C ⊕ Outcome T} (hmay : may (M.sideOf r)) :
    (afterRetry prev r).Ok M may := by
  cases r with
  | inl c => exact ⟨fun k hk => Option.some.inj hk ▸ hmay, fun o ho => by cases ho⟩
  | inr o =>
    cases hretry : o.retry with
    | none =>
      simp only [afterRetry, hretry]
      refine ⟨fun k hk => Option.some.inj hk ▸ hmay, fun o' ho => ?_⟩
      obtain rfl := Pc.notifying.inj ho
      exact hretry
    | some op =>
      simp only [afterRetry, hretry]
      refine ⟨fun k hk => ?_, fun o ho => by cases ho⟩
      obtain rfl := Option.some.inj hk
      exact Outcome.side_of_retry hretry ▸ hmay

end Closed

/-! ## Every run -/

section Run

variable [DecidableEq τ] {M : Operations σ C T} {W : Setup ω} {may : τ → Side → Prop}
  {R : σ → (τ → Option C) → Prop} {s : State ω τ σ C T} {t : τ}

/-- **What holds of waiting threads** that run the queue. -/
structure Runs (M : Operations σ C T) (may : τ → Side → Prop) (R : σ → (τ → Option C) → Prop)
    (s : State ω τ σ C T) : Prop where
  rel : R s.queue s.calls
  ok : ∀ t, (s.pc t).Ok M (may t)
  script : ∀ t, ∀ op ∈ s.script t, may t op.side

omit [DecidableEq τ] in
theorem Runs.may_side (h : Runs M may R s) {k : Side} (hk : (s.pc t).side M = some k) : may t k :=
  (h.ok t).side k hk

/-- The calls after one thread moved on. -/
theorem calls_update (q : σ) (epoch : ω → ℕ) (script : τ → List (Op T)) (n : Pc C T) :
    State.calls ⟨q, epoch, Function.update s.pc t n, script⟩
      = Function.update s.calls t n.call := by
  funext t'
  by_cases ht : t' = t
  · subst ht
    simp [State.calls]
  · simp [State.calls, ht]

/-- **A thread in no call moves on.** -/
theorem Runs.move (h : Runs M may R s) (hR : Closed M may R) (hnone : (s.pc t).call = none)
    {n : Pc C T} (hfresh : Fresh M (may t) n.call) (hok : n.Ok M (may t)) (epoch : ω → ℕ)
    {script : τ → List (Op T)} (hscript : ∀ t, ∀ op ∈ script t, may t op.side) :
    Runs M may R ⟨s.queue, epoch, Function.update s.pc t n, script⟩ where
  rel := by
    rw [calls_update]
    rcases hfresh with hn | ⟨op, hmay, hn⟩
    · rw [hn, ← hnone]
      exact (Function.update_eq_self t s.calls).symm ▸ h.rel
    · rw [hn]
      exact hR.start _ _ _ op h.rel hnone hmay
  ok t' := by
    by_cases ht : t' = t
    · subst ht
      simpa using hok
    · simpa [ht] using h.ok t'
  script := hscript

/-- **A thread in a call takes a step of it**, and may make the next call where
the step ended it. -/
theorem Runs.moveCall (h : Runs M may R s) (hR : Closed M may R) {c : C}
    (hc : (s.pc t).call = some c) {spurious : Bool} {q : σ} {r : C ⊕ Outcome T}
    (hstep : M.step s.queue spurious c = some (q, r)) {n : Pc C T}
    (hfollows : Follows M (may t) r n.call) (hok : n.Ok M (may t)) :
    Runs M may R ⟨q, s.epoch, Function.update s.pc t n, s.script⟩ where
  rel := by
    rw [calls_update]
    have hafter := hR.step _ _ t c spurious q r h.rel hc hstep
    rcases hfollows with ⟨c', rfl, hn⟩ | ⟨⟨o, rfl⟩, hn | ⟨op, hmay, hn⟩⟩
    · exact hn ▸ hafter
    · exact hn ▸ hafter
    · have hnext := hR.start _ _ t op hafter (by simp [afterStep]) hmay
      rw [hn]
      simpa [afterStep] using hnext
  ok t' := by
    by_cases ht : t' = t
    · subst ht
      simpa using hok
    · simpa [ht] using h.ok t'
  script := h.script

/-- **A step of waiting threads is none, one or two of the queue.** -/
theorem Runs.step [DecidableEq ω] (h : Runs M may R s) (hR : Closed M may R) (hM : Sided M)
    {s' : State ω τ σ C T} {a : Action τ} (hstep : Step M W s a s') : Runs M may R s' := by
  have hside : ∀ t k, (s.pc t).side M = some k → may t k := fun t k => h.may_side
  cases hstep with
  | call t spurious op ops hpc hscript =>
    have hmay : may t op.side := h.script t op (by rw [hscript]; exact List.mem_cons_self)
    refine h.move hR (by rw [hpc]; rfl) (fresh_loopStart _ hmay) (ok_loopStart hM _ hmay) _
      fun t' op' hmem => ?_
    by_cases ht : t' = t
    · subst ht
      rw [Function.update_self] at hmem
      exact h.script t' op' (by rw [hscript]; exact List.mem_cons_of_mem _ hmem)
    · rw [Function.update_of_ne ht] at hmem
      exact h.script t' op' hmem
  | spin t spurious backoff c q r hpc hexec =>
    have hmay : may t (M.sideOf r) :=
      hside t _ (by rw [hpc, hM.step _ _ _ _ _ hexec]; rfl)
    exact h.moveCall hR (by rw [hpc]; rfl) hexec (follows_afterSpin _ hmay) (ok_afterSpin hM _ hmay)
  | read t spurious op hpc =>
    have hmay : may t op.side := hside t _ (by rw [hpc]; rfl)
    refine h.move hR (by rw [hpc]; rfl) (Or.inr ⟨op, hmay, rfl⟩)
      ⟨fun k hk => ?_, fun o ho => by cases ho⟩ _
      h.script
    obtain rfl := Option.some.inj hk
    exact (hM.start op).symm ▸ hmay
  | retry t spurious prev c q r hpc hexec =>
    have hmay : may t (M.sideOf r) :=
      hside t _ (by rw [hpc, hM.step _ _ _ _ _ hexec]; rfl)
    exact h.moveCall hR (by rw [hpc]; rfl) hexec (follows_afterRetry _ _) (ok_afterRetry _ hmay)
  | block t spurious prev op hpc hprev =>
    exact h.move hR (by rw [hpc]; rfl) (Or.inl rfl)
      ⟨fun k hk => hside t k (by rw [hpc]; exact hk), fun o ho => by cases ho⟩ _ h.script
  | again t spurious prev op hpc hprev =>
    have hmay : may t op.side := hside t _ (by rw [hpc]; rfl)
    exact h.move hR (by rw [hpc]; rfl) (fresh_loopStart _ hmay) (ok_loopStart hM _ hmay) _ h.script
  | notifyNone t o hpc hnone =>
    exact h.move hR (by rw [hpc]; rfl) (Or.inl rfl)
      ok_idle _ h.script
  | notifySome t t' o prev op hpc hpc' hwaiter =>
    have hwoken := h.move hR (t := t') (n := .checking prev op) (by rw [hpc']; rfl) (Or.inl rfl)
      ⟨fun k hk => hside t' k (by rw [hpc']; exact hk), fun o ho => by cases ho⟩ s.epoch h.script
    refine hwoken.move hR ?_ (Or.inl rfl) ok_idle _ h.script
    by_cases ht : t = t'
    · subst ht
      simp [Pc.call]
    · simp [ht, hpc, Pc.call]
  | wakeup t prev op hpc =>
    exact h.move hR (by rw [hpc]; rfl) (Or.inl rfl)
      ⟨fun k hk => hside t k (by rw [hpc]; exact hk), fun o ho => by cases ho⟩ _ h.script

/-- **Waiting threads run the queue**: what its calls keep holds of it with
waiting threads. -/
theorem runs_of_reachable [DecidableEq ω] [Fintype τ] (hR : Closed M may R) (hM : Sided M)
    {scripts : τ → List (Op T)} (hscripts : ∀ t, ∀ op ∈ scripts t, may t op.side)
    (hs : (system M W scripts).Reachable s) : Runs M may R s := by
  refine hs.invariant ⟨hR.init, fun t => ok_idle, hscripts⟩ ?_
  intro s a s' _ h _ hnext
  exact h.step hR hM (step_of_next hnext)

end Run

end Waiter
