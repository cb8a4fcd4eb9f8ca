import Algors.Queue.MpmcOutcome
import Mathlib.Algebra.Order.BigOperators.Group.Finset
import Mathlib.Data.Fintype.BigOperators

/-!
# Progress

No call waits for another one: whatever the other threads do, or do not do any
more, a thread in a call can take its next step. And a call that goes round
its loop does so because another thread went forward: it has claimed a
position. So the steps a thread takes are bounded by the calls it makes and
the claims of the others, but for its spurious failures, and while no call
returns at all each thread takes boundedly many steps – the queue is
lock-free.

The bound is a potential. A call has a number of steps left when nothing
interferes, and an index in hand that is stale costs one more round; a claim of
another thread makes the index stale, and a round that is due to it makes it
fresh again.
-/

namespace Mpmc

variable {T τ : Type} {pow : ℕ} {w : Width pow}

open Call
open Fifo (Op Outcome Side)

/-! ## What is counted -/

/-- A position is claimed. -/
def Event.isClaim : Event T → Bool
  | .claimedPush _ _ | .claimedPop _ => true
  | _ => false

/-- A call is made. -/
def Event.isCalled : Event T → Bool
  | .called _ => true
  | _ => false

/-- A call returns. -/
def Event.isReturn : Event T → Bool
  | .returnedPush _ | .returnedFull _ | .returnedPop _ _ | .returnedEmpty => true
  | _ => false

/-- A step of a call, spurious or not. -/
def Action.isStep : Action T → Bool
  | .step _ => true
  | .call _ => false

section Counts

variable [DecidableEq τ]

/-- The steps a thread takes. -/
def stepsOf (t : τ) (as : List (τ × Action T)) : ℕ := as.countP fun a => a.1 = t && a.2.isStep

/-- The steps of a thread whose compare-exchange is to fail spuriously. -/
def spuriousOf (t : τ) (as : List (τ × Action T)) : ℕ :=
  as.countP fun a => a.1 = t && match a.2 with
    | .step spurious => spurious
    | .call _ => false

/-- The calls a thread makes. -/
def callsOf (t : τ) (h : List (τ × Event T)) : ℕ := h.countP fun e => e.1 = t && e.2.isCalled

/-- The positions a thread claims. -/
def claimsOf (t : τ) (h : List (τ × Event T)) : ℕ := h.countP fun e => e.1 = t && e.2.isClaim

/-- The positions the other threads claim. -/
def claimsBesides (t : τ) (h : List (τ × Event T)) : ℕ := h.countP fun e => e.1 ≠ t && e.2.isClaim

end Counts

/-! ## The potential -/

/-- **The steps a call has left** when nothing interferes. -/
def Call.stepsLeft : Call T → ℕ
  | pushLoadTail _ | popLoadHead => 5
  | pushLoadSeq _ _ | popLoadSeq _ => 4
  | pushCas _ _ | popCas _ => 3
  | pushWrite _ _ | popRead _ => 2
  | pushStoreSeq _ | popStoreSeq _ _ => 1

/-- What an index in hand costs beyond that: a round more, if it is stale. -/
def Call.detour (q : Inner T pow) (c : Call T) : ℕ :=
  match c.index with
  | some (k, idx) => if idx < q.counter k then 2 else 0
  | none => 0

/-- **The steps a thread may still take** without another claim. -/
def State.due (s : State τ T pow) (t : τ) : ℕ :=
  (s.call t).elim 0 fun c => c.stepsLeft + c.detour s.inner

theorem Call.detour_le (q : Inner T pow) (c : Call T) : c.detour q ≤ 2 := by
  unfold Call.detour
  split
  · split_ifs <;> omega
  · exact Nat.zero_le 2

/-- A thread in a call may take six steps without another claim. -/
theorem State.due_le (s : State τ T pow) (t : τ) :
    s.due t ≤ if s.call t = none then 0 else 6 := by
  unfold State.due
  cases hc : s.call t with
  | none => simp
  | some c =>
    have hdetour := c.detour_le s.inner
    rw [if_neg (Option.some_ne_none c)]
    show c.stepsLeft + c.detour s.inner ≤ 6
    cases c with
    | pushLoadTail val | popLoadHead => exact Nat.le_succ 5
    | _ =>
      simp only [Call.stepsLeft]
      omega

/-! ## What a step does to it -/

/-- An index that was just loaded is not stale. -/
theorem Call.detour_of_counter {q : Inner T pow} {c : Call T} {k : Side}
    (hidx : c.index = some (k, q.counter k)) : c.detour q = 0 := by
  simp [Call.detour, hidx]

/-- A stale index costs a round. -/
theorem Call.detour_of_lt {q : Inner T pow} {c : Call T} {k : Side} {idx : ℕ}
    (hidx : c.index = some (k, idx)) (hlt : idx < q.counter k) : c.detour q = 2 := by
  simp [Call.detour, hidx, hlt]

/-- **Who goes forward** has a step less left, and no staler an index. -/
theorem ExecStep.due_le {q q' : Inner T pow} {c c' : Call T} (h : ExecStep w q c q' (.inl c'))
    (hre : c.restarts c' = false) :
    c'.stepsLeft + 1 ≤ c.stepsLeft ∧ c'.detour q' ≤ c.detour q := by
  cases h with
  | pushLoadTail val => exact ⟨le_rfl, (Call.detour_of_counter (k := .producer) rfl).trans_le
      (Nat.zero_le _)⟩
  | popLoadHead => exact ⟨le_rfl, (Call.detour_of_counter (k := .consumer) rfl).trans_le
      (Nat.zero_le _)⟩
  | pushStale | popStale | pushCasFail | popCasFail => cases hre
  | pushReady | popReady => exact ⟨le_rfl, le_rfl⟩
  | pushClaim | popClaim | pushWrite | popRead => exact ⟨le_rfl, Nat.zero_le _⟩

/-- **Who goes round again** has a step more left, and a fresh index or none. -/
theorem ExecStep.due_of_restarts {q q' : Inner T pow} {c c' : Call T}
    (h : ExecStep w q c q' (.inl c')) (hre : c.restarts c' = true) :
    c'.stepsLeft = c.stepsLeft + 1 ∧ c'.detour q' = 0 ∧ ∃ k idx, c.index = some (k, idx) := by
  cases h with
  | pushStale val idx | popStale idx => exact ⟨rfl, rfl, _, idx, rfl⟩
  | pushCasFail val idx => exact ⟨rfl, Call.detour_of_counter (k := .producer) rfl, _, idx, rfl⟩
  | popCasFail idx => exact ⟨rfl, Call.detour_of_counter (k := .consumer) rfl, _, idx, rfl⟩
  | _ => cases hre

theorem ExecStep.stepsLeft_pos {q q' : Inner T pow} {c : Call T} {r : Call T ⊕ Outcome T}
    (h : ExecStep w q c q' r) : 1 ≤ c.stepsLeft := by
  cases h <;> simp [Call.stepsLeft]

variable [DecidableEq τ] {s s' : State τ T pow} {t u : τ}

/-- **A step of the thread** is paid for, unless it fails spuriously, which is
worth two. -/
theorem Inv.due_step (h : Inv s) {c : Call T} {q : Inner T pow} {r : Call T ⊕ Outcome T}
    {spurious : Bool} (hc : s.call t = some c) (hexec : exec w s.inner spurious c = some (q, r)) :
    1 + (s.advance t c q r).due t ≤ s.due t + 2 * spurious.toNat := by
  have hstep := execStep_of_exec hexec
  have hdue : s.due t = c.stepsLeft + c.detour s.inner := by simp [State.due, hc]
  cases r with
  | inr o =>
    have hpos := hstep.stepsLeft_pos
    have hdone : (s.advance t c q (.inr o)).due t = 0 := by simp [State.due, State.advance]
    omega
  | inl c' =>
    have hdue' : (s.advance t c q (.inl c')).due t = c'.stepsLeft + c'.detour q := by
      simp [State.due, State.advance]
    cases hre : c.restarts c' with
    | false =>
      have hle := hstep.due_le hre
      omega
    | true =>
      obtain ⟨hleft, hfresh, k, idx, hidx⟩ := hstep.due_of_restarts hre
      cases hsp : c.isCas && spurious with
      | false =>
        -- the index was stale, which paid for the round
        have hstale := Call.detour_of_lt hidx (h.lt_counter_of_restarts hc hexec hre hsp hidx)
        omega
      | true =>
        obtain rfl : spurious = true := (Bool.and_eq_true_iff.mp hsp).2
        simp only [Bool.toNat_true]
        omega

omit [DecidableEq τ] in
/-- A step that claims nothing leaves the counters. -/
theorem ExecStep.counter_eq {q q' : Inner T pow} {c : Call T} {r : Call T ⊕ Outcome T}
    (h : ExecStep w q c q' r) (hclaim : ∀ e, Event.of c r = some e → e.isClaim = false) (k : Side) :
    q'.counter k = q.counter k := by
  cases h with
  | pushClaim | popClaim => cases hclaim _ rfl
  | _ => cases k <;> rfl

/-- **A step of another thread** costs a round at most, and nothing unless it
claims a position. -/
theorem State.due_step_of_ne {c : Call T} {q : Inner T pow} {r : Call T ⊕ Outcome T}
    (hne : t ≠ u) (hstep : ExecStep w s.inner c q r) :
    (s.advance u c q r).due t
      ≤ s.due t + 2 * ((Event.of c r).elim 0 fun e => e.isClaim.toNat) := by
  have hcall : (s.advance u c q r).call t = s.call t := by
    simp only [State.advance, Function.update_of_ne hne]
  unfold State.due
  rw [hcall]
  cases s.call t with
  | none => exact Nat.zero_le _
  | some c₀ =>
    show c₀.stepsLeft + c₀.detour q ≤ c₀.stepsLeft + c₀.detour s.inner + _
    by_cases hclaim : ∀ e, Event.of c r = some e → e.isClaim = false
    · have hsame : c₀.detour q = c₀.detour s.inner := by
        unfold Call.detour
        simp only [hstep.counter_eq hclaim]
      omega
    · obtain ⟨e, he, hclaim⟩ : ∃ e, Event.of c r = some e ∧ ¬ e.isClaim = false := by
        simpa using hclaim
      have hone : ((Event.of c r).elim 0 fun e => e.isClaim.toNat) = 1 := by
        rw [he]
        show e.isClaim.toNat = 1
        rw [Bool.eq_true_of_not_eq_false hclaim]
        rfl
      have := c₀.detour_le q
      omega

/-! ## Runs -/

/-- **A step of the system**, with what it was told. -/
theorem system_next_exec {a : Action T} (h : (system τ T w).next s (u, a) = some s') :
    (s.call u = none ∧ ∃ op, a = .call op ∧ s' = { s with
        call := Function.update s.call u (some (invoke op))
        history := (u, .called op) :: s.history })
    ∨ ∃ spurious c q r, a = .step spurious ∧ s.call u = some c
      ∧ exec w s.inner spurious c = some (q, r) ∧ s' = s.advance u c q r := by
  unfold system at h
  cases hc : s.call u with
  | none =>
    cases a with
    | call op =>
      simp only [hc, Option.some.injEq] at h
      exact Or.inl ⟨rfl, op, rfl, h.symm⟩
    | step spurious => simp [hc] at h
  | some c =>
    cases a with
    | call op => simp [hc] at h
    | step spurious =>
      simp only [hc, Option.map_eq_some_iff, Prod.exists] at h
      obtain ⟨q, r, hexec, rfl⟩ := h
      exact Or.inr ⟨spurious, c, q, r, rfl, rfl, hexec, rfl⟩

/-- **What one step of the system costs a thread.** -/
theorem Inv.due_next (h : Inv s) {a : τ × Action T} (hnext : (system τ T w).next s a = some s') :
    ∃ l, s'.history = l ++ s.history ∧ stepsOf t [a] + s'.due t
      ≤ s.due t + 5 * callsOf t l + 2 * claimsBesides t l + 2 * spuriousOf t [a] := by
  obtain ⟨u, a⟩ := a
  rcases system_next_exec hnext with
    ⟨hnone, op, rfl, rfl⟩ | ⟨spurious, c, q, r, rfl, hc, hexec, rfl⟩
  · refine ⟨[(u, .called op)], rfl, ?_⟩
    by_cases htu : u = t
    · subst htu
      have hdue : State.due ⟨s.inner, Function.update s.call u (some (invoke op)),
          (u, .called op) :: s.history⟩ u = 5 := by
        cases op <;> simp [State.due, invoke, Call.stepsLeft, Call.detour, Call.index]
      have hsteps : stepsOf u [(u, Action.call op)] = 0 := by simp [stepsOf, Action.isStep]
      have hcalls : callsOf u [(u, Event.called op)] = 1 := by simp [callsOf, Event.isCalled]
      omega
    · have hdue : State.due ⟨s.inner, Function.update s.call u (some (invoke op)),
          (u, .called op) :: s.history⟩ t = s.due t := by
        simp [State.due, Function.update_of_ne (Ne.symm htu)]
      have hsteps : stepsOf t [(u, Action.call op)] = 0 := by simp [stepsOf, Action.isStep]
      omega
  · refine ⟨Inv.eventsOf u (Event.of c r), rfl, ?_⟩
    by_cases htu : u = t
    · subst htu
      have hdue := h.due_step hc hexec
      have hsteps : stepsOf u [(u, Action.step (T := T) spurious)] = 1 := by
        simp [stepsOf, Action.isStep]
      have hspur : spuriousOf u [(u, Action.step (T := T) spurious)] = spurious.toNat := by
        cases spurious <;> simp [spuriousOf]
      omega
    · have hdue := State.due_step_of_ne (Ne.symm htu) (execStep_of_exec hexec)
      have hsteps : stepsOf t [(u, Action.step (T := T) spurious)] = 0 := by simp [stepsOf, htu]
      have hclaims : claimsBesides t (Inv.eventsOf u (Event.of c r))
          = (Event.of c r).elim 0 fun e => e.isClaim.toNat := by
        cases Event.of c r with
        | none => rfl
        | some e => cases hclaim : e.isClaim <;> simp [claimsBesides, Inv.eventsOf, htu, hclaim]
      omega

/-- **What a run costs a thread.** -/
theorem due_run (hpow : 1 ≤ pow) (hs : (system τ T w).Reachable s) {as : List (τ × Action T)}
    (hrun : (system τ T w).run s as = some s') (t : τ) :
    ∃ l, s'.history = l ++ s.history ∧ stepsOf t as + s'.due t
      ≤ s.due t + 5 * callsOf t l + 2 * claimsBesides t l + 2 * spuriousOf t as := by
  induction as generalizing s with
  | nil =>
    obtain rfl := Option.some.inj hrun
    exact ⟨[], rfl, by rw [stepsOf, List.countP_nil]; omega⟩
  | cons a as ih =>
    obtain ⟨s₁, hnext, hrun⟩ := Option.bind_eq_some_iff.mp hrun
    obtain ⟨l₁, hl₁, hcost₁⟩ := (inv_of_reachable hpow hs).due_next (t := t) hnext
    obtain ⟨l, hl, hcost⟩ := ih (hs.step trivial hnext) hrun
    refine ⟨l ++ l₁, by rw [hl, hl₁, List.append_assoc], ?_⟩
    have hsteps : stepsOf t (a :: as) = stepsOf t [a] + stepsOf t as :=
      @List.countP_append _ _ [a] as
    have hspur : spuriousOf t (a :: as) = spuriousOf t [a] + spuriousOf t as :=
      @List.countP_append _ _ [a] as
    have hcalls : callsOf t (l ++ l₁) = callsOf t l + callsOf t l₁ := List.countP_append
    have hclaims : claimsBesides t (l ++ l₁) = claimsBesides t l + claimsBesides t l₁ :=
      List.countP_append
    omega

/-- **Only progress of the others slows a thread down**: from two slots on,
whatever the schedule, a thread takes at most five steps for each call it
makes, two for each position another thread claims, and two for each spurious
failure. -/
theorem steps_le_of_run (hpow : 1 ≤ pow) {as : List (τ × Action T)}
    (hrun : (system τ T w).run (system τ T w).init as = some s) (t : τ) :
    stepsOf t as
      ≤ 5 * callsOf t s.history + 2 * claimsBesides t s.history + 2 * spuriousOf t as := by
  obtain ⟨l, hl, hcost⟩ := due_run hpow .init hrun t
  obtain rfl : s.history = l := by simpa [system] using hl
  have hinit : (system τ T w).init.due t = 0 := rfl
  omega

/-! ## While no call returns -/

/-- A call that has claimed its position. -/
def Call.claimed : Call T → Bool
  | pushWrite _ _ | pushStoreSeq _ | popRead _ | popStoreSeq _ _ => true
  | _ => false

/-- The calls a thread can make before it returns from one. -/
def State.callsLeft (s : State τ T pow) (t : τ) : ℕ := (s.call t).elim 1 fun _ => 0

/-- The positions a thread can claim before it returns from a call. -/
def State.claimsLeft (s : State τ T pow) (t : τ) : ℕ :=
  (s.call t).elim 1 fun c => (!c.claimed).toNat

/-- A thread that does not return calls once, and claims once. -/
theorem left_next {a : τ × Action T} (hnext : (system τ T w).next s a = some s') :
    ∃ l, s'.history = l ++ s.history ∧ ((∀ e, (t, e) ∈ l → e.isReturn = false) →
      callsOf t l + s'.callsLeft t ≤ s.callsLeft t
        ∧ claimsOf t l + s'.claimsLeft t ≤ s.claimsLeft t) := by
  obtain ⟨u, a⟩ := a
  rcases system_next_cases hnext with ⟨hnone, op, rfl⟩ | ⟨c, q, r, hc, hstep, rfl⟩
  · refine ⟨[(u, .called op)], rfl, fun _ => ?_⟩
    by_cases htu : u = t
    · subst htu
      have hclaimed : (invoke op).claimed = false := by cases op <;> rfl
      simp [callsOf, claimsOf, State.callsLeft, State.claimsLeft, hnone, hclaimed, Event.isCalled,
        Event.isClaim]
    · simp [callsOf, claimsOf, State.callsLeft, State.claimsLeft, htu,
        Function.update_of_ne (Ne.symm htu)]
  · refine ⟨Inv.eventsOf u (Event.of c r), rfl, fun hnot => ?_⟩
    by_cases htu : u = t
    · subst htu
      cases hstep with
      | pushFull | pushStoreSeq | popEmpty | popStoreSeq =>
        cases hnot _ (List.mem_singleton.mpr rfl)
      | _ =>
        simp [callsOf, claimsOf, State.callsLeft, State.claimsLeft, State.advance, hc, Inv.eventsOf,
          Event.of, Event.isCalled, Event.isClaim, Call.claimed]
    · have hcalls : callsOf t (Inv.eventsOf u (Event.of c r)) = 0 := by
        cases Event.of c r <;> simp [callsOf, Inv.eventsOf, htu]
      have hclaims : claimsOf t (Inv.eventsOf u (Event.of c r)) = 0 := by
        cases Event.of c r <;> simp [claimsOf, Inv.eventsOf, htu]
      have hcall : (s.advance u c q r).call t = s.call t := by
        simp only [State.advance, Function.update_of_ne (Ne.symm htu)]
      simp [State.callsLeft, State.claimsLeft, hcall, hcalls, hclaims]

theorem left_run {as : List (τ × Action T)} (hrun : (system τ T w).run s as = some s') :
    ∃ l, s'.history = l ++ s.history ∧ ∀ t, (∀ e, (t, e) ∈ l → e.isReturn = false) →
      callsOf t l + s'.callsLeft t ≤ s.callsLeft t
        ∧ claimsOf t l + s'.claimsLeft t ≤ s.claimsLeft t := by
  induction as generalizing s with
  | nil =>
    obtain rfl := Option.some.inj hrun
    refine ⟨[], rfl, fun t _ => ?_⟩
    simp [callsOf, claimsOf]
  | cons a as ih =>
    obtain ⟨s₁, hnext, hrun⟩ := Option.bind_eq_some_iff.mp hrun
    obtain ⟨l, hl, hleft⟩ := ih hrun
    have hone : (system τ T w).run s [a] = some s₁ := by simp [System.run, hnext]
    obtain ⟨l₁, hl₁⟩ := exists_history_eq hone
    refine ⟨l ++ l₁, by rw [hl, hl₁, List.append_assoc], fun t hnot => ?_⟩
    obtain ⟨l₁', hl₁', hleft₁⟩ := left_next (t := t) hnext
    obtain rfl := List.append_cancel_right (hl₁.symm.trans hl₁')
    have h₁ := hleft₁ fun e he => hnot e (List.mem_append_right l he)
    have h := hleft t fun e he => hnot e (List.mem_append_left l₁ he)
    have hcalls : callsOf t (l ++ l₁) = callsOf t l + callsOf t l₁ := List.countP_append
    have hclaims : claimsOf t (l ++ l₁) = claimsOf t l + claimsOf t l₁ := List.countP_append
    omega

/-- The claims of the others, thread by thread. -/
theorem claimsBesides_eq [Fintype τ] (t : τ) (h : List (τ × Event T)) :
    claimsBesides t h = ∑ u ∈ Finset.univ.erase t, claimsOf u h := by
  induction h with
  | nil => simp [claimsBesides, claimsOf]
  | cons e h ih =>
    obtain ⟨u, e⟩ := e
    have hcons : ∀ v, claimsOf v ((u, e) :: h)
        = claimsOf v h + if u = v then e.isClaim.toNat else 0 := by
      intro v
      by_cases huv : u = v
      · cases he : e.isClaim <;> simp [claimsOf, huv, he]
      · simp [claimsOf, huv]
    simp only [hcons, Finset.sum_add_distrib, ← ih]
    by_cases hut : u = t
    · subst hut
      simp [claimsBesides]
    · rw [Finset.sum_ite_eq, if_pos (Finset.mem_erase.mpr ⟨hut, Finset.mem_univ u⟩)]
      cases he : e.isClaim <;> simp [claimsBesides, hut, he]

/-- **Lock freedom**: a thread in a call can take its step, and while a thread
takes steps, but for spurious failures, some call returns before long. -/
structure LockFree [Fintype τ] (w : Width pow) (s : State τ T pow) : Prop where
  unblocked : ∀ t c spurious, s.call t = some c →
    ∃ s', (system τ T w).next s (t, .step spurious) = some s'
  returns : ∀ t as s', (system τ T w).run s as = some s' →
    2 * Fintype.card τ + 4 + 2 * spuriousOf t as < stepsOf t as →
    ∃ l u e, s'.history = l ++ s.history ∧ (u, e) ∈ l ∧ e.isReturn = true

/-- **The queue is lock-free**: from two slots on, whatever the other threads
are in the middle of. -/
theorem lockFree_of_reachable [Fintype τ] (hpow : 1 ≤ pow) (hs : (system τ T w).Reachable s) :
    LockFree w s where
  unblocked t c spurious hc := by
    have hexec : ∃ p, exec w s.inner spurious c = some p := by
      cases c with
      | popRead idx =>
        obtain ⟨-, -, ⟨val, hslot, -⟩, -⟩ := (inv_of_reachable hpow hs).callOk t _ hc
        exact ⟨_, by rw [exec, hslot]; rfl⟩
      | pushLoadSeq val idx | popLoadSeq idx =>
        simp only [exec]
        split_ifs <;> exact ⟨_, rfl⟩
      | pushCas val idx | popCas idx =>
        simp only [exec]
        split_ifs <;> exact ⟨_, rfl⟩
      | _ => exact ⟨_, rfl⟩
    obtain ⟨p, hexec⟩ := hexec
    exact ⟨s.advance t c p.1 p.2, by simp [system, hc, hexec]⟩
  returns t as s' hrun hmany := by
    obtain ⟨l, hl, hcost⟩ := due_run hpow hs hrun t
    obtain ⟨l', hl', hleft⟩ := left_run hrun
    obtain rfl := List.append_cancel_right (hl.symm.trans hl')
    by_contra hnone
    have hnot : ∀ u e, (u, e) ∈ l → e.isReturn = false := by
      intro u e he
      by_contra hret
      exact hnone ⟨l, u, e, hl, he, Bool.eq_true_of_not_eq_false hret⟩
    -- without a return, a thread begins one call at most, and every other claims once
    have hcalls : s.due t + 5 * callsOf t l ≤ 6 := by
      have hdue := s.due_le t
      have hcall := (hleft t (hnot t)).1
      cases hc : s.call t with
      | none =>
        rw [hc, if_pos rfl] at hdue
        have : s.callsLeft t = 1 := by simp [State.callsLeft, hc]
        omega
      | some c =>
        rw [hc, if_neg (Option.some_ne_none c)] at hdue
        have : s.callsLeft t = 0 := by simp [State.callsLeft, hc]
        omega
    have hclaims : claimsBesides t l ≤ Fintype.card τ - 1 := by
      rw [claimsBesides_eq, ← Finset.card_univ, ← Finset.card_erase_of_mem (Finset.mem_univ t)]
      refine (Finset.sum_le_card_nsmul _ _ 1 fun u _ => ?_).trans_eq (by simp)
      have hclaim := (hleft u (hnot u)).2
      have hone : s.claimsLeft u ≤ 1 := by
        unfold State.claimsLeft
        cases s.call u with
        | none => exact le_rfl
        | some c => exact Bool.toNat_le _
      omega
    have hcard : 0 < Fintype.card τ := Fintype.card_pos_iff.mpr ⟨t⟩
    omega

/-- Two producers race for the first slot: the slow one has loaded the tail
when the fast one claims it, and goes round again. -/
def racing {τ : Type} (slow fast : τ) : List (τ × Action ℕ) :=
  [(slow, .call (.push 7)), (slow, .step false), (slow, .step false), (fast, .call (.push 8)),
    (fast, .step false), (fast, .step false), (fast, .step false)]
    ++ List.replicate 5 (slow, .step false)

/-- The bound is met: seven steps for one call and one claim of the other. -/
theorem steps_le_of_run_racing :
    ∃ s, (system (Fin 2) ℕ .twoSlots).run (system (Fin 2) ℕ .twoSlots).init (racing 0 1) = some s
      ∧ s.call 0 = none ∧ stepsOf 0 (racing (0 : Fin 2) 1) = 7
      ∧ stepsOf 0 (racing (0 : Fin 2) 1) ≤ 5 * callsOf 0 s.history + 2 * claimsBesides 0 s.history
        + 2 * spuriousOf 0 (racing (0 : Fin 2) 1) := by
  have hrun : ((system (Fin 2) ℕ .twoSlots).run (system (Fin 2) ℕ .twoSlots).init
      (racing 0 1)).isSome := by decide
  exact ⟨_, (Option.some_get hrun).symm, rfl, rfl,
    steps_le_of_run (by decide) (Option.some_get hrun).symm 0⟩

theorem lockFree_of_reachable_racing :
    ∃ s, (system (Fin 2) ℕ .twoSlots).run (system (Fin 2) ℕ .twoSlots).init (racing 0 1) = some s
      ∧ s.call 1 = some (pushWrite 8 0) ∧ LockFree .twoSlots s := by
  have hrun : ((system (Fin 2) ℕ .twoSlots).run (system (Fin 2) ℕ .twoSlots).init
      (racing 0 1)).isSome := by decide
  exact ⟨_, (Option.some_get hrun).symm, rfl,
    lockFree_of_reachable (by decide) (System.Reachable.of_run (Option.some_get hrun).symm)⟩

end Mpmc
