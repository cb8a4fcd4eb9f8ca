import Algors.Waiter.Blocking
import Mathlib.Algebra.BigOperators.Group.Finset.Basic
import Mathlib.Algebra.Order.BigOperators.Group.Finset
import Mathlib.Data.Fintype.Basic
import Mathlib.Tactic.Linarith

/-!
# Counting the threads that can still help

A wakeup is lost when threads sleep although there is something to do for
them. To rule this out, count on each side how much there is to do, the items
`avail`, and how many threads will see to it: a thread of the side that is
awake and has not claimed anything yet takes an item or finds none, and a
thread of the other side that is about to notify wakes a sleeper. As long as
there are sleepers, the items are to be no more than these helpers.

The rule needs three things. A step of an operation accounts for itself: a
claim takes an item, and a success adds at most one to the other side, which
its notification makes up for. A call that fails and goes to sleep on it finds
no item left. And a notification wakes a thread of the side it is meant for,
when one of them is blocked.

Of the second it is enough that it holds of the threads that do block. A thread
that fails and leaves an item is noted, and counts as awake for as long as it
has not blocked: when it is notified before, it tries again.
-/

open Fifo (Op Outcome Side)

namespace Waiter

variable {ω τ σ C T : Type}

/-! ## Helpers -/

/-- What there is to do and who has taken it: the items of each side, and the
calls that have claimed one. -/
structure Ledger (σ C : Type) where
  avail : Side → σ → ℕ
  claimed : C → Bool

variable (M : Operations σ C T) (L : Ledger σ C) (W : Setup ω)

/-- What a call under way can still take. -/
def Ledger.wants (c : C) : ℕ := if L.claimed c then 0 else 1

/-- What a call can still take after a step: one item, unless it claimed it or
succeeded. -/
def Ledger.left : C ⊕ Outcome T → ℕ
  | .inl c => L.wants c
  | .inr o => if o.retry = none then 0 else 1

/-- What a call brings about for the other side. -/
def brought : C ⊕ Outcome T → ℕ
  | .inl _ => 0
  | .inr o => if o.retry = none then 1 else 0

/-- The side of what a step leads to. -/
def Operations.sideOf : C ⊕ Outcome T → Side
  | .inl c => M.side c
  | .inr o => o.side

/-- **A step accounts for itself.** -/
structure Accounts (q : σ) (c : C) (q' : σ) (r : C ⊕ Outcome T) : Prop where
  side : M.sideOf r = M.side c
  own : L.avail (M.side c) q' + L.wants c ≤ L.avail (M.side c) q + L.left r
  other : L.avail (M.side c).other q' ≤ L.avail (M.side c).other q + brought r

/-- A call starts on its side, with nothing claimed. -/
structure Starts : Prop where
  side : ∀ op, M.side (M.start op) = op.side
  unclaimed : ∀ op, L.claimed (M.start op) = false

/-- **Whether a thread helps a side**: it is awake and can take an item, or it
is about to notify. A noted thread is awake until it blocks. -/
def Pc.helps (noted : Bool) (epoch : ω → ℕ) (k : Side) : Pc C T → ℕ
  | idle => 0
  | spinning _ c | retrying _ c => if M.side c = k then L.wants c else 0
  | reading op => if op.side = k then 1 else 0
  | checking prev op =>
    if op.side = k ∧ (epoch (W.waiter op.side) ≠ prev ∨ noted = true) then 1 else 0
  | blocked _ _ => 0
  | notifying o => if o.side.other = k then 1 else 0

/-- A thread of the side is blocked, or will block unless it is notified. -/
def Pc.Asleep (noted : Bool) (epoch : ω → ℕ) (k : Side) : Pc C T → Prop
  | checking prev op => op.side = k ∧ epoch (W.waiter op.side) = prev ∧ noted = false
  | blocked _ op => op.side = k
  | _ => False

/-- The epoch a thread has read is not ahead. -/
def Pc.PrevLe (epoch : ω → ℕ) : Pc C T → Prop
  | retrying prev c => prev ≤ epoch (W.waiter (M.side c))
  | checking prev op | blocked prev op => prev ≤ epoch (W.waiter op.side)
  | _ => True

variable [Fintype τ]

/-- The helpers of a side. -/
def helpers (note : τ → Bool) (s : State ω τ σ C T) (k : Side) : ℕ :=
  ∑ t, (s.pc t).helps M L W (note t) s.epoch k

/-- **Sleepers leave no more to do than there are helpers.** -/
structure Inv (note : τ → Bool) (s : State ω τ σ C T) : Prop where
  prevLe : ∀ t, (s.pc t).PrevLe M W s.epoch
  enough : ∀ k, (∃ t, (s.pc t).Asleep W (note t) s.epoch k) →
    L.avail k s.queue ≤ helpers M L W note s k

/-- The call of the queue a thread is in. -/
def Pc.call : Pc C T → Option C
  | spinning _ c | retrying _ c => some c
  | _ => none

/-! ## One thread moves on -/

section Move

variable {M L W} {s : State ω τ σ C T} {epoch : ω → ℕ} {k : Side} {noted : Bool}
  {note note' : τ → Bool}

/-- The helpers after one thread moved on, of which something else may be noted
then. -/
theorem helpers_update [DecidableEq τ] {t : τ} (hnote : ∀ x, x ≠ t → note' x = note x) (q : σ)
    (n : Pc C T) (script : τ → List (Op T)) :
    helpers M L W note' ⟨q, s.epoch, Function.update s.pc t n, script⟩ k
        + (s.pc t).helps M L W (note t) s.epoch k
      = helpers M L W note s k + n.helps M L W (note' t) s.epoch k := by
  unfold helpers
  dsimp only
  rw [← Finset.add_sum_erase _ _ (Finset.mem_univ t),
    ← Finset.add_sum_erase (Finset.univ : Finset τ) _ (Finset.mem_univ t), Function.update_self]
  have hrest : ∑ x ∈ Finset.univ.erase t,
        (Function.update s.pc t n x).helps M L W (note' x) s.epoch k
      = ∑ x ∈ Finset.univ.erase t, (s.pc x).helps M L W (note x) s.epoch k :=
    Finset.sum_congr rfl fun x hx => by
      rw [Function.update_of_ne (Finset.ne_of_mem_erase hx), hnote x (Finset.ne_of_mem_erase hx)]
  rw [hrest]
  omega

/-- A call that starts wants an item of its side. -/
theorem helps_loopStart (hstart : Starts M L) (backoff : Backoff) (op : Op T) :
    (loopStart M backoff op).helps M L W noted epoch k = if op.side = k then 1 else 0 := by
  unfold loopStart
  split_ifs with hdone hside hside <;>
    simp [Pc.helps, Ledger.wants, hstart.side, hstart.unclaimed, hside]

omit [Fintype τ] in
theorem not_asleep_loopStart (backoff : Backoff) (op : Op T) :
    ¬ (loopStart M backoff op).Asleep W noted epoch k := by
  unfold loopStart
  split_ifs <;> exact id

omit [Fintype τ] in
theorem prevLe_loopStart (backoff : Backoff) (op : Op T) :
    (loopStart M backoff op).PrevLe M W epoch := by
  unfold loopStart
  split_ifs <;> trivial

/-- What a call leaves to be helped with, on either side. -/
def share (M : Operations σ C T) (L : Ledger σ C) (r : C ⊕ Outcome T) (k : Side) : ℕ :=
  if M.sideOf r = k then L.left r else brought r

/-- **Where an operation of the spinning phase leads**, as far as helping goes. -/
theorem helps_afterSpin (hstart : Starts M L) (backoff : Backoff) (r : C ⊕ Outcome T) :
    (afterSpin M backoff r).helps M L W noted epoch k = share M L r k := by
  unfold share
  cases r with
  | inl c => rfl
  | inr o =>
    cases hretry : o.retry with
    | none =>
      cases ho : o.side <;> cases k <;>
        simp [afterSpin, Pc.helps, Operations.sideOf, Ledger.left, brought, hretry, ho, Side.other]
    | some op =>
      have hside := Outcome.side_of_retry hretry
      simp only [afterSpin, hretry, helps_loopStart hstart]
      simp [Operations.sideOf, Ledger.left, brought, hretry, hside]

omit [Fintype τ] in
theorem not_asleep_afterSpin (backoff : Backoff) (r : C ⊕ Outcome T) :
    ¬ (afterSpin M backoff r).Asleep W noted epoch k := by
  cases r with
  | inl c => exact id
  | inr o =>
    cases hretry : o.retry with
    | none => simp only [afterSpin, hretry]; exact id
    | some op => simp only [afterSpin, hretry]; exact not_asleep_loopStart _ _

omit [Fintype τ] in
theorem prevLe_afterSpin (backoff : Backoff) (r : C ⊕ Outcome T) :
    (afterSpin M backoff r).PrevLe M W epoch := by
  cases r with
  | inl c => trivial
  | inr o =>
    cases hretry : o.retry with
    | none => simp only [afterSpin, hretry]; trivial
    | some op => simp only [afterSpin, hretry]; exact prevLe_loopStart _ _

omit [Fintype τ] in
theorem prevLe_afterRetry {prev : ℕ} {r : C ⊕ Outcome T}
    (h : prev ≤ epoch (W.waiter (M.sideOf r))) : (afterRetry prev r).PrevLe M W epoch := by
  cases r with
  | inl c => exact h
  | inr o =>
    cases hretry : o.retry with
    | none => simp only [afterRetry, hretry]; trivial
    | some op =>
      simp only [afterRetry, hretry]
      show prev ≤ epoch (W.waiter op.side)
      rw [Outcome.side_of_retry hretry]
      exact h

/-- **Where the operation after the epoch leads**: a thread that does not fall
asleep helps as before. -/
theorem helps_afterRetry {prev : ℕ} {r : C ⊕ Outcome T}
    (h : ¬ (afterRetry prev r).Asleep W noted epoch k) :
    (afterRetry prev r).helps M L W noted epoch k = share M L r k := by
  unfold share
  cases r with
  | inl c => rfl
  | inr o =>
    cases hretry : o.retry with
    | none =>
      cases ho : o.side <;> cases k <;>
        simp [afterRetry, Pc.helps, Operations.sideOf, Ledger.left, brought, hretry, ho, Side.other]
    | some op =>
      have hside := Outcome.side_of_retry hretry
      simp only [afterRetry, hretry, Pc.Asleep, not_and_or, Bool.not_eq_false] at h
      by_cases hk : op.side = k
      · have hawake := h.resolve_left (not_not.mpr hk)
        simp only [afterRetry, hretry, Pc.helps, Operations.sideOf, Ledger.left, ← hside,
          if_pos hk, if_pos (And.intro hk hawake)]
        rfl
      · simp [afterRetry, Pc.helps, Operations.sideOf, brought, hretry, ← hside, hk]

omit [Fintype τ] in
theorem asleep_afterRetry {prev : ℕ} {r : C ⊕ Outcome T}
    (h : (afterRetry prev r).Asleep W noted epoch k) :
    k = M.sideOf r ∧ epoch (W.waiter k) = prev ∧ noted = false
      ∧ ∃ o, r = .inr o ∧ o.retry ≠ none := by
  cases r with
  | inl c => exact h.elim
  | inr o =>
    cases hretry : o.retry with
    | none => simp only [afterRetry, hretry] at h; exact h.elim
    | some op =>
      simp only [afterRetry, hretry] at h
      obtain ⟨rfl, hprev, hnoted⟩ := h
      exact ⟨Outcome.side_of_retry hretry, hprev, hnoted, o, rfl, by simp [hretry]⟩

namespace Inv

variable [DecidableEq τ]

/-- **One thread moves on**, and no notification is made: on each side nothing
is left, or the thread does not fall asleep and pays for what it takes. -/
theorem move (h : Inv M L W note s) {t : τ} (hnote : ∀ x, x ≠ t → note' x = note x) (q : σ)
    (n : Pc C T) (script : τ → List (Op T)) (hprev : n.PrevLe M W s.epoch)
    (hmove : ∀ k, L.avail k q = 0
      ∨ (n.Asleep W (note' t) s.epoch k → (s.pc t).Asleep W (note t) s.epoch k)
        ∧ L.avail k q + (s.pc t).helps M L W (note t) s.epoch k
          ≤ L.avail k s.queue + n.helps M L W (note' t) s.epoch k) :
    Inv M L W note' ⟨q, s.epoch, Function.update s.pc t n, script⟩ where
  prevLe := (Function.forall_update_iff s.pc fun _ => Pc.PrevLe M W s.epoch).mpr
    ⟨hprev, fun x _ => h.prevLe x⟩
  enough k := by
    rintro ⟨t', hasleep⟩
    rcases hmove k with hzero | ⟨hkeep, hpay⟩
    · exact hzero ▸ Nat.zero_le _
    · have hold : (s.pc t').Asleep W (note t') s.epoch k := by
        by_cases ht : t' = t
        · subst ht
          exact hkeep (by simpa using hasleep)
        · rw [← hnote t' ht]
          simpa [ht] using hasleep
      have henough := h.enough k ⟨t', hold⟩
      have hcount := helpers_update (M := M) (L := L) (W := W) (s := s) (k := k) hnote q n script
      show L.avail k q ≤ _
      omega

omit [Fintype τ] [DecidableEq τ] in
/-- A step of an operation that accounts for itself pays on both sides. -/
theorem pays {t : τ} {c : C} {q : σ} {r : C ⊕ Outcome T} {n : Pc C T}
    (hcall : (s.pc t).call = some c) (hacct : Accounts M L s.queue c q r)
    (hn : n.helps M L W (note' t) s.epoch k = share M L r k) :
    L.avail k q + (s.pc t).helps M L W (note t) s.epoch k
      ≤ L.avail k s.queue + n.helps M L W (note' t) s.epoch k := by
  have hpc : (s.pc t).helps M L W (note t) s.epoch k
      = if M.side c = k then L.wants c else 0 := by
    cases hp : s.pc t <;> rw [hp] at hcall <;> cases hcall <;> rfl
  rw [hpc, hn, share, hacct.side]
  rcases k.eq_or_eq_other (M.side c) with rfl | rfl
  · rw [if_pos rfl, if_pos rfl]
    exact hacct.own
  · rw [if_neg (M.side c).ne_other, if_neg (M.side c).ne_other]
    exact hacct.other

end Inv

end Move

/-! ## Notifications -/

section Notify

variable {M L W} {epoch : ω → ℕ} {k : Side} {noted : Bool} {note : τ → Bool} [DecidableEq ω]

/-- The epochs after a notification of `w`. -/
abbrev bump (epoch : ω → ℕ) (w : ω) : ω → ℕ := Function.update epoch w (epoch w + 1)

omit [Fintype τ] in
theorem le_bump (w v : ω) : epoch v ≤ bump epoch w v := by
  by_cases h : v = w
  · subst h
    simp [bump]
  · simp [bump, h]

omit [Fintype τ] in
theorem prevLe_bump {pc : Pc C T} (w : ω) (h : pc.PrevLe M W epoch) :
    pc.PrevLe M W (bump epoch w) := by
  cases pc with
  | retrying prev c | checking prev op | blocked prev op => exact Nat.le_trans h (le_bump w _)
  | _ => trivial

/-- An epoch that was as it was read is not so any more, or was not
advanced. -/
theorem bump_eq {w v : ω} {prev : ℕ} (hle : prev ≤ epoch v) (h : bump epoch w v = prev) :
    v ≠ w ∧ epoch v = prev := by
  by_cases hv : v = w
  · subst hv
    simp only [bump, Function.update_self] at h
    omega
  · exact ⟨hv, by simpa [bump, hv] using h⟩

theorem asleep_bump {pc : Pc C T} {w : ω} (hle : pc.PrevLe M W epoch)
    (h : pc.Asleep W noted (bump epoch w) k) :
    pc.Asleep W noted epoch k ∧ (W.waiter k = w → pc.blockedSide = some k) := by
  cases pc with
  | checking prev op =>
    obtain ⟨rfl, hprev, hnoted⟩ := h
    obtain ⟨hne, hprev⟩ := bump_eq hle hprev
    exact ⟨⟨rfl, hprev, hnoted⟩, fun hw => absurd hw hne⟩
  | blocked prev op =>
    obtain rfl : op.side = k := h
    exact ⟨rfl, fun _ => rfl⟩
  | _ => exact h.elim

theorem helps_le_bump {pc : Pc C T} (w : ω) (hle : pc.PrevLe M W epoch) :
    pc.helps M L W noted epoch k ≤ pc.helps M L W noted (bump epoch w) k := by
  cases pc with
  | checking prev op =>
    simp only [Pc.helps]
    split_ifs with h h' <;> first | exact Nat.zero_le _ | exact le_rfl | skip
    exact absurd ⟨h.1, h.2.imp_left fun hne heq => hne (bump_eq hle heq).2⟩ h'
  | _ => exact le_rfl

/-- A sum in which one term goes down by one, another goes up, and none else
goes down is no less. -/
theorem sum_le_sum_of_swap {τ : Type} [Fintype τ] [DecidableEq τ] {f g : τ → ℕ} {t t' : τ}
    (hne : t ≠ t') (ht : f t ≤ g t + 1) (ht' : f t' + 1 ≤ g t')
    (hle : ∀ x, x ≠ t → x ≠ t' → f x ≤ g x) : ∑ x, f x ≤ ∑ x, g x := by
  have hmem : t' ∈ Finset.univ.erase t := Finset.mem_erase.mpr ⟨hne.symm, Finset.mem_univ t'⟩
  rw [← Finset.add_sum_erase _ f (Finset.mem_univ t),
    ← Finset.add_sum_erase _ g (Finset.mem_univ t), ← Finset.add_sum_erase _ f hmem,
    ← Finset.add_sum_erase _ g hmem]
  have hrest : ∑ x ∈ (Finset.univ.erase t).erase t', f x
      ≤ ∑ x ∈ (Finset.univ.erase t).erase t', g x :=
    Finset.sum_le_sum fun x hx =>
      hle x (Finset.ne_of_mem_erase (Finset.mem_of_mem_erase hx)) (Finset.ne_of_mem_erase hx)
  omega

variable [DecidableEq τ] {s : State ω τ σ C T}

omit [DecidableEq τ] in
/-- **A notification** finds no sleeper on a side, or takes no helper away from
it. -/
theorem Inv.bumped (h : Inv M L W note s) {w : ω} {pc : τ → Pc C T}
    (hprev : ∀ t, (pc t).PrevLe M W (bump s.epoch w))
    (hasleep : ∀ t k, (pc t).Asleep W (note t) (bump s.epoch w) k →
      (s.pc t).Asleep W (note t) s.epoch k)
    (hhelp : ∀ k, (∀ t, ¬ (pc t).Asleep W (note t) (bump s.epoch w) k)
      ∨ helpers M L W note s k ≤ ∑ t, (pc t).helps M L W (note t) (bump s.epoch w) k) :
    Inv M L W note ⟨s.queue, bump s.epoch w, pc, s.script⟩ where
  prevLe := hprev
  enough k := by
    rintro ⟨t, ht⟩
    rcases hhelp k with hnone | hle
    · exact absurd ht (hnone t)
    · exact (h.enough k ⟨t, hasleep t k ht⟩).trans hle

/-- A notification that finds nobody blocked. -/
theorem Inv.notifyNone (h : Inv M L W note s) (hW : ∀ k, W.notifier k = W.waiter k.other) {t : τ}
    {o : Outcome T} (hpc : s.pc t = .notifying o)
    (hnone : ∀ t', ¬ (s.pc t').BlockedOn W (W.notifier o.side)) :
    Inv M L W note ⟨s.queue, bump s.epoch (W.notifier o.side), Function.update s.pc t .idle,
      s.script⟩ := by
  have hold : ∀ t' k, (Function.update s.pc t .idle t').Asleep W (note t')
      (bump s.epoch (W.notifier o.side)) k → t' ≠ t
        ∧ (s.pc t').Asleep W (note t') (bump s.epoch (W.notifier o.side)) k := by
    intro t' k hasleep
    by_cases ht : t' = t
    · subst ht
      simp only [Function.update_self] at hasleep
      exact hasleep.elim
    · exact ⟨ht, by simpa [ht] using hasleep⟩
  refine h.bumped ((Function.forall_update_iff s.pc fun _ => Pc.PrevLe M W (bump s.epoch _)).mpr
    ⟨trivial, fun x _ => prevLe_bump _ (h.prevLe x)⟩) (fun t' k hasleep => ?_) (fun k => ?_)
  · exact (asleep_bump (h.prevLe t') (hold t' k hasleep).2).1
  · rcases k.eq_or_eq_other o.side with rfl | rfl
    · refine Or.inr (Finset.sum_le_sum fun t' _ => ?_)
      by_cases ht : t' = t
      · subst ht
        simp [hpc, Pc.helps, o.side.ne_other.symm]
      · simpa [ht] using helps_le_bump _ (h.prevLe t')
    · refine Or.inl fun t' hasleep => ?_
      obtain ⟨_, hasleep⟩ := hold t' _ hasleep
      have hblocked := (asleep_bump (h.prevLe t') hasleep).2 (hW o.side).symm
      exact hnone t' (by rw [Pc.BlockedOn, hblocked, Option.map_some, hW])

omit [Fintype τ] in
/-- What holds of two threads after they moved on, and of the others, holds of
all. -/
theorem forall_update_update {P : τ → Pc C T → Prop} {pc : τ → Pc C T} {t t' : τ} {a b : Pc C T}
    (ht : P t a) (ht' : P t' b) (hother : ∀ x, x ≠ t → x ≠ t' → P x (pc x)) (x : τ) :
    P x (Function.update (Function.update pc t' b) t a x) := by
  refine (Function.forall_update_iff _ P).mpr ⟨ht, fun y hy => ?_⟩ x
  by_cases hy' : y = t'
  · subst hy'
    simpa using ht'
  · simpa [hy'] using hother y hy hy'

/-- **A notification that wakes a thread**, one of the side it is meant for if
such a thread is blocked. -/
theorem Inv.notifySome (h : Inv M L W note s) (hW : ∀ k, W.notifier k = W.waiter k.other) {t t' : τ}
    {o : Outcome T} {prev : ℕ} {op : Op T} (hpc : s.pc t = .notifying o)
    (hpc' : s.pc t' = .blocked prev op) (hwaiter : W.waiter op.side = W.notifier o.side)
    (hright : (∃ t'', (s.pc t'').blockedSide = some o.side.other) → op.side = o.side.other) :
    Inv M L W note ⟨s.queue, bump s.epoch (W.notifier o.side),
      Function.update (Function.update s.pc t' (.checking prev op)) t .idle, s.script⟩ := by
  have hne : t ≠ t' := by
    rintro rfl
    rw [hpc] at hpc'
    cases hpc'
  have hprev : prev ≤ s.epoch (W.waiter op.side) := by
    have := h.prevLe t'
    rwa [hpc'] at this
  have hpast : bump s.epoch (W.notifier o.side) (W.waiter op.side) ≠ prev := fun heq =>
    (bump_eq hprev heq).1 hwaiter
  have hasleep : ∀ x k,
      (Function.update (Function.update s.pc t' (.checking prev op)) t .idle x).Asleep W (note x)
      (bump s.epoch (W.notifier o.side)) k → (s.pc x).Asleep W (note x) s.epoch k
        ∧ (W.waiter k = W.notifier o.side → (s.pc x).blockedSide = some k) := fun x k =>
    forall_update_update (P := fun x pc =>
        pc.Asleep W (note x) (bump s.epoch (W.notifier o.side)) k →
        (s.pc x).Asleep W (note x) s.epoch k
          ∧ (W.waiter k = W.notifier o.side → (s.pc x).blockedSide = some k))
      (b := .checking prev op) False.elim (fun ha => absurd ha.2.1 hpast)
      (fun x _ _ => asleep_bump (h.prevLe x)) x
  refine h.bumped (forall_update_update (P := fun _ pc => pc.PrevLe M W _) trivial
    (Nat.le_trans hprev (le_bump _ _)) fun x _ _ => prevLe_bump _ (h.prevLe x))
    (fun x k ha => (hasleep x k ha).1) (fun k => ?_)
  rcases k.eq_or_eq_other o.side with rfl | rfl
  · -- the notifier does not help its own side
    refine Or.inr (Finset.sum_le_sum fun x _ => forall_update_update (P := fun x pc =>
      (s.pc x).helps M L W (note x) s.epoch o.side ≤ pc.helps M L W (note x) _ o.side) ?_ ?_
      (fun x _ _ => helps_le_bump _ (h.prevLe x)) x)
    · rw [hpc]
      simp [Pc.helps, o.side.ne_other.symm]
    · rw [hpc']
      exact Nat.zero_le _
  · by_cases hside : op.side = o.side.other
    · -- the woken thread helps in its place
      refine Or.inr (sum_le_sum_of_swap hne ?_ ?_ fun x hx hx' => ?_)
      · rw [hpc, Function.update_self]
        simp [Pc.helps]
      · rw [hpc', Function.update_of_ne hne.symm, Function.update_self]
        simp [Pc.helps, hside, hside ▸ hpast]
      · rw [Function.update_of_ne hx, Function.update_of_ne hx']
        exact helps_le_bump _ (h.prevLe x)
    · exact Or.inl fun x ha => hside (hright ⟨x, (hasleep x _ ha).2 (hW o.side).symm⟩)

end Notify

/-! ## Every step keeps the count -/

/-- A thread is about to block: the epoch is the one it read. -/
def Pc.Blocks (epoch : ω → ℕ) : Pc C T → Prop
  | checking prev op => epoch (W.waiter op.side) = prev
  | _ => False

instance (epoch : ω → ℕ) (pc : Pc C T) : Decidable (pc.Blocks W epoch) := by
  cases pc <;> unfold Pc.Blocks <;> infer_instance

/-- **No noted thread blocks.** -/
def Wakeful (note : τ → Bool) (s : State ω τ σ C T) : Action τ → Prop
  | .step t _ => (s.pc t).Blocks W s.epoch → note t = false
  | _ => True

instance (note : τ → Bool) (s : State ω τ σ C T) : ∀ a, Decidable (Wakeful W note s a)
  | .step t _ => inferInstanceAs (Decidable ((s.pc t).Blocks W s.epoch → note t = false))
  | .notify _ _ | .wakeup _ => .isTrue trivial

/-- **A call that fails and may block on it leaves nothing to do**, or it is noted
that it did. Else nothing is noted. -/
structure Settled (M : Operations σ C T) (L : Ledger σ C) (W : Setup ω) (note : τ → Bool)
    (s : State ω τ σ C T) (a : Action τ) (note' : τ → Bool) : Prop where
  noted : ∀ t spurious, a = .step t spurious → ∀ prev c q o, s.pc t = .retrying prev c →
    M.step s.queue spurious c = some (q, .inr o) → o.retry ≠ none →
    s.epoch (W.waiter (M.side c)) = prev → note' t = false → L.avail (M.side c) q = 0
  kept : ∀ x, (∀ spurious, a ≠ .step x spurious) → note' x = note x

/-- The side a thread is about to notify. -/
def Pc.notifies : Pc C T → Option Side
  | notifying o => some o.side.other
  | _ => none

/-- **A notification wakes a thread of the other side**, if one is blocked. -/
def RightWake (s : State ω τ σ C T) : Action τ → Prop
  | .notify t (some t') => ∀ k, (s.pc t).notifies = some k →
      (∃ t'', (s.pc t'').blockedSide = some k) → (s.pc t').blockedSide = some k
  | _ => True

instance (s : State ω τ σ C T) : ∀ a, Decidable (RightWake s a)
  | .notify t (some t') => inferInstanceAs (Decidable (∀ k, (s.pc t).notifies = some k →
      (∃ t'', (s.pc t'').blockedSide = some k) → (s.pc t').blockedSide = some k))
  | .notify _ none | .step _ _ | .wakeup _ => .isTrue trivial

variable {M L W}
variable [DecidableEq τ] [DecidableEq ω] {s s' : State ω τ σ C T} {a : Action τ}
  {note note' : τ → Bool}

omit [Fintype τ] [DecidableEq τ] [DecidableEq ω] in
/-- A step of a thread notes nothing of another. -/
theorem Settled.of_ne {t : τ} {spurious : Bool} (h : Settled M L W note s (.step t spurious) note')
    (x : τ) (hx : x ≠ t) : note' x = note x :=
  h.kept x fun _ heq => hx (Action.step.inj heq).1.symm

/-- **A step keeps the count**, where the operations account for themselves,
failures leave nothing to do or are noted, no noted thread blocks, and
notifications wake the right side. -/
theorem Inv.step (h : Inv M L W note s) (hstart : Starts M L)
    (hW : ∀ k, W.notifier k = W.waiter k.other)
    (hacct : ∀ t c spurious q r, (s.pc t).call = some c →
      M.step s.queue spurious c = some (q, r) → Accounts M L s.queue c q r)
    (hsettled : Settled M L W note s a note') (hwakeful : Wakeful W note s a)
    (hright : RightWake s a) (hstep : Step M W s a s') : Inv M L W note' s' := by
  cases hstep with
  -- a call that starts is one helper more
  | call t spurious op ops hpc hscript =>
    refine h.move hsettled.of_ne _ _ _ (prevLe_loopStart _ _) fun k =>
      Or.inr ⟨fun ha => (not_asleep_loopStart _ _ ha).elim, ?_⟩
    rw [hpc]
    exact Nat.le_add_right _ _
  -- an operation accounts for itself, wherever it leads, as long as it leads not to sleep
  | spin t spurious backoff c q r hpc hmstep =>
    have hcall : (s.pc t).call = some c := by rw [hpc]; rfl
    exact h.move hsettled.of_ne _ _ _ (prevLe_afterSpin _ _) fun k =>
      Or.inr ⟨fun ha => (not_asleep_afterSpin _ _ ha).elim,
        pays hcall (hacct t c spurious q r hcall hmstep) (helps_afterSpin hstart _ _)⟩
  | read t spurious op hpc =>
    refine h.move hsettled.of_ne _ _ _ ?_ fun k => Or.inr ⟨fun ha => ha.elim, ?_⟩
    · exact (congrArg (fun k => s.epoch (W.waiter k)) (hstart.side op).symm).le
    · rw [hpc]
      simp [Pc.helps, Ledger.wants, hstart.side, hstart.unclaimed]
  | retry t spurious prev c q r hpc hmstep =>
    have hcall : (s.pc t).call = some c := by rw [hpc]; rfl
    have hc := hacct t c spurious q r hcall hmstep
    have hprev : prev ≤ s.epoch (W.waiter (M.sideOf r)) := by
      have := h.prevLe t
      rw [hpc] at this
      exact hc.side ▸ this
    refine h.move hsettled.of_ne _ _ _ (prevLe_afterRetry hprev) fun k => ?_
    by_cases hasleep : (afterRetry prev r).Asleep W (note' t) s.epoch k
    · -- the call fails, the epoch is as it was read, and nothing is noted
      obtain ⟨hk, heq, hnoted, o, rfl, hretry⟩ := asleep_afterRetry (M := M) hasleep
      rw [hc.side] at hk
      subst hk
      exact Or.inl (hsettled.noted t spurious rfl prev c q o hpc hmstep hretry heq hnoted)
    · exact Or.inr ⟨fun ha => absurd ha hasleep, pays hcall hc (helps_afterRetry hasleep)⟩
  -- who blocks was asleep already; who does not, helped already
  | block t spurious prev op hpc hprev =>
    have hnoted : note t = false := hwakeful (by rw [hpc]; exact hprev)
    refine h.move hsettled.of_ne _ _ _ hprev.ge fun k => Or.inr ⟨fun ha => ?_, ?_⟩
    · rw [hpc]
      exact ⟨ha, hprev, hnoted⟩
    · rw [hpc]
      simp [Pc.helps, hprev, hnoted]
  | again t spurious prev op hpc hprev =>
    refine h.move hsettled.of_ne _ _ _ (prevLe_loopStart _ _) fun k =>
      Or.inr ⟨fun ha => (not_asleep_loopStart _ _ ha).elim, ?_⟩
    rw [hpc, helps_loopStart hstart]
    simp [Pc.helps, hprev]
  | notifyNone t o hpc hnone =>
    obtain rfl : note' = note := funext fun x => hsettled.kept x fun _ heq => by cases heq
    exact h.notifyNone hW hpc hnone
  | notifySome t t' o prev op hpc hpc' hwaiter =>
    obtain rfl : note' = note := funext fun x => hsettled.kept x fun _ heq => by cases heq
    refine h.notifySome hW hpc hpc' hwaiter fun hex => ?_
    have hside := hright o.side.other (by rw [hpc]; rfl) hex
    rw [hpc'] at hside
    exact Option.some.inj hside
  | wakeup t prev op hpc =>
    obtain rfl : note' = note := funext fun x => hsettled.kept x fun _ heq => by cases heq
    refine h.move (fun _ _ => rfl) _ _ _ ?_ fun k => Or.inr ⟨fun ha => ?_, ?_⟩
    · have := h.prevLe t
      rwa [hpc] at this
    · rw [hpc]
      exact ha.1
    · rw [hpc]
      exact Nat.le_add_right _ _

/-- At the start, every thread is idle. -/
theorem inv_init (scripts : τ → List (Op T)) : Inv M L W note (system M W scripts).init where
  prevLe _ := trivial
  enough _ := fun ⟨_, ht⟩ => ht.elim

/-! ## No wakeup is lost -/

omit [DecidableEq τ] [DecidableEq ω] in
/-- **When every thread is idle or blocked, a blocked thread's side has nothing
to do.** -/
theorem Inv.avail_eq_zero (h : Inv M L W note s)
    (hall : ∀ t, s.pc t = .idle ∨ ∃ prev op, s.pc t = .blocked prev op) {t : τ} {prev : ℕ}
    {op : Op T} (ht : s.pc t = .blocked prev op) : L.avail op.side s.queue = 0 := by
  have hasleep : (s.pc t).Asleep W (note t) s.epoch op.side := by
    rw [ht]
    exact rfl
  have hzero : helpers M L W note s op.side = 0 := by
    refine Finset.sum_eq_zero fun t' _ => ?_
    rcases hall t' with hidle | ⟨prev', op', hblocked⟩
    · rw [hidle]
      rfl
    · rw [hblocked]
      rfl
  exact Nat.le_zero.mp (hzero ▸ h.enough op.side ⟨t, hasleep⟩)

/-- A thread that has made all its calls. -/
def Finished (s : State ω τ σ C T) (t : τ) : Prop := s.pc t = .idle ∧ s.script t = []

/-- **A wakeup is lost**: every unfinished thread is blocked, and what one of
them waits for could be done. -/
def LostWakeup (ready : σ → Op T → Prop) (s : State ω τ σ C T) : Prop :=
  (∀ t, Finished s t ∨ ∃ prev op, s.pc t = .blocked prev op)
    ∧ ∃ t prev op, s.pc t = .blocked prev op ∧ ready s.queue op

omit [DecidableEq τ] [DecidableEq ω] in
/-- Where what is ready counts as available, the invariant excludes a lost
wakeup. -/
theorem Inv.not_lostWakeup {ready : σ → Op T → Prop} (h : Inv M L W note s)
    (hready : ∀ op, ready s.queue op → 0 < L.avail op.side s.queue) : ¬ LostWakeup ready s := by
  rintro ⟨hall, t, prev, op, ht, hop⟩
  have hzero := h.avail_eq_zero (fun t' => (hall t').imp And.left id) ht
  exact absurd (hready op hop) (by omega)

end Waiter
