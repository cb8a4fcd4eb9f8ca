import Algors.Waiter.Wakeup
import Mathlib.Tactic.FinCases

/-!
# One `BlockingWait` for both sides

The documentation of `push` and `pop` lets the waiter and the notifier be one
object, and the contention test uses one for every thread. Producers and
consumers then sleep on one condition variable, and a notification wakes one
of them, of either side. Here the operations of the queue are single steps on
a bounded FIFO, so that all that can go wrong is in the waiting.

A notification may wake a thread of the notifier's own side while one of the
other side is blocked. It is the condition variable's choice, and it does no
harm by itself: when the woken thread succeeds, it makes a notification in its
turn. But when it finds nothing to do and goes back to sleep, the notification
is spent. No wakeup is lost as long as no thread that was misled in this way
blocks again before it has succeeded.

The count of `Algors.Waiter.Wakeup` does not hold in between: the notifier was a
helper of the other side, and the thread it misled is not. Instead, as long as
there is something to do for a side with sleepers, one thread sees to it, by a
notification it is about to make, or by a try ahead of it, on whichever side. Who
succeeds sees to both sides at once, since it leaves something for the other.
-/

open Fifo (Op Outcome Side)

namespace Waiter

variable {T τ : Type} {cap : ℕ}

/-- **The operations of the bounded FIFO**, each a single step. -/
def fifoOps (T : Type) (cap : ℕ) : Operations (List T) (Op T) T where
  init := []
  start := id
  side := Op.side
  step stored _ op := some ((Fifo.apply cap stored op).1, .inr (Fifo.apply cap stored op).2)

/-- What there is to do for a side: the elements are what consumers can take, the
free places what producers can. -/
def toDo (cap : ℕ) (stored : List T) : Side → ℕ
  | .consumer => stored.length
  | .producer => cap - stored.length

/-- The operation would succeed. -/
def FifoReady (cap : ℕ) (stored : List T) (op : Op T) : Prop :=
  (Fifo.apply cap stored op).2.retry = none

/-- A step is a call of the FIFO. -/
theorem apply_of_step {stored stored' : List T} {spurious : Bool} {op : Op T}
    {r : Op T ⊕ Outcome T} (h : (fifoOps T cap).step stored spurious op = some (stored', r)) :
    ∃ o, r = .inr o ∧ Fifo.apply cap stored op = (stored', o) := by
  obtain ⟨rfl, rfl⟩ := Prod.mk.inj (Option.some.inj h)
  exact ⟨_, rfl, rfl⟩

/-- An operation succeeds where there is something for its side. -/
theorem fifoReady_iff {stored : List T} {op : Op T} :
    FifoReady cap stored op ↔ 0 < toDo cap stored op.side := by
  unfold FifoReady
  cases op with
  | push val =>
    unfold Fifo.apply
    split_ifs with hlt <;> simp [Outcome.retry, toDo, Op.side] <;> omega
  | pop => cases stored <;> simp [Fifo.apply, Outcome.retry, toDo, Op.side]

/-- **A success leaves something for the other side**: the element pushed, or the
place freed. -/
theorem toDo_other_of_success {stored stored' : List T} {op : Op T} {o : Outcome T}
    (h : Fifo.apply cap stored op = (stored', o)) (ho : o.retry = none)
    (hfits : stored.length ≤ cap) :
    o.side = op.side ∧ stored'.length ≤ cap ∧ 0 < toDo cap stored' op.side.other := by
  cases op with
  | push val =>
    unfold Fifo.apply at h
    split_ifs at h with hlt
    · obtain ⟨rfl, rfl⟩ := Prod.mk.inj h
      simp [Outcome.side, Op.side, Side.other, toDo]
      omega
    · obtain ⟨rfl, rfl⟩ := Prod.mk.inj h
      cases ho
  | pop =>
    cases stored with
    | nil =>
      obtain ⟨rfl, rfl⟩ := Prod.mk.inj h
      cases ho
    | cons val stored =>
      obtain ⟨rfl, rfl⟩ := Prod.mk.inj h
      simp only [List.length_cons] at hfits
      refine ⟨rfl, by omega, ?_⟩
      show 0 < cap - stored.length
      omega

/-- A failure leaves nothing for its side, and is retried. -/
theorem toDo_of_retry {stored stored' : List T} {op op' : Op T} {o : Outcome T}
    (h : Fifo.apply cap stored op = (stored', o)) (ho : o.retry = some op') :
    stored' = stored ∧ op'.side = op.side ∧ toDo cap stored op.side = 0 := by
  have hfail : ¬ FifoReady cap stored op := by
    unfold FifoReady
    rw [h, ho]
    exact Option.some_ne_none op'
  refine ⟨Fifo.eq_of_retry h ho, ?_, Nat.eq_zero_of_not_pos fun hpos =>
    hfail (fifoReady_iff.mpr hpos)⟩
  have hside : op.side = (Fifo.apply cap stored op).2.side := by
    cases op with
    | push val =>
      unfold Fifo.apply
      split_ifs <;> rfl
    | pop => cases stored <;> rfl
  rw [Outcome.side_of_retry ho, hside, h]

/-! ## Who sees to a side -/

/-- **A thread will try** its operation on a side before it can block. A misled one
tries until it succeeds. -/
def Pc.Tries (misled : Bool) (epoch : Unit → ℕ) (k : Side) : Pc (Op T) T → Prop
  | spinning _ op | reading op | retrying _ op => op.side = k
  | checking prev op => op.side = k ∧ (epoch () ≠ prev ∨ misled = true)
  | _ => False

/-- **A thread sees to the sleepers of a side.** -/
inductive SeesTo (cap : ℕ) (stored : List T) (misled : Bool) (epoch : Unit → ℕ) (k : Side) :
    Pc (Op T) T → Prop
  /-- It is about to notify them. -/
  | notifies {o : Outcome T} (hside : o.side = k.other) :
      SeesTo cap stored misled epoch k (.notifying o)
  /-- It is about to notify the other side, which has something to do, and whose
  threads notify them then. -/
  | forwards {o : Outcome T} (hside : o.side = k) (hpos : 0 < toDo cap stored k.other) :
      SeesTo cap stored misled epoch k (.notifying o)
  /-- It is of this side and tries. -/
  | tries {pc : Pc (Op T) T} (htries : pc.Tries misled epoch k) :
      SeesTo cap stored misled epoch k pc
  /-- It is of the other side and tries, with something to do, or until there is. -/
  | crosses {pc : Pc (Op T) T} (htries : pc.Tries misled epoch k.other)
      (hpos : 0 < toDo cap stored k.other ∨ misled = true) : SeesTo cap stored misled epoch k pc

/-- **Where there is something to do for a side with sleepers, a thread sees to
them.** -/
structure Watched (cap : ℕ) (misled : τ → Bool) (s : State Unit τ (List T) (Op T) T) : Prop where
  fits : s.queue.length ≤ cap
  prevLe : ∀ t, (s.pc t).PrevLe (fifoOps T cap) .shared s.epoch
  watched : ∀ k, 0 < toDo cap s.queue k → (∃ t, (s.pc t).Asleep .shared (misled t) s.epoch k) →
    ∃ t, SeesTo cap s.queue (misled t) s.epoch k (s.pc t)

section Sees

variable {stored : List T} {misled : Bool} {epoch : Unit → ℕ} {k : Side} {pc n : Pc (Op T) T}

/-- A thread that starts its call again tries. -/
theorem tries_loopStart (backoff : Backoff) (op : Op T) :
    (loopStart (fifoOps T cap) backoff op).Tries misled epoch op.side := by
  unfold loopStart
  split_ifs <;> rfl

/-- Who sees to a side is neither idle nor blocked. -/
theorem SeesTo.awake (h : SeesTo cap stored misled epoch k pc) :
    pc ≠ .idle ∧ ∀ prev op, pc ≠ .blocked prev op := by
  constructor
  · rintro rfl
    cases h with
    | tries htries | crosses htries _ => exact htries.elim
  · rintro prev op rfl
    cases h with
    | tries htries | crosses htries _ => exact htries.elim

/-- A thread that goes on trying sees to whom it saw to. -/
theorem SeesTo.of_tries (h : SeesTo cap stored misled epoch k pc)
    (hnot : pc.notifies = none)
    (hn : ∀ k, pc.Tries misled epoch k → n.Tries misled epoch k) :
    SeesTo cap stored misled epoch k n := by
  cases h with
  | notifies _ | forwards _ _ => exact (Option.some_ne_none _ hnot).elim
  | tries htries => exact .tries (hn k htries)
  | crosses htries hpos => exact .crosses (hn _ htries) hpos

/-- **A thread that fails** does not see to its own side, which has nothing to do, and
sees to the other only if it was misled; then it tries again. -/
theorem SeesTo.of_fails {op : Op T} (h : SeesTo cap stored misled epoch k pc)
    (hnot : pc.notifies = none) (hpc : ∀ k, pc.Tries misled epoch k → op.side = k)
    (hzero : toDo cap stored op.side = 0) (hpos : 0 < toDo cap stored k)
    (hn : misled = true → n.Tries misled epoch op.side) : SeesTo cap stored misled epoch k n := by
  cases h with
  | notifies _ | forwards _ _ => exact (Option.some_ne_none _ hnot).elim
  | tries htries =>
    obtain rfl := hpc k htries
    omega
  | crosses htries hdo =>
    have hside := hpc _ htries
    rw [hside] at hzero hn
    have hmisled := hdo.resolve_left (by omega)
    exact .crosses (hn hmisled) (.inr hmisled)

/-- A notification takes nobody away who tries. -/
theorem SeesTo.of_bump (h : SeesTo cap stored misled epoch k pc)
    (hle : pc.PrevLe (fifoOps T cap) .shared epoch) :
    SeesTo cap stored misled (bump epoch ()) k pc := by
  have htries : ∀ k, pc.Tries misled epoch k → pc.Tries misled (bump epoch ()) k := by
    intro k htries
    cases pc with
    | checking prev op =>
      exact ⟨htries.1, htries.2.imp_left fun hne heq => hne (bump_eq hle heq).2⟩
    | _ => exact htries
  cases h with
  | notifies hside => exact .notifies hside
  | forwards hside hpos => exact .forwards hside hpos
  | tries h => exact .tries (htries k h)
  | crosses h hpos => exact .crosses (htries _ h) hpos

end Sees

/-! ## Every step keeps it -/

section Keeps

variable [DecidableEq τ] {s s' : State Unit τ (List T) (Op T) T} {misled : τ → Bool} {t : τ}

namespace Watched

/-- **One thread moves on** and leaves the queue as it is: it falls asleep only where
it was, and still sees to whom it saw to. -/
theorem move (h : Watched cap misled s) (n : Pc (Op T) T) (script : τ → List (Op T))
    (hprev : n.PrevLe (fifoOps T cap) .shared s.epoch)
    (hmove : ∀ k, 0 < toDo cap s.queue k →
      (n.Asleep .shared (misled t) s.epoch k → (s.pc t).Asleep .shared (misled t) s.epoch k)
        ∧ (SeesTo cap s.queue (misled t) s.epoch k (s.pc t) →
          SeesTo cap s.queue (misled t) s.epoch k n)) :
    Watched cap misled ⟨s.queue, s.epoch, Function.update s.pc t n, script⟩ where
  fits := h.fits
  prevLe := (Function.forall_update_iff s.pc fun _ =>
    Pc.PrevLe (fifoOps T cap) .shared s.epoch).mpr ⟨hprev, fun x _ => h.prevLe x⟩
  watched k hpos := by
    rintro ⟨x, hasleep⟩
    obtain ⟨hkeep, hsees⟩ := hmove k hpos
    have hold : (s.pc x).Asleep .shared (misled x) s.epoch k := by
      by_cases hx : x = t
      · subst hx
        exact hkeep (by simpa using hasleep)
      · simpa [hx] using hasleep
    obtain ⟨y, hy⟩ := h.watched k hpos ⟨x, hold⟩
    refine ⟨y, ?_⟩
    by_cases hyt : y = t
    · subst hyt
      simpa using hsees hy
    · simpa [hyt] using hy

/-- **A thread that succeeds sees to both sides.** -/
theorem success (h : Watched cap misled s) {op : Op T} {q : List T} {o : Outcome T}
    (happly : Fifo.apply cap s.queue op = (q, o)) (ho : o.retry = none) :
    Watched cap misled ⟨q, s.epoch, Function.update s.pc t (.notifying o), s.script⟩ := by
  obtain ⟨hside, hfits, hpos⟩ := toDo_other_of_success happly ho h.fits
  refine ⟨hfits, (Function.forall_update_iff s.pc fun _ =>
    Pc.PrevLe (fifoOps T cap) .shared s.epoch).mpr ⟨trivial, fun x _ => h.prevLe x⟩,
    fun k _ _ => ⟨t, ?_⟩⟩
  show SeesTo cap q (misled t) s.epoch k (Function.update s.pc t (.notifying o) t)
  rw [Function.update_self]
  rcases op.side.eq_or_eq_other k with hk | hk
  · exact .forwards (hside.trans hk) (hk ▸ hpos)
  · exact .notifies (hside.trans hk)

/-- **A thread that fails** goes on trying, or falls asleep where there is nothing to
do. -/
theorem failure (h : Watched cap misled s) {op : Op T} {n : Pc (Op T) T}
    (hpc : (s.pc t).call = some op) (hzero : toDo cap s.queue op.side = 0)
    (hprev : n.PrevLe (fifoOps T cap) .shared s.epoch)
    (hasleep : ∀ k, n.Asleep .shared (misled t) s.epoch k → op.side = k)
    (hn : misled t = true → n.Tries true s.epoch op.side) :
    Watched cap misled ⟨s.queue, s.epoch, Function.update s.pc t n, s.script⟩ := by
  have hnot : (s.pc t).notifies = none := by
    cases hp : s.pc t <;> rw [hp] at hpc <;> cases hpc <;> rfl
  have hside : ∀ k, (s.pc t).Tries (misled t) s.epoch k → op.side = k := by
    intro k htries
    cases hp : s.pc t <;> rw [hp] at hpc htries <;> cases hpc <;> exact htries
  refine h.move n s.script hprev fun k hpos => ⟨fun ha => ?_, fun hsees => ?_⟩
  · obtain rfl := hasleep k ha
    omega
  · exact hsees.of_fails hnot hside hzero hpos fun hmisled => hmisled ▸ hn hmisled

/-- A notification that finds nobody blocked leaves nobody asleep. -/
theorem notifyNone (h : Watched cap misled s) {misled' : τ → Bool}
    (hnone : ∀ x, ¬ (s.pc x).BlockedOn .shared ()) (hkept : ∀ x, x ≠ t → misled' x = misled x) :
    Watched cap misled' ⟨s.queue, bump s.epoch (), Function.update s.pc t .idle, s.script⟩ where
  fits := h.fits
  prevLe := (Function.forall_update_iff s.pc fun _ =>
    Pc.PrevLe (fifoOps T cap) .shared (bump s.epoch ())).mpr
    ⟨trivial, fun x _ => prevLe_bump _ (h.prevLe x)⟩
  watched k _ := by
    rintro ⟨x, hasleep⟩
    by_cases hx : x = t
    · subst hx
      simp only [Function.update_self] at hasleep
      exact hasleep.elim
    · simp only [Function.update_of_ne hx] at hasleep
      have hblocked := (asleep_bump (h.prevLe x) hasleep).2 rfl
      exact absurd (by rw [Pc.BlockedOn, hblocked]; rfl) (hnone x)

/-- **A notification wakes a thread**, which is misled if it is of the notifier's side
while one of the other is blocked. It sees to the sleepers that are left, or who saw
to them does. -/
theorem notifySome (h : Watched cap misled s) {misled' : τ → Bool} {t' : τ} {o : Outcome T}
    {prev : ℕ} {op : Op T} (hpc : s.pc t = .notifying o) (hpc' : s.pc t' = .blocked prev op)
    (hnote : (∃ x, (s.pc x).blockedSide = some o.side.other) → op.side ≠ o.side.other →
      misled' t' = true)
    (hkept : ∀ x, x ≠ t → x ≠ t' → misled' x = misled x) :
    Watched cap misled' ⟨s.queue, bump s.epoch (),
      Function.update (Function.update s.pc t' (.checking prev op)) t .idle, s.script⟩ := by
  have hne : t ≠ t' := by
    rintro rfl
    rw [hpc] at hpc'
    cases hpc'
  have hprev : prev ≤ s.epoch () := by
    have := h.prevLe t'
    rwa [hpc'] at this
  have hpast : bump s.epoch () () ≠ prev := fun heq => (bump_eq hprev heq).1 rfl
  -- only those who were blocked are still asleep, and the woken thread tries
  have hasleep : ∀ x k,
      (Function.update (Function.update s.pc t' (.checking prev op)) t .idle x).Asleep .shared
        (misled' x) (bump s.epoch ()) k →
      (s.pc x).Asleep .shared (misled x) s.epoch k ∧ (s.pc x).blockedSide = some k := fun x k =>
    forall_update_update (P := fun x pc =>
        pc.Asleep .shared (misled' x) (bump s.epoch ()) k →
        (s.pc x).Asleep .shared (misled x) s.epoch k ∧ (s.pc x).blockedSide = some k)
      (b := .checking prev op) False.elim (fun ha => absurd ha.2.1 hpast)
      (fun x hx hx' ha => by
        rw [hkept x hx hx'] at ha
        exact (asleep_bump (h.prevLe x) ha).imp_right fun hb => hb rfl) x
  have hwoken : ∀ k, op.side = k → (Pc.checking (C := Op T) prev op).Tries (misled' t')
      (bump s.epoch ()) k := fun k hk => ⟨hk, .inl hpast⟩
  refine ⟨h.fits, forall_update_update
    (P := fun _ pc => pc.PrevLe (fifoOps T cap) .shared (bump s.epoch ()))
    trivial (Nat.le_trans hprev (le_bump _ _)) fun x _ _ => prevLe_bump _ (h.prevLe x), ?_⟩
  rintro k hpos ⟨x, hx⟩
  obtain ⟨hold, hblocked⟩ := hasleep x k hx
  -- it is enough that the woken thread sees to the side
  suffices hsees : SeesTo cap s.queue (misled' t') (bump s.epoch ()) k (.checking prev op)
      ∨ ∃ y, y ≠ t ∧ y ≠ t' ∧ SeesTo cap s.queue (misled y) (bump s.epoch ()) k (s.pc y) by
    rcases hsees with hsees | ⟨y, hy, hy', hsees⟩
    · exact ⟨t', by simpa [hne.symm] using hsees⟩
    · exact ⟨y, by simpa [hy, hy', hkept y hy hy'] using hsees⟩
  rcases op.side.eq_or_eq_other k with hk | hk
  · exact .inl (.tries (hwoken k hk))
  rcases o.side.eq_or_eq_other k with ho | ho
  · -- the notification is for the other side: who saw to this one does so still
    obtain ⟨y, hy⟩ := h.watched k hpos ⟨x, hold⟩
    by_cases hyt : y = t
    · subst hyt
      rw [hpc] at hy
      cases hy with
      | notifies hside => exact absurd (ho.symm.trans hside) k.ne_other
      | forwards _ hdo => exact .inl (.crosses (hwoken _ hk) (.inl hdo))
      | tries htries | crosses htries _ => exact htries.elim
    · exact .inr ⟨y, hyt, fun heq => hy.awake.2 prev op (heq ▸ hpc'), hy.of_bump (h.prevLe y)⟩
  · -- the woken thread is misled
    have hside : o.side.other = k := by
      rw [ho]
      cases k <;> rfl
    refine .inl (.crosses (hwoken _ hk) (.inr (hnote ⟨x, hside ▸ hblocked⟩ fun heq => ?_)))
    exact k.ne_other (hside.symm.trans (heq.symm.trans hk))

end Watched

end Keeps

/-! ## No wakeup is lost -/

section Wakeups

variable [DecidableEq τ] [Fintype τ]

/-- Note of the thread a notification wakes whether it was misled: whether it is of the
notifier's side while a thread of the other side is blocked. The notifier itself has
succeeded. -/
def noteMisled (s : State Unit τ (List T) (Op T) T) : Action τ → (τ → Bool) → τ → Bool
  | .notify t none, note => Function.update note t false
  | .notify t (some t'), note =>
    Function.update (Function.update note t' (decide (¬ RightWake s (.notify t (some t'))))) t false
  | .step _ _, note | .wakeup _, note => note

/-- The blocking calls, with a note of who was misled and has not succeeded since. -/
def noted (T : Type) (cap : ℕ) (scripts : τ → List (Op T)) :
    System (State Unit τ (List T) (Op T) T × (τ → Bool)) (Action τ) :=
  (system (fifoOps T cap) .shared scripts).annotate (fun _ => false) noteMisled

/-- **No misled thread blocks again** before it has succeeded. -/
abbrev Persistent (p : State Unit τ (List T) (Op T) T × (τ → Bool)) : Action τ → Prop :=
  Wakeful .shared p.2 p.1

/-- **A step keeps every side watched**, as long as no misled thread blocks. -/
theorem Watched.step {s s' : State Unit τ (List T) (Op T) T} {a : Action τ} {misled : τ → Bool}
    (h : Watched cap misled s) (hwakeful : Wakeful .shared misled s a)
    (hstep : Step (fifoOps T cap) .shared s a s') : Watched cap (noteMisled s a misled) s' := by
  cases hstep with
  | call t spurious op ops hpc hscript =>
    refine h.move _ _ (prevLe_loopStart _ _) fun k _ =>
      ⟨fun ha => (not_asleep_loopStart _ _ ha).elim, fun hsees => absurd hpc hsees.awake.1⟩
  -- a success sees to both sides; a failure leaves nothing to do for its own
  | spin t spurious backoff op q r hpc hmstep =>
    obtain ⟨o, rfl, happly⟩ := apply_of_step hmstep
    cases hretry : o.retry with
    | none =>
      simp only [afterSpin, hretry]
      exact h.success happly hretry
    | some op' =>
      obtain ⟨rfl, hside, hzero⟩ := toDo_of_retry happly hretry
      simp only [afterSpin, hretry]
      exact h.failure (by rw [hpc]; rfl) hzero (prevLe_loopStart _ _)
        (fun _ ha => (not_asleep_loopStart _ _ ha).elim) fun _ => hside ▸ tries_loopStart _ _
  | read t spurious op hpc =>
    refine h.move _ _ le_rfl fun k _ => ⟨False.elim, fun hsees => ?_⟩
    rw [hpc] at hsees
    exact hsees.of_tries rfl fun _ => id
  | retry t spurious prev op q r hpc hmstep =>
    obtain ⟨o, rfl, happly⟩ := apply_of_step hmstep
    cases hretry : o.retry with
    | none =>
      simp only [afterRetry, hretry]
      exact h.success happly hretry
    | some op' =>
      obtain ⟨rfl, hside, hzero⟩ := toDo_of_retry happly hretry
      have hprev := h.prevLe t
      rw [hpc] at hprev
      simp only [afterRetry, hretry]
      exact h.failure (by rw [hpc]; rfl) hzero hprev (fun _ ha => hside.symm.trans ha.1)
        fun _ => ⟨hside, .inr rfl⟩
  -- a thread that blocks was asleep before, since it was not misled
  | block t spurious prev op hpc hprev =>
    have hnote : misled t = false := hwakeful (by rw [hpc]; exact hprev)
    refine h.move _ _ hprev.ge fun k _ => ⟨fun ha => ?_, fun hsees => ?_⟩
    · rw [hpc]
      exact ⟨ha, hprev, hnote⟩
    · rw [hpc] at hsees
      cases hsees with
      | tries htries | crosses htries _ => simp [Pc.Tries, hnote, hprev] at htries
  | again t spurious prev op hpc hprev =>
    refine h.move _ _ (prevLe_loopStart _ _) fun k _ =>
      ⟨fun ha => (not_asleep_loopStart _ _ ha).elim, fun hsees => ?_⟩
    rw [hpc] at hsees
    exact hsees.of_tries rfl fun _ htries => htries.1 ▸ tries_loopStart _ _
  | notifyNone t o hpc hnone =>
    exact h.notifyNone hnone fun x hx => by simp [noteMisled, hx]
  | notifySome t t' o prev op hpc hpc' hwaiter =>
    have hne : t' ≠ t := by
      rintro rfl
      rw [hpc] at hpc'
      cases hpc'
    refine h.notifySome hpc hpc' (fun hex hside => ?_) fun x hx hx' => by simp [noteMisled, hx, hx']
    simp only [noteMisled, Function.update_of_ne hne, Function.update_self, decide_eq_true_eq]
    intro hright
    have hblocked := hright o.side.other (by rw [hpc]; rfl) hex
    rw [hpc'] at hblocked
    exact hside (Option.some.inj hblocked)
  | wakeup t prev op hpc =>
    have hprev := h.prevLe t
    rw [hpc] at hprev
    refine h.move _ _ hprev fun k _ => ⟨fun ha => ?_, fun hsees => absurd hpc (hsees.awake.2 _ _)⟩
    rw [hpc]
    exact ha.1

/-- At the start nobody is asleep. -/
theorem watched_init (scripts : τ → List (Op T)) :
    Watched cap (fun _ => false) (system (fifoOps T cap) .shared scripts).init where
  fits := Nat.zero_le _
  prevLe _ := trivial
  watched _ _ := fun ⟨_, ht⟩ => ht.elim

/-- **No wakeup is lost with one object for all**, for any threads and in any order of
steps in which no thread that was misled blocks again before it has succeeded. -/
theorem not_lostWakeup_of_persistent (scripts : τ → List (Op T))
    {p : State Unit τ (List T) (Op T) T × (τ → Bool)}
    (hp : (noted T cap scripts).ReachableWhile Persistent p) :
    ¬ LostWakeup (FifoReady cap) p.1 := by
  have hwatched : Watched cap p.2 p.1 := by
    refine hp.invariant (I := fun p => Watched cap p.2 p.1) (watched_init scripts)
      fun p a p' _ h hpersistent hnext => ?_
    obtain ⟨hnext, hnote⟩ := System.annotate_next_eq_some.mp hnext
    exact hnote ▸ h.step hpersistent (step_of_next hnext)
  rintro ⟨hall, t, prev, op, ht, hready⟩
  obtain ⟨x, hx⟩ := hwatched.watched op.side (fifoReady_iff.mp hready) ⟨t, by rw [ht]; rfl⟩
  rcases hall x with ⟨hidle, -⟩ | ⟨prev', op', hblocked⟩
  · exact hx.awake.1 hidle
  · exact hx.awake.2 _ _ hblocked

end Wakeups

/-- A producer of three values and three consumers of one, on two places. -/
def strandedScripts (t : Fin 4) : List (Op ℕ) :=
  if t.val = 0 then [.push 1, .push 2, .push 3] else [.pop]

/-- The consumers block; the producer wakes two of them with two values and blocks on
the third; the first of the two takes a value and wakes the third consumer. -/
def misleading {τ : Type} (producer first second third : τ) : List (Action τ) :=
  steps first 12 ++ steps second 12 ++ steps third 12
    ++ steps producer 2 ++ [.notify producer (some first)]
    ++ steps producer 2 ++ [.notify producer (some second)] ++ steps producer 12
    ++ steps first 2 ++ [.notify first (some third)]

/-- The third consumer takes the other value and wakes the producer; so the second,
which finds nothing and blocks, is woken in its turn. -/
def relayed {τ : Type} (producer first second third : τ) : List (Action τ) :=
  misleading producer first second third ++ steps third 2 ++ [.notify third (some producer)]
    ++ steps second 12 ++ steps producer 2 ++ [.notify producer (some second)] ++ steps second 2
    ++ [.notify second none]

set_option maxRecDepth 2000 in
/-- The third consumer was misled, and does not block. -/
theorem not_lostWakeup_of_persistent_misled :
    ∃ p, (noted ℕ 2 strandedScripts).run (noted ℕ 2 strandedScripts).init (relayed 0 1 2 3)
        = some p
      ∧ p.1.queue = [] ∧ ¬ LostWakeup (FifoReady 2) p.1 := by
  have hmeets : (noted ℕ 2 strandedScripts).RunMeets Persistent (noted ℕ 2 strandedScripts).init
      (relayed 0 1 2 3) := by decide
  have hrun : ((noted ℕ 2 strandedScripts).run (noted ℕ 2 strandedScripts).init
      (relayed 0 1 2 3)).map (fun p => p.1.queue) = some [] := rfl
  obtain ⟨p, hp, hqueue⟩ := Option.map_eq_some_iff.mp hrun
  exact ⟨p, hp, hqueue, not_lostWakeup_of_persistent _ (.of_run .init hmeets hp)⟩

/-- Here the second consumer takes the other value first: the third finds nothing and
blocks, and the notification of the second wakes it again. -/
def stranded {τ : Type} (producer first second third : τ) : List (Action τ) :=
  misleading producer first second third ++ steps second 2 ++ steps third 12
    ++ [.notify second (some third)] ++ steps third 12

/-- **A wakeup is lost**: the last consumer and the producer are blocked, and
the queue is empty. -/
theorem exists_lostWakeup_shared :
    ∃ s, (system (fifoOps ℕ 2) .shared strandedScripts).Reachable s
      ∧ LostWakeup (FifoReady 2) s := by
  have hrun : ((system (fifoOps ℕ 2) .shared strandedScripts).run
      (system (fifoOps ℕ 2) .shared strandedScripts).init (stranded 0 1 2 3)).map
        (fun s => (s.queue, s.pc 0, s.pc 1, s.pc 2, s.pc 3, s.script 1, s.script 2))
      = some ([], .blocked 2 (.push 3), .idle, .idle, .blocked 4 .pop, [], []) := by
    rfl
  obtain ⟨s, hs, heq⟩ := Option.map_eq_some_iff.mp hrun
  simp only [Prod.mk.injEq] at heq
  obtain ⟨hqueue, h₀, h₁, h₂, h₃, hs₁, hs₂⟩ := heq
  refine ⟨s, System.Reachable.of_run hs, fun t => ?_, 0, 2, .push 3, h₀, ?_⟩
  · fin_cases t
    · exact Or.inr ⟨_, _, h₀⟩
    · exact Or.inl ⟨h₁, hs₁⟩
    · exact Or.inl ⟨h₂, hs₂⟩
    · exact Or.inr ⟨_, _, h₃⟩
  · rw [hqueue]
    rfl

end Waiter
