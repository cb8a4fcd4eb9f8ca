import Algors.Queue.SpscLinear
import Algors.Waiter.Calls

/-!
# One producer and one consumer that wait for each other

With one thread a side, blocking on the single-producer single-consumer queue
loses no wakeup, whether the two share a `BlockingWait` or have one each. The
count of `Algors.Waiter.Wakeup` says so at every moment: a blocked thread's
side has no more to do than there are threads that still help it, and the only
one that can help is the other, by the notification it is about to make. So
while the consumer is blocked, the queue is empty or the producer has just
stored the tail, and while the producer is blocked, the queue is full or the
consumer has just stored the head. Both cannot be.

The two conditions of the count hold here of every step. A call that gives up
has just compared the counters themselves, not their cached copies, so it
leaves nothing to do. And a notification cannot wake the wrong thread, since
only one other is there to wake.
-/

open Fifo (Op Outcome Side)

namespace Spsc

variable {T ω : Type} {pow : ℕ}

open Call

/-! ## The operations -/

/-- The side a call is of. -/
def Call.side : Call T → Side
  | pushLoadTail _ | pushLoadHead _ _ | pushWrite _ _ | pushStoreTail _ => .producer
  | popLoadHead | popLoadTail _ | popRead _ | popStoreHead _ _ => .consumer

/-- **The operations of the queue.** It has no compare-exchange that could
fail. -/
def ops (T : Type) (pow : ℕ) : Waiter.Operations (Queue T pow) (Call T) T where
  init := .empty pow
  start := invoke
  side := Call.side
  step q _ c := exec q c

/-- The thread of a side makes the calls of its side. -/
def scripts (vals : List T) (pops : ℕ) : Side → List (Op T)
  | .producer => vals.map .push
  | .consumer => List.replicate pops .pop

/-- What there is to do for each side: a consumer can take the stored values,
a producer the free places. A call takes its one when it ends. -/
def ledger (T : Type) (pow : ℕ) : Waiter.Ledger (Queue T pow) (Call T) where
  avail
    | .consumer, q => q.inner.tail - q.inner.head
    | .producer, q => q.inner.head + 2 ^ pow - q.inner.tail
  claimed _ := false

/-- The steps of a call stay on its side. -/
theorem sided_ops : Waiter.Sided (ops T pow) where
  start op := by cases op <;> rfl
  step q spurious c q' r hexec := by cases execStep_of_exec hexec <;> rfl

theorem starts_ops : Waiter.Starts (ops T pow) (ledger T pow) where
  side := sided_ops.start
  unclaimed _ := rfl

/-- The system of calls with this queue and these calls under way. -/
def Sim (q : Queue T pow) (calls : Side → Option (Call T)) : Prop :=
  ∃ ms : State T pow, (system T pow).Reachable ms ∧ ms.queue = q
    ∧ ∀ k, (ms.call k).map Prod.snd = calls k

/-- **The system of calls is kept by calls**, each of the thread of its side. -/
theorem closed_ops : Waiter.Closed (ops T pow) (fun t k => t = k) Sim where
  init := ⟨_, .init, rfl, fun _ => rfl⟩
  start := by
    rintro _ calls t op ⟨ms, hs, rfl, hcalls⟩ hnone rfl
    have hidle : ms.call op.side = none := Option.map_eq_none_iff.mp ((hcalls op.side).trans hnone)
    have hnext : (system T pow).next ms (.call op) = some
        { ms with call := Function.update ms.call op.side (some (op, invoke op)) } := by
      simp [system, hidle]
    refine ⟨_, hs.step trivial hnext, rfl, fun k => ?_⟩
    by_cases hk : k = op.side
    · subst hk
      simp [ops]
    · simp [hk, hcalls k]
  step := by
    rintro _ calls t c spurious q r ⟨ms, hs, rfl, hcalls⟩ hcall hexec
    obtain ⟨⟨op, c'⟩, hc, rfl⟩ := Option.map_eq_some_iff.mp ((hcalls t).trans hcall)
    have hnext : (system T pow).next ms (.step t) = some (ms.advance t op q r) := by
      simp [system, hc, show exec ms.queue c' = some (q, r) from hexec]
    refine ⟨_, hs.step trivial hnext, by cases r <;> rfl, fun k => ?_⟩
    by_cases hk : k = t
    · subst hk
      cases r <;> simp [State.advance, Waiter.afterStep]
    · cases r <;> simp [State.advance, Waiter.afterStep, hk, hcalls k]

/-! ## What the steps do to the count -/

section Accounts

variable {q q' : Queue T pow} {p c : Option (Op T × Call T)} {stored : List T} {k : Side}
  {op : Op T} {call : Call T} {r : Call T ⊕ Outcome T}

/-- The call of a side, of a queue with these values stored. -/
def At (p c : Option (Op T × Call T)) : Side → Option (Op T × Call T)
  | .producer => p
  | .consumer => c

/-- **The steps of the queue account for themselves.** -/
theorem Inv.accounts (h : Inv q p c stored) (hc : At p c k = some (op, call))
    (hstep : ExecStep q call q' r) :
    Waiter.Accounts (ops T pow) (ledger T pow) q call q' r := by
  have htail := h.tail_eq
  have hle := h.tail_le
  have hhead := h.headCache_le
  have hcache := h.tailCache_le
  cases hstep with
  | pushStoreTail t =>
    cases k with
    | producer =>
      obtain ⟨rfl, hlt, -⟩ := h.pushOk _ _ hc
      refine ⟨rfl, ?_, ?_⟩
      · show q.inner.head + 2 ^ pow - (q.inner.tail + 1) + 1
            ≤ q.inner.head + 2 ^ pow - q.inner.tail + 0
        omega
      · show q.inner.tail + 1 - q.inner.head ≤ q.inner.tail - q.inner.head + 1
        omega
    | consumer => exact (h.popOk _ _ hc).elim
  | popStoreHead pos val =>
    cases k with
    | producer => exact (h.pushOk _ _ hc).elim
    | consumer =>
      obtain ⟨-, rfl, hlt, -⟩ := h.popOk _ _ hc
      refine ⟨rfl, ?_, ?_⟩
      · show q.inner.tail - (q.inner.head + 1) + 1 ≤ q.inner.tail - q.inner.head + 0
        omega
      · show q.inner.head + 1 + 2 ^ pow - q.inner.tail ≤ q.inner.head + 2 ^ pow - q.inner.tail + 1
        omega
  | _ => exact ⟨rfl, le_rfl, le_rfl⟩

/-- **A call that gives up leaves nothing to do** for its side. -/
theorem Inv.avail_eq_zero (h : Inv q p c stored) (hc : At p c k = some (op, call)) {o : Outcome T}
    (hstep : ExecStep q call q' (.inr o)) (ho : o.retry ≠ none) :
    (ledger T pow).avail call.side q' = 0 := by
  cases hstep with
  | pushFull val t hfull =>
    cases k with
    | producer =>
      obtain ⟨-, rfl⟩ := h.pushOk _ _ hc
      show q.inner.head + 2 ^ pow - q.inner.tail = 0
      omega
    | consumer => exact (h.popOk _ _ hc).elim
  | popEmpty pos hempty =>
    cases k with
    | producer => exact (h.pushOk _ _ hc).elim
    | consumer =>
      obtain ⟨-, rfl⟩ := h.popOk _ _ hc
      show q.inner.tail - q.inner.head = 0
      omega
  | pushStoreTail t => exact absurd rfl ho
  | popStoreHead pos val => exact absurd rfl ho

end Accounts

/-! ## Two threads -/

section Wakeups

variable [DecidableEq ω] {W : Waiter.Setup ω}
  {s s' : Waiter.State ω Side (Queue T pow) (Call T) T} {a : Waiter.Action Side}

/-- What holds of the two threads: they run the queue, each on its side. -/
abbrev Runs (s : Waiter.State ω Side (Queue T pow) (Call T) T) : Prop :=
  Waiter.Runs (ops T pow) (fun t k => t = k) Sim s

theorem runs_of_reachable {vals : List T} {pops : ℕ}
    (hs : (Waiter.system (ops T pow) W (scripts vals pops)).Reachable s) : Runs s := by
  refine Waiter.runs_of_reachable closed_ops sided_ops (fun t op hop => ?_) hs
  cases t with
  | producer =>
    obtain ⟨val, -, rfl⟩ := List.mem_map.mp hop
    rfl
  | consumer =>
    obtain rfl := List.eq_of_mem_replicate hop
    rfl

omit [DecidableEq ω] in
/-- The invariant of the queue, for the call of a thread. -/
theorem exists_inv (h : Runs s) {t : Side} {c : Call T} (hc : (s.pc t).call = some c) :
    ∃ p c' stored op, Inv s.queue p c' stored ∧ At p c' t = some (op, c) := by
  obtain ⟨ms, hms, hqueue, hcalls⟩ := h.rel
  obtain ⟨⟨op, c'⟩, hcall, rfl⟩ := Option.map_eq_some_iff.mp ((hcalls t).trans hc)
  obtain ⟨stored, -, hinv⟩ := holds_of_reachable hms
  exact ⟨_, _, stored, op, hqueue ▸ hinv, by cases t <;> exact hcall⟩

/-- No thread is noted: every failed retry leaves nothing to do. -/
abbrev unnoted : Side → Bool := fun _ => false

omit [DecidableEq ω] in
/-- A failed retry leaves nothing to do. -/
theorem settled (h : Runs s) :
    Waiter.Settled (ops T pow) (ledger T pow) W unnoted s a unnoted where
  noted t spurious _ prev c q o hpc hexec ho _ _ := by
    have hc : (s.pc t).call = some c := by rw [hpc]; rfl
    obtain ⟨p, c', stored, op, hinv, hcall⟩ := exists_inv h hc
    exact hinv.avail_eq_zero hcall (execStep_of_exec hexec) ho
  kept _ _ := rfl

omit [DecidableEq ω] in
theorem wakeful : Waiter.Wakeful W unnoted s a := by
  cases a with
  | step t spurious => exact fun _ => rfl
  | _ => trivial

/-- **A notification wakes the right thread**: there is only one other. -/
theorem rightWake (h : Runs s) (hstep : Waiter.Step (ops T pow) W s a s') :
    Waiter.RightWake s a := by
  cases hstep with
  | notifySome t t' o prev op hpc hpc' hwaiter =>
    intro k hk _
    rw [hpc] at hk
    obtain rfl := Option.some.inj hk
    obtain rfl : t = o.side := h.may_side (by rw [hpc]; rfl)
    obtain rfl : t' = op.side := h.may_side (by rw [hpc']; rfl)
    rw [hpc']
    refine congrArg some ((op.side.eq_or_eq_other o.side).resolve_left fun heq => ?_)
    rw [heq, hpc] at hpc'
    cases hpc'
  | _ => trivial

/-- **The count holds at any time.** -/
theorem count_of_reachable (hW : ∀ k, W.notifier k = W.waiter k.other) {vals : List T} {pops : ℕ}
    (hs : (Waiter.system (ops T pow) W (scripts vals pops)).Reachable s) :
    Waiter.Inv (ops T pow) (ledger T pow) W unnoted s := by
  refine hs.invariant (Waiter.inv_init _) fun s a s' hreach h _ hnext => ?_
  have hruns := runs_of_reachable hreach
  have hstep := Waiter.step_of_next hnext
  refine h.step starts_ops hW (fun t c spurious q r hc hexec => ?_) (settled hruns) wakeful
    (rightWake hruns hstep) hstep
  obtain ⟨p, c', stored, op, hinv, hcall⟩ := exists_inv hruns hc
  exact hinv.accounts hcall (execStep_of_exec hexec)

/-! ## No wakeup is lost -/

omit [DecidableEq ω] in
/-- **Who helps a side is on it**, or notifies. -/
theorem helps_other_eq_zero (h : Runs s) {k : Side} (hnot : ∀ o, s.pc k.other ≠ .notifying o) :
    (s.pc k.other).helps (ops T pow) (ledger T pow) W false s.epoch k = 0 := by
  have hside : ∀ k', (s.pc k.other).side (ops T pow) = some k' → k' ≠ k := fun k' hk' heq =>
    k.ne_other (heq ▸ (h.may_side hk').symm)
  cases hpc : s.pc k.other with
  | idle | blocked prev op => rfl
  | spinning backoff c | retrying prev c =>
    exact if_neg (hside _ (by rw [hpc]; rfl))
  | reading op => exact if_neg (hside _ (by rw [hpc]; rfl))
  | checking prev op => exact if_neg fun hk => hside _ (by rw [hpc]; rfl) hk.1
  | notifying o => exact absurd hpc (hnot o)

omit [DecidableEq ω] in
/-- **A blocked thread has nothing to do**, unless the other one is about to
notify. -/
theorem avail_eq_zero_of_blocked (h : Runs s)
    (hcount : Waiter.Inv (ops T pow) (ledger T pow) W unnoted s) {k : Side} {prev : ℕ} {op : Op T}
    (hblocked : s.pc k = .blocked prev op) (hnot : ∀ o, s.pc k.other ≠ .notifying o) :
    (ledger T pow).avail k s.queue = 0 := by
  have hk : k = op.side := h.may_side (by rw [hblocked]; rfl)
  have hasleep : (s.pc k).Asleep W false s.epoch k := by
    rw [hblocked]
    exact hk.symm
  have hzero : Waiter.helpers (ops T pow) (ledger T pow) W unnoted s k = 0 := by
    refine Finset.sum_eq_zero fun t _ => ?_
    rcases t.eq_or_eq_other k with rfl | rfl
    · rw [hblocked]
      rfl
    · exact helps_other_eq_zero h hnot
  exact Nat.le_zero.mp (hzero ▸ hcount.enough k ⟨k, hasleep⟩)

omit [DecidableEq ω] in
/-- **While a thread is blocked and has something to do**, the other one has
succeeded and is about to notify. -/
theorem exists_notifying (h : Runs s) (hcount : Waiter.Inv (ops T pow) (ledger T pow) W unnoted s)
    {k : Side}
    {prev : ℕ} {op : Op T} (hblocked : s.pc k = .blocked prev op)
    (havail : (ledger T pow).avail k s.queue ≠ 0) :
    ∃ o, s.pc k.other = .notifying o ∧ o.side = k.other ∧ o.retry = none := by
  by_contra hnot
  refine havail (avail_eq_zero_of_blocked h hcount hblocked fun o ho => hnot ⟨o, ho, ?_, ?_⟩)
  · exact (h.may_side (by rw [ho]; rfl)).symm
  · exact (h.ok k.other).success o ho

/-- **No wakeup is lost**, at this moment. -/
structure NoLostWakeup (s : Waiter.State ω Side (Queue T pow) (Call T) T) : Prop where
  /-- While the consumer is blocked and the queue is not empty, the producer has
  stored the tail and has not finished its notification. -/
  consumer : ∀ prev op, s.pc .consumer = .blocked prev op →
    s.queue.inner.head ≠ s.queue.inner.tail → s.pc .producer = .notifying .pushed
  /-- While the producer is blocked and the queue is not full, the consumer has
  stored the head and has not finished its notification. -/
  producer : ∀ prev op, s.pc .producer = .blocked prev op →
    s.queue.inner.tail ≠ s.queue.inner.head + 2 ^ pow →
    ∃ val, s.pc .consumer = .notifying (.popped val)
  /-- The two are not blocked at once. -/
  both : ¬ ((∃ prev op, s.pc .producer = .blocked prev op)
    ∧ ∃ prev op, s.pc .consumer = .blocked prev op)

omit [DecidableEq ω] in
/-- **The count excludes a lost wakeup.** -/
theorem noLostWakeup_of_count (h : Runs s)
    (hcount : Waiter.Inv (ops T pow) (ledger T pow) W unnoted s) : NoLostWakeup s := by
  obtain ⟨ms, hms, hqueue, -⟩ := h.rel
  obtain ⟨stored, -, hinv⟩ := holds_of_reachable hms
  rw [hqueue] at hinv
  have htail := hinv.tail_eq
  have hle := hinv.tail_le
  have hhead := hinv.headCache_le
  have hlen := Nat.two_pow_pos pow
  refine ⟨fun prev op hblocked hne => ?_, fun prev op hblocked hne => ?_, ?_⟩
  · have havail : (ledger T pow).avail .consumer s.queue ≠ 0 := by
      show s.queue.inner.tail - s.queue.inner.head ≠ 0
      omega
    obtain ⟨o, ho, hside, hsuccess⟩ := exists_notifying h hcount hblocked havail
    cases o with
    | pushed => exact ho
    | full val => cases hsuccess
    | popped val | empty => cases hside
  · have havail : (ledger T pow).avail .producer s.queue ≠ 0 := by
      show s.queue.inner.head + 2 ^ pow - s.queue.inner.tail ≠ 0
      omega
    obtain ⟨o, ho, hside, hsuccess⟩ := exists_notifying h hcount hblocked havail
    cases o with
    | popped val => exact ⟨val, ho⟩
    | empty => cases hsuccess
    | pushed | full val => cases hside
  · rintro ⟨⟨prev, op, hproducer⟩, prev', op', hconsumer⟩
    have hempty : s.queue.inner.tail - s.queue.inner.head = 0 :=
      avail_eq_zero_of_blocked h hcount (k := .consumer) hconsumer fun o ho => by
        cases hproducer.symm.trans ho
    have hfull : s.queue.inner.head + 2 ^ pow - s.queue.inner.tail = 0 :=
      avail_eq_zero_of_blocked h hcount (k := .producer) hproducer fun o ho => by
        cases hconsumer.symm.trans ho
    omega

end Wakeups

/-- **No wakeup is lost** with one producer and one consumer, on any capacity,
with one object a side or one for both. -/
theorem noLostWakeup_of_reachable (vals : List T) (pops : ℕ) :
    (∀ s, (Waiter.system (ops T pow) .separate (scripts vals pops)).Reachable s → NoLostWakeup s)
    ∧ ∀ s, (Waiter.system (ops T pow) .shared (scripts vals pops)).Reachable s → NoLostWakeup s :=
  ⟨fun _ hs => noLostWakeup_of_count (runs_of_reachable hs)
      (count_of_reachable (fun k => by cases k <;> rfl) hs),
    fun _ hs => noLostWakeup_of_count (runs_of_reachable hs) (count_of_reachable (fun _ => rfl) hs)⟩

open Waiter (steps)

/-- The consumer blocks on the one object, and the producer is about to notify;
on one object a side, the producer of a second value blocks on the first. -/
theorem noLostWakeup_of_reachable_one :
    (∃ s, (Waiter.system (ops ℕ 0) .shared (scripts [7] 1)).run
          (Waiter.system (ops ℕ 0) .shared (scripts [7] 1)).init
          (steps .consumer 21 ++ steps .producer 4) = some s
        ∧ s.pc .consumer = .blocked 0 .pop ∧ NoLostWakeup s)
    ∧ ∃ s, (Waiter.system (ops ℕ 0) .separate (scripts [7, 8] 0)).run
          (Waiter.system (ops ℕ 0) .separate (scripts [7, 8] 0)).init
          (steps .producer 4 ++ [.notify .producer none] ++ steps .producer 21) = some s
        ∧ s.pc .producer = .blocked 0 (.push 8) ∧ NoLostWakeup s := by
  have hrun : ((Waiter.system (ops ℕ 0) .shared (scripts [7] 1)).run
      (Waiter.system (ops ℕ 0) .shared (scripts [7] 1)).init
      (steps .consumer 21 ++ steps .producer 4)).map (fun s => s.pc .consumer)
      = some (.blocked 0 .pop) := rfl
  have hrun' : ((Waiter.system (ops ℕ 0) .separate (scripts [7, 8] 0)).run
      (Waiter.system (ops ℕ 0) .separate (scripts [7, 8] 0)).init
      (steps .producer 4 ++ [.notify .producer none] ++ steps .producer 21)).map
        (fun s => s.pc .producer)
      = some (.blocked 0 (.push 8)) := rfl
  obtain ⟨s, hs, hpc⟩ := Option.map_eq_some_iff.mp hrun
  obtain ⟨s', hs', hpc'⟩ := Option.map_eq_some_iff.mp hrun'
  exact ⟨⟨s, hs, hpc, (noLostWakeup_of_reachable [7] 1).2 s (System.Reachable.of_run hs)⟩,
    s', hs', hpc', (noLostWakeup_of_reachable [7, 8] 0).1 s' (System.Reachable.of_run hs')⟩

end Spsc
