import Algors.Queue.MpmcSafety
import Algors.Waiter.Calls
import Mathlib.Data.Finset.Card
import Mathlib.Order.Interval.Finset.Nat
import Mathlib.Tactic.FinCases

/-!
# One `BlockingWait` for each side of the queue

The consumers wait on one object and notify the other, which the producers wait
on, so a notification always wakes a thread of the right side; and the
operations are those of the multi-producer multi-consumer queue, step by step.
What there is to do for the consumers are the published positions, and for the
producers the free ones.

These need not be in order. A consumer that finds the head unpublished gives
up, although later positions may be published: their producers have notified
already, and the consumer that was woken for one of them may go back to sleep
on the head. It was overtaken, and no wakeup is lost as long as no overtaken
thread blocks: as long as a retry that fails finds no position published, or
free, or a notification comes before the thread has compared the epoch.
-/

open Fifo (Op Outcome Side)

namespace Mpmc

variable {T τ : Type} {pow : ℕ} {w : Width pow}

open Call

/-- The side a call is of. -/
def Call.side : Call T → Side
  | pushLoadTail _ | pushLoadSeq _ _ | pushCas _ _ | pushWrite _ _ | pushStoreSeq _ => .producer
  | popLoadHead | popLoadSeq _ | popCas _ | popRead _ | popStoreSeq _ _ => .consumer

/-- **The operations of the queue.** -/
def ops (T : Type) (w : Width pow) : Waiter.Operations (Inner T pow) (Call T) T where
  init := .empty pow
  start := invoke
  side := Call.side
  step := exec w

/-! ## The calls of waiting threads are calls of the queue -/

section Simulation

variable {ω : Type} [DecidableEq τ] {W : Waiter.Setup ω}

/-- A state of the queue with its threads that has the queue and the calls of a
state of waiting threads. -/
def Sim (w : Width pow) (ms : State τ T pow) (s : Waiter.State ω τ (Inner T pow) (Call T) T) :
    Prop :=
  (system τ T w).Reachable ms ∧ ms.inner = s.queue ∧ ∀ t, ms.call t = (s.pc t).call

/-- The steps of a call stay on its side. -/
theorem sided_ops : Waiter.Sided (ops T w) where
  start op := by cases op <;> rfl
  step q spurious c q' r hexec := by cases execStep_of_exec hexec <;> rfl

/-- **The system of calls is kept by calls**: that is what a run of it is. -/
theorem closed_ops : Waiter.Closed (ops T w) (fun (_ : τ) _ => True) fun q calls =>
    ∃ ms : State τ T pow, (system τ T w).Reachable ms ∧ ms.inner = q ∧ ms.call = calls where
  init := ⟨_, .init, rfl, rfl⟩
  start := by
    rintro _ _ t op ⟨ms, hs, rfl, rfl⟩ hnone -
    have hnext : (system τ T w).next ms (t, .call op) = some
        { ms with
          call := Function.update ms.call t (some (invoke op))
          history := (t, .called op) :: ms.history } := by
      simp [system, hnone]
    exact ⟨_, hs.step trivial hnext, rfl, rfl⟩
  step := by
    rintro _ _ t c spurious q r ⟨ms, hs, rfl, rfl⟩ hcall hexec
    have hnext : (system τ T w).next ms (t, .step spurious) = some (ms.advance t c q r) := by
      simp [system, hcall, show exec w ms.inner spurious c = some (q, r) from hexec]
    exact ⟨_, hs.step trivial hnext, rfl, rfl⟩

/-- **Waiting threads run the queue**: what holds of the queue with any threads
holds of it with waiting ones. -/
theorem exists_sim [DecidableEq ω] [Fintype τ] {scripts : τ → List (Op T)}
    {s : Waiter.State ω τ (Inner T pow) (Call T) T}
    (hs : (Waiter.system (ops T w) W scripts).Reachable s) :
    ∃ ms : State τ T pow, Sim w ms s := by
  obtain ⟨ms, hms, hinner, hcall⟩ :=
    (Waiter.runs_of_reachable closed_ops sided_ops (fun _ _ _ => trivial) hs).rel
  exact ⟨ms, hms, hinner, fun t => congrFun hcall t⟩

end Simulation

/-! ## What there is to do -/

/-- **The published positions**, the work of the consumers. -/
def published (q : Inner T pow) : Finset ℕ :=
  {pos ∈ Finset.Ico q.head q.tail | (q.slot pos).seq = pos + 1}

/-- **The free positions**, the work of the producers. -/
def freed (q : Inner T pow) : Finset ℕ :=
  {pos ∈ Finset.Ico q.tail (q.head + 2 ^ pow) | (q.slot pos).seq = pos}

/-- Each side's work, which a call has taken over once it claimed a position. -/
def ledger (T : Type) (pow : ℕ) : Waiter.Ledger (Inner T pow) (Call T) where
  avail
    | .consumer, q => (published q).card
    | .producer, q => (freed q).card
  claimed c := c.accesses.isSome

theorem mem_published {q : Inner T pow} {pos : ℕ} : pos ∈ published q
    ↔ (q.head ≤ pos ∧ pos < q.tail) ∧ (q.slot pos).seq = pos + 1 := by
  simp [published]

theorem mem_freed {q : Inner T pow} {pos : ℕ} : pos ∈ freed q
    ↔ (q.tail ≤ pos ∧ pos < q.head + 2 ^ pow) ∧ (q.slot pos).seq = pos := by
  simp [freed]

theorem starts_ops : Waiter.Starts (ops T w) (ledger T pow) where
  side := sided_ops.start
  unclaimed op := by cases op <;> rfl

section Accounts

variable {q : Inner T pow}

/-- Claiming the tail takes a free position and publishes none. -/
theorem card_claimTail (hseq : (q.slot q.tail).seq = q.tail) (hlt : q.tail < q.head + 2 ^ pow) :
    (published { q with tail := q.tail + 1 }).card ≤ (published q).card
      ∧ (freed { q with tail := q.tail + 1 }).card + 1 ≤ (freed q).card := by
  constructor
  · refine Finset.card_le_card fun pos hpos => ?_
    obtain ⟨⟨hle, hlt'⟩, hpub⟩ := mem_published.mp hpos
    refine mem_published.mpr ⟨⟨hle, Nat.lt_of_le_of_ne (Nat.le_of_lt_succ hlt') ?_⟩, hpub⟩
    rintro rfl
    rw [show (Inner.slot { q with tail := q.tail + 1 } q.tail).seq = (q.slot q.tail).seq from rfl,
      hseq] at hpub
    omega
  · have hmem : q.tail ∉ freed { q with tail := q.tail + 1 } := fun hpos =>
      absurd (mem_freed.mp hpos).1.1 (Nat.not_succ_le_self _)
    rw [← Finset.card_insert_of_notMem hmem]
    refine Finset.card_le_card (Finset.insert_subset (mem_freed.mpr ⟨⟨le_rfl, hlt⟩, hseq⟩) ?_)
    intro pos hpos
    obtain ⟨⟨hle, hlt'⟩, hfree⟩ := mem_freed.mp hpos
    exact mem_freed.mpr ⟨⟨Nat.le_of_succ_le hle, hlt'⟩, hfree⟩

/-- Claiming the head takes a published position and frees none. -/
theorem card_claimHead (hpow : 1 ≤ pow) (hseq : (q.slot q.head).seq = q.head + 1)
    (hlt : q.head < q.tail) :
    (published { q with head := q.head + 1 }).card + 1 ≤ (published q).card
      ∧ (freed { q with head := q.head + 1 }).card ≤ (freed q).card := by
  have hlen : 2 ≤ 2 ^ pow := Nat.le_self_pow (by omega) 2
  constructor
  · have hmem : q.head ∉ published { q with head := q.head + 1 } := fun hpos =>
      absurd (mem_published.mp hpos).1.1 (Nat.not_succ_le_self _)
    rw [← Finset.card_insert_of_notMem hmem]
    refine Finset.card_le_card (Finset.insert_subset (mem_published.mpr ⟨⟨le_rfl, hlt⟩, hseq⟩) ?_)
    intro pos hpos
    obtain ⟨⟨hle, hlt'⟩, hpub⟩ := mem_published.mp hpos
    exact mem_published.mpr ⟨⟨Nat.le_of_succ_le hle, hlt'⟩, hpub⟩
  · refine Finset.card_le_card fun pos hpos => ?_
    obtain ⟨⟨hle, hlt'⟩, hfree⟩ := mem_freed.mp hpos
    dsimp only at hlt'
    refine mem_freed.mpr ⟨⟨hle, ?_⟩, hfree⟩
    by_contra hge
    -- the position that enters the window is that of the claimed slot
    obtain rfl : pos = q.head + 2 ^ pow := by omega
    rw [slot_add_len] at hfree
    change (q.slot q.head).seq = _ at hfree
    omega

/-- A write or a read of a value publishes and frees nothing. -/
theorem card_setData (pos : ℕ) (data : Option T) :
    published (q.setSlot pos { q.slot pos with data }) = published q
      ∧ freed (q.setSlot pos { q.slot pos with data }) = freed q := by
  have hseq : ∀ pos', ((q.setSlot pos { q.slot pos with data }).slot pos').seq
      = (q.slot pos').seq := by
    intro pos'
    by_cases hmask : (mask pos' : Fin (2 ^ pow)) = mask pos
    · simp [Inner.slot, Inner.setSlot, Ring.get, Ring.set, hmask]
    · rw [Inner.slot_setSlot_of_ne _ _ hmask]
  constructor
  · ext pos'
    rw [mem_published, mem_published, hseq]
    rfl
  · ext pos'
    rw [mem_freed, mem_freed, hseq]
    rfl

/-- A store to the slot of a position of the window publishes or frees that
position at most. -/
theorem subset_setSlot {pos : ℕ} (hhead : q.head ≤ q.tail) (htail : q.tail ≤ q.head + 2 ^ pow)
    (hpos : q.head ≤ pos ∧ pos < q.head + 2 ^ pow) (slot : Slot T) :
    (∀ pos' ∈ published (q.setSlot pos slot), pos' ≠ pos → pos' ∈ published q)
      ∧ ∀ pos' ∈ freed (q.setSlot pos slot), pos' ≠ pos → pos' ∈ freed q := by
  constructor
  · intro pos' hmem hne
    obtain ⟨⟨hle, hlt⟩, hpub⟩ := mem_published.mp hmem
    rw [Inner.slot_setSlot_of_ne _ _ (Ring.mask_ne_of_window ⟨hle, hlt.trans_le htail⟩
      hpos hne)] at hpub
    exact mem_published.mpr ⟨⟨hle, hlt⟩, hpub⟩
  · intro pos' hmem hne
    obtain ⟨⟨hle, hlt⟩, hfree⟩ := mem_freed.mp hmem
    rw [Inner.slot_setSlot_of_ne _ _ (Ring.mask_ne_of_window ⟨hhead.trans hle, hlt⟩
      hpos hne)] at hfree
    exact mem_freed.mpr ⟨⟨hle, hlt⟩, hfree⟩

/-- A finset in which all but one member are members of another has one more
member at most. -/
theorem card_le_succ {a b : Finset ℕ} {pos : ℕ} (h : ∀ pos' ∈ a, pos' ≠ pos → pos' ∈ b) :
    a.card ≤ b.card + 1 := by
  refine (Finset.card_le_card (t := insert pos b) fun pos' hmem => ?_).trans
    (Finset.card_insert_le pos b)
  by_cases hne : pos' = pos
  · exact hne ▸ Finset.mem_insert_self pos b
  · exact Finset.mem_insert_of_mem (h pos' hmem hne)

/-- **The steps of the queue account for themselves.** -/
theorem accounts_exec {ms : State τ T pow} (h : Inv ms) (hpow : 1 ≤ pow) {t : τ} {c : Call T}
    (hc : ms.call t = some c) {q : Inner T pow} {r : Call T ⊕ Outcome T}
    (hstep : ExecStep w ms.inner c q r) :
    Waiter.Accounts (ops T w) (ledger T pow) ms.inner c q r := by
  have hok := h.callOk t c hc
  cases hstep with
  | pushClaim val =>
    have hseq := hok.2 rfl
    obtain ⟨hpublished, hfreed⟩ := card_claimTail hseq (h.tail_free hpow hseq).1
    exact ⟨rfl, hfreed, hpublished⟩
  | pushWrite val idx =>
    obtain ⟨hpublished, hfreed⟩ := card_setData (q := ms.inner) idx (some val)
    exact ⟨rfl, (congrArg Finset.card hfreed).le, (congrArg Finset.card hpublished).le⟩
  | pushStoreSeq idx =>
    have hwin := hok.window h.head_le h.tail_le rfl
    obtain ⟨hpublished, hfreed⟩ := subset_setSlot h.head_le h.tail_le hwin
      { ms.inner.slot idx with seq := idx + 1 }
    refine ⟨rfl, Finset.card_le_card fun pos hmem => hfreed pos hmem ?_, card_le_succ hpublished⟩
    rintro rfl
    exact absurd (mem_freed.mp hmem).1.1 (Nat.not_le.mpr hok.2.1)
  | popClaim =>
    have hseq := hok.2 rfl
    exact ⟨rfl, (card_claimHead hpow hseq (h.head_published hseq).1).1,
      (card_claimHead hpow hseq (h.head_published hseq).1).2⟩
  | popRead idx data hdata =>
    obtain ⟨hpublished, hfreed⟩ := card_setData (q := ms.inner) idx none
    exact ⟨rfl, (congrArg Finset.card hpublished).le, (congrArg Finset.card hfreed).le⟩
  | popStoreSeq idx data =>
    have hwin := hok.window h.head_le h.tail_le rfl
    obtain ⟨hpublished, hfreed⟩ := subset_setSlot h.head_le h.tail_le hwin
      { ms.inner.slot idx with seq := idx + 2 ^ pow }
    rw [setSlot_add_len] at hpublished hfreed
    refine ⟨rfl, Finset.card_le_card fun pos hmem => hpublished pos hmem ?_, card_le_succ hfreed⟩
    rintro rfl
    exact absurd (mem_published.mp hmem).1.2 (Nat.not_lt.mpr hok.2.1)
  | _ => exact ⟨rfl, le_rfl, le_rfl⟩

end Accounts

/-! ## No wakeup is lost -/

section Wakeups

variable {s : Waiter.State Side τ (Inner T pow) (Call T) T}

/-- **What a waiting thread waits for**: the head is published, or the tail is
free. -/
def Ready (q : Inner T pow) : Op T → Prop
  | .pop => (q.slot q.head).seq = q.head + 1
  | .push _ => (q.slot q.tail).seq = q.tail

/-- **The side of a thread that is about to give up and block on it**: it has
read the epoch, which is still the same, and finds the head unpublished, or the
tail taken. -/
def givesUp (w : Width pow) (q : Inner T pow) (epoch : Side → ℕ) :
    Waiter.Pc (Call T) T → Option Side
  | .retrying prev (popLoadSeq idx) =>
    if epoch .consumer = prev ∧ w.diff (q.slot idx).seq (idx + 1) < 0 then some .consumer
    else none
  | .retrying prev (pushLoadSeq _ idx) =>
    if epoch .producer = prev ∧ w.diff (q.slot idx).seq idx < 0 then some .producer else none
  | _ => none

/-- **A thread is overtaken**: it is about to give up and block, although there
is something for its side further on, a position published, for a consumer, or
free, for a producer. -/
def Overtaken (w : Width pow) (s : Waiter.State Side τ (Inner T pow) (Call T) T) (t : τ) : Prop :=
  ∃ k, givesUp w s.queue s.epoch (s.pc t) = some k ∧ (ledger T pow).avail k s.queue ≠ 0

instance (w : Width pow) (s : Waiter.State Side τ (Inner T pow) (Call T) T) (t : τ) :
    Decidable (Overtaken w s t) :=
  inferInstanceAs (Decidable (∃ _, _))

variable [DecidableEq τ]

/-- Note of the thread that takes a step whether it is overtaken in it. -/
def noteOvertaken (w : Width pow) (s : Waiter.State Side τ (Inner T pow) (Call T) T) :
    Waiter.Action τ → (τ → Bool) → τ → Bool
  | .step t _, note => Function.update note t (decide (Overtaken w s t))
  | .notify _ _, note | .wakeup _, note => note

/-- The blocking calls, with a note of who was overtaken in its last step. -/
def noted (T : Type) (w : Width pow) (scripts : τ → List (Op T)) [Fintype τ] :
    System (Waiter.State Side τ (Inner T pow) (Call T) T × (τ → Bool)) (Waiter.Action τ) :=
  (Waiter.system (ops T w) .separate scripts).annotate (fun _ => false) (noteOvertaken w)

/-- **No overtaken thread blocks**: the epoch it compares is not the one it has
read any more, so that it tries again. -/
abbrev Orderly (p : Waiter.State Side τ (Inner T pow) (Call T) T × (τ → Bool)) :
    Waiter.Action τ → Prop :=
  Waiter.Wakeful .separate p.2 p.1

/-- A failure on which a thread may block leaves nothing to do, or it is noted
that it did. -/
theorem settled_noteOvertaken (s : Waiter.State Side τ (Inner T pow) (Call T) T)
    (a : Waiter.Action τ) (note : τ → Bool) :
    Waiter.Settled (ops T w) (ledger T pow) .separate note s a (noteOvertaken w s a note) where
  noted t spurious ha prev c q o hpc hexec hretry hprev hnote := by
    subst ha
    simp only [noteOvertaken, Function.update_self, decide_eq_false_iff_not] at hnote
    have hzero : ∀ k, givesUp w s.queue s.epoch (s.pc t) = some k →
        (ledger T pow).avail k s.queue = 0 := fun k hk =>
      not_not.mp fun hne => hnote ⟨k, hk, hne⟩
    cases execStep_of_exec hexec with
    | pushFull val idx hseq =>
      exact hzero .producer (by rw [hpc]; exact if_pos ⟨hprev, hseq⟩)
    | popEmpty idx hseq =>
      exact hzero .consumer (by rw [hpc]; exact if_pos ⟨hprev, hseq⟩)
    | pushStoreSeq idx => exact absurd rfl hretry
    | popStoreSeq idx data => exact absurd rfl hretry
  kept x hx := by
    cases a with
    | step t spurious =>
      have hne : x ≠ t := fun heq => hx spurious (heq ▸ rfl)
      simp [noteOvertaken, hne]
    | _ => rfl

/-- Each object has waiting threads of one side only. -/
theorem rightWake_separate {a : Waiter.Action τ}
    {s' : Waiter.State Side τ (Inner T pow) (Call T) T}
    (h : Waiter.Step (ops T w) .separate s a s') : Waiter.RightWake s a := by
  cases h with
  | notifySome t t' o prev op hpc hpc' hwaiter =>
    intro k hk _
    rw [hpc] at hk
    obtain rfl := Option.some.inj hk
    rw [hpc']
    exact congrArg some hwaiter
  | _ => trivial

omit [DecidableEq τ] in
/-- What is ready is there to be done. -/
theorem avail_pos_of_ready {ms : State τ T pow} (h : Inv ms) (hpow : 1 ≤ pow) {op : Op T}
    (hready : Ready ms.inner op) : 0 < (ledger T pow).avail op.side ms.inner := by
  cases op with
  | push val =>
    exact Finset.card_pos.mpr
      ⟨_, mem_freed.mpr ⟨⟨le_rfl, (h.tail_free hpow hready).1⟩, hready⟩⟩
  | pop =>
    exact Finset.card_pos.mpr
      ⟨_, mem_published.mpr ⟨⟨le_rfl, (h.head_published hready).1⟩, hready⟩⟩

variable [Fintype τ]

/-- **No wakeup is lost with one object a side**, for any threads making any
calls, in any order of steps in which no thread blocks that was overtaken: that
gave up, with the epoch as it had read it, while there was something for its side
further on. -/
theorem not_lostWakeup_of_orderly (hpow : 1 ≤ pow) (scripts : τ → List (Op T))
    {p : Waiter.State Side τ (Inner T pow) (Call T) T × (τ → Bool)}
    (hp : (noted T w scripts).ReachableWhile Orderly p) : ¬ Waiter.LostWakeup Ready p.1 := by
  have hinv : Waiter.Inv (ops T w) (ledger T pow) .separate p.2 p.1 := by
    refine hp.invariant (I := fun p => Waiter.Inv (ops T w) (ledger T pow) .separate p.2 p.1)
      (Waiter.inv_init scripts) fun p a p' hreach h horderly hnext => ?_
    obtain ⟨hnext, hnote⟩ := System.annotate_next_eq_some.mp hnext
    have hstep := Waiter.step_of_next hnext
    obtain ⟨ms, hms, hqueue, hcall⟩ := exists_sim hreach.of_annotate
    rw [hnote]
    refine h.step starts_ops (fun k => by cases k <;> rfl) (fun t c spurious q r hc hexec => ?_)
      (settled_noteOvertaken _ _ _) horderly (rightWake_separate hstep) hstep
    rw [← hqueue] at hexec ⊢
    exact accounts_exec (inv_of_reachable hpow hms) hpow ((hcall t).trans hc)
      (execStep_of_exec hexec)
  obtain ⟨ms, hms, hqueue, _⟩ := exists_sim hp.of_annotate
  refine hinv.not_lostWakeup fun op hready => ?_
  rw [← hqueue] at hready ⊢
  exact avail_pos_of_ready (inv_of_reachable hpow hms) hpow hready

end Wakeups

open Waiter (steps)

/-- Two producers and two consumers of one value each. -/
def twoScripts (t : Fin 4) : List (Op ℕ) :=
  if t.val = 0 then [.push 7] else if t.val = 1 then [.push 8] else [.pop]

/-- The consumers block; the slow producer claims its position and is overtaken by
the fast one, whose notification wakes a consumer. It finds the head unpublished,
also after it has read the epoch. -/
def overtakes {τ : Type} (slow fast woken waiting : τ) : List (Waiter.Action τ) :=
  steps woken 21 ++ steps waiting 21 ++ steps slow 4
    ++ steps fast 6 ++ [.notify fast (some woken)] ++ steps woken 20

/-- Before the overtaken consumer compares the epoch, the slow producer publishes
and wakes the other one; both consumers then pop. -/
def caughtUp {τ : Type} (slow fast woken waiting : τ) : List (Waiter.Action τ) :=
  overtakes slow fast woken waiting ++ steps slow 2 ++ [.notify slow (some waiting)]
    ++ steps woken 6 ++ [.notify woken none] ++ steps waiting 6 ++ [.notify waiting none]

set_option maxRecDepth 2000 in
/-- The overtaken consumer does not block. -/
theorem not_lostWakeup_of_orderly_overtaken :
    ∃ p, (noted ℕ .twoSlots twoScripts).run (noted ℕ .twoSlots twoScripts).init
        (caughtUp 0 1 2 3) = some p
      ∧ p.1.queue.head = 2 ∧ ¬ Waiter.LostWakeup Ready p.1 := by
  have hmeets : (noted ℕ .twoSlots twoScripts).RunMeets Orderly
      (noted ℕ .twoSlots twoScripts).init (caughtUp 0 1 2 3) := by decide
  have hrun : ((noted ℕ .twoSlots twoScripts).run (noted ℕ .twoSlots twoScripts).init
      (caughtUp 0 1 2 3)).map (fun p => p.1.queue.head) = some 2 := rfl
  obtain ⟨p, hp, hhead⟩ := Option.map_eq_some_iff.mp hrun
  exact ⟨p, hp, hhead, not_lostWakeup_of_orderly le_rfl _ (.of_run .init hmeets hp)⟩

/-- Here the overtaken consumer blocks again before the slow producer publishes, and
the notification then wakes the same consumer. -/
def overtaken {τ : Type} (slow fast woken waiting : τ) : List (Waiter.Action τ) :=
  overtakes slow fast woken waiting ++ steps woken 1
    ++ steps slow 2 ++ [.notify slow (some woken)] ++ steps woken 6 ++ [.notify woken none]

/-- **A wakeup is lost**: the last consumer is blocked with the head
published. -/
theorem exists_lostWakeup_separate :
    ∃ s, (Waiter.system (ops ℕ .twoSlots) .separate twoScripts).Reachable s
      ∧ Waiter.LostWakeup Ready s := by
  have hrun : ((Waiter.system (ops ℕ .twoSlots) .separate twoScripts).run
      (Waiter.system (ops ℕ .twoSlots) .separate twoScripts).init (overtaken 0 1 2 3)).map
        (fun s => ((s.pc 0, s.script 0), (s.pc 1, s.script 1), (s.pc 2, s.script 2), s.pc 3,
          (s.queue.slot s.queue.head).seq, s.queue.head))
      = some ((.idle, []), (.idle, []), (.idle, []), .blocked 0 .pop, 2, 1) := rfl
  obtain ⟨s, hs, heq⟩ := Option.map_eq_some_iff.mp hrun
  simp only [Prod.mk.injEq] at heq
  obtain ⟨h₀, h₁, h₂, h₃, hseq, hhead⟩ := heq
  refine ⟨s, System.Reachable.of_run hs, fun t => ?_, 3, 0, .pop, h₃, ?_⟩
  · fin_cases t
    · exact Or.inl h₀
    · exact Or.inl h₁
    · exact Or.inl h₂
    · exact Or.inr ⟨_, _, h₃⟩
  · exact hseq.trans (by rw [hhead])

end Mpmc
