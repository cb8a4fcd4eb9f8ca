import Algors.Queue.MpmcFifo
import Algors.Queue.MpmcOrder

/-!
# Why a call gives up, and why it tries again

A call decides on one sequence number, read from the slot of an index that may
be stale. What it decides is nevertheless a fact about the queue at that
moment. A sequence number below the index is found only at the tail, or at the
head, and there it tells that the position is not free, or not published; and
a number above the index, like a compare-exchange that fails for the counter's
value, tells that the counter has moved on.

Below the window this rests on how far the numbers have come: a position below
the head shares its slot with one of the window, a lap or more further, and
even while a consumer holds that, the number is past the position below.

The counters move by claims only, and a thread's own claims are below the
index in its hand. So an index that is stale was claimed by another thread,
after it was loaded.

The numbers are words, and one that is half their range ahead of the index
looks like one below it. A call that is left so far behind gives up whatever
the queue holds; `Lags` is that case, and the outcomes are justified exactly
where no call is in it.
-/

namespace Mpmc

variable {T τ : Type} {pow : ℕ} {w : Width pow}

open Call
open Fifo (Op Outcome Side)

/-! ## What a sequence number tells -/

namespace Inv

variable {s : State τ T pow} (h : Inv s)

include h

/-- **The sequence number of a position of the window**: that of a position
being written, published, being read or free. -/
theorem seq_cases {pos : ℕ} (hle : s.inner.head ≤ pos) (hlt : pos < s.inner.head + 2 ^ pow) :
    (pos < s.inner.tail ∧ (s.inner.slot pos).seq = pos ∧ ∃ t, s.Writing t pos)
      ∨ (pos < s.inner.tail ∧ (s.inner.slot pos).seq = pos + 1)
      ∨ (s.inner.tail ≤ pos ∧ (s.inner.slot pos).seq + 2 ^ pow = pos + 1
        ∧ ∃ t pos', s.Reading t pos' ∧ pos' + 2 ^ pow = pos ∧ pos' ∉ returnedPositions s.history)
      ∨ (s.inner.tail ≤ pos ∧ (s.inner.slot pos).seq = pos) := by
  rcases h.window pos hle hlt with ⟨t, ht⟩ | ⟨hlt', val, hslot, -⟩ | ⟨hge, hslot⟩
  · have hseq := (h.of_holds ht).2
    obtain ⟨c, hc, hpos⟩ := ht
    have hok := h.callOk t c hc
    cases c with
    | pushWrite val idx | pushStoreSeq idx =>
      obtain rfl := Option.some.inj hpos
      obtain ⟨-, hlt', -⟩ := hok
      exact Or.inl ⟨hlt', by omega, t, _, hc, rfl⟩
    | popRead idx | popStoreSeq idx data =>
      obtain rfl := Option.some.inj hpos
      obtain ⟨-, hge, -, hret⟩ := hok
      exact Or.inr (Or.inr (Or.inl ⟨hge, by omega, t, idx, ⟨_, hc, rfl⟩, rfl, hret⟩))
    | _ => cases hpos
  · exact Or.inr (Or.inl ⟨hlt', by rw [hslot]⟩)
  · exact Or.inr (Or.inr (Or.inr ⟨hge, by rw [hslot]⟩))

/-- **Below the head every position was published**, and its slot was not
given back to it since. -/
theorem succ_le_seq_of_lt_head {pos : ℕ} (hlt : pos < s.inner.head) :
    pos + 1 ≤ (s.inner.slot pos).seq := by
  obtain ⟨pos', hle, hlt', hlap, hmask⟩ := @Ring.exists_window pow _ _ hlt
  have hslot : s.inner.slot pos' = s.inner.slot pos := congrArg s.inner.buf hmask
  rw [← hslot]
  rcases h.seq_cases hle hlt' with ⟨-, hseq, -⟩ | ⟨-, hseq⟩ | ⟨-, hseq, -⟩ | ⟨-, hseq⟩ <;> omega

/-- **A number below the index**, found by a producer: the index is the tail,
and its slot is still that of the lap before, stored or being read. -/
theorem of_seq_lt {idx : ℕ} (hle : idx ≤ s.inner.tail) (hseq : (s.inner.slot idx).seq < idx) :
    ∃ pos, idx = pos + 2 ^ pow ∧ s.inner.tail = pos + 2 ^ pow
      ∧ pos ∉ returnedPositions s.history
      ∧ (s.inner.tail = s.inner.head + 2 ^ pow ∨ ∃ t, s.Reading t pos) := by
  have hhead := h.head_le
  have htail := h.tail_le
  have hge : s.inner.head ≤ idx := by
    by_contra hlt
    have := h.succ_le_seq_of_lt_head (Nat.lt_of_not_le hlt)
    omega
  rcases Nat.lt_or_ge idx (s.inner.head + 2 ^ pow) with hlt | hlap
  · rcases h.seq_cases hge hlt with
      ⟨-, hpos, -⟩ | ⟨-, hpos⟩ | ⟨hfrom, -, t, pos, ht, rfl, hret⟩ | ⟨-, hpos⟩
    · omega
    · omega
    · exact ⟨pos, rfl, by omega, hret, Or.inr ⟨t, ht⟩⟩
    · omega
  · exact ⟨s.inner.head, by omega, by omega,
      fun hret => absurd (h.books.lt_head _ hret) (lt_irrefl _), Or.inl (by omega)⟩

/-- **A number not above the index**, found by a consumer: the index is the
head, and no value is there, or it is being written. -/
theorem of_seq_le {idx : ℕ} (hle : idx ≤ s.inner.head) (hseq : (s.inner.slot idx).seq < idx + 1) :
    idx = s.inner.head ∧ (s.inner.tail = s.inner.head ∨ ∃ t, s.Writing t s.inner.head) := by
  have hhead := h.head_le
  have hlen := Nat.two_pow_pos pow
  have hidx : idx = s.inner.head := by
    by_contra hne
    have := h.succ_le_seq_of_lt_head (Nat.lt_of_le_of_ne hle hne)
    omega
  subst hidx
  refine ⟨rfl, ?_⟩
  rcases h.seq_cases le_rfl (by omega) with ⟨-, -, ht⟩ | ⟨-, hseq'⟩ | ⟨hfrom, -⟩ | ⟨hfrom, -⟩
  · exact Or.inr ht
  · omega
  · exact Or.inl (by omega)
  · exact Or.inl (by omega)

/-- **A number above the index**, found by a producer: the tail has moved on. -/
theorem lt_tail_of_lt_seq {idx : ℕ} (hle : idx ≤ s.inner.tail)
    (hseq : idx < (s.inner.slot idx).seq) : idx < s.inner.tail := by
  refine Nat.lt_of_le_of_ne hle ?_
  rintro rfl
  have hhead := h.head_le
  have htail := h.tail_le
  have hlen := Nat.two_pow_pos pow
  rcases Nat.lt_or_ge s.inner.tail (s.inner.head + 2 ^ pow) with hlt | hlap
  · rcases h.seq_cases hhead hlt with ⟨hbelow, -⟩ | ⟨hbelow, -⟩ | ⟨-, hpos, -⟩ | ⟨-, hpos⟩ <;> omega
  · -- the queue is full: the slot of the tail is that of the head
    have heq : s.inner.tail = s.inner.head + 2 ^ pow := by omega
    rw [heq, slot_add_len] at hseq
    rcases h.seq_cases le_rfl (by omega) with
      ⟨-, hpos, -⟩ | ⟨-, hpos⟩ | ⟨-, hpos, -⟩ | ⟨-, hpos⟩ <;>
      omega

/-- **A number above that of a published position**, found by a consumer: the
head has moved on. -/
theorem lt_head_of_lt_seq {idx : ℕ} (hle : idx ≤ s.inner.head)
    (hseq : idx + 1 < (s.inner.slot idx).seq) : idx < s.inner.head := by
  refine Nat.lt_of_le_of_ne hle ?_
  rintro rfl
  have hlen := Nat.two_pow_pos pow
  rcases h.seq_cases le_rfl (by omega) with ⟨-, hpos, -⟩ | ⟨-, hpos⟩ | ⟨-, hpos, -⟩ | ⟨-, hpos⟩ <;>
    omega

/-- **The number a producer reads is a lap below its index at most**, however
stale the index is. -/
theorem le_seq_of_le_tail {idx : ℕ} (hle : idx ≤ s.inner.tail) :
    idx ≤ (s.inner.slot idx).seq + 2 ^ pow := by
  have htail := h.tail_le
  have hlen := Nat.two_pow_pos pow
  rcases Nat.lt_or_ge idx s.inner.head with hbelow | hge
  · have := h.succ_le_seq_of_lt_head hbelow
    omega
  · rcases Nat.lt_or_ge idx (s.inner.head + 2 ^ pow) with hlt | hlap
    · rcases h.seq_cases hge hlt with ⟨-, hseq, -⟩ | ⟨-, hseq⟩ | ⟨-, hseq, -⟩ | ⟨-, hseq⟩ <;> omega
    · -- the queue is full: the slot of the tail is that of the head
      obtain rfl : idx = s.inner.head + 2 ^ pow := by omega
      rw [slot_add_len]
      rcases h.seq_cases le_rfl (Nat.lt_add_of_pos_right hlen) with
        ⟨-, hseq, -⟩ | ⟨-, hseq⟩ | ⟨hfrom, -⟩ | ⟨hfrom, -⟩ <;> omega

/-- And likewise for a consumer. -/
theorem le_seq_of_le_head {idx : ℕ} (hle : idx ≤ s.inner.head) :
    idx + 1 ≤ (s.inner.slot idx).seq + 2 ^ pow := by
  have hlen := Nat.two_pow_pos pow
  rcases Nat.lt_or_eq_of_le hle with hbelow | rfl
  · exact (h.succ_le_seq_of_lt_head hbelow).trans (Nat.le_add_right _ _)
  · rcases h.seq_cases le_rfl (Nat.lt_add_of_pos_right hlen) with
      ⟨-, hseq, -⟩ | ⟨-, hseq⟩ | ⟨-, hseq, -⟩ | ⟨-, hseq⟩ <;> omega

/-- **Sequence numbers only grow.** -/
theorem seq_le {t : τ} {c : Call T} {q : Inner T pow} {r : Call T ⊕ Outcome T}
    (hc : s.call t = some c) (hstep : ExecStep w s.inner c q r) (pos : ℕ) :
    (s.inner.slot pos).seq ≤ (q.slot pos).seq := by
  have hset : ∀ idx slot, (s.inner.slot idx).seq ≤ slot.seq →
      (s.inner.slot pos).seq ≤ ((s.inner.setSlot idx slot).slot pos).seq := by
    intro idx slot hle
    by_cases hmask : (mask pos : Fin (2 ^ pow)) = mask idx
    · have hpos : ∀ q : Inner T pow, q.slot pos = q.slot idx := fun q => congrArg q.buf hmask
      rw [hpos, hpos, Inner.slot_setSlot_self]
      exact hle
    · rw [Inner.slot_setSlot_of_ne _ _ hmask]
  have hok := h.callOk t c hc
  cases hstep with
  | pushWrite val idx => exact hset idx _ le_rfl
  | pushStoreSeq idx =>
    obtain ⟨-, -, val, hslot, -⟩ := hok
    exact hset idx _ (by rw [hslot]; exact Nat.le_succ idx)
  | popRead idx data => exact hset idx _ le_rfl
  | popStoreSeq idx data =>
    obtain ⟨-, -, ⟨hslot, -⟩, -⟩ := hok
    exact hset idx _ (by rw [hslot]; exact Nat.add_le_add_left (Nat.one_le_two_pow) idx)
  | _ => exact le_rfl

end Inv

/-! ## The index in hand -/

/-- The counter a side advances. -/
def Inner.counter (q : Inner T pow) : Side → ℕ
  | .producer => q.tail
  | .consumer => q.head

/-- **The index in hand**: the local copy of the side's counter. -/
def Call.index : Call T → Option (Side × ℕ)
  | pushLoadSeq _ idx | pushCas _ idx => some (.producer, idx)
  | popLoadSeq idx | popCas idx => some (.consumer, idx)
  | _ => none

/-- The counter whose value the step may take for the index. -/
def Call.loads : Call T → Option Side
  | pushLoadTail _ | pushCas _ _ => some .producer
  | popLoadHead | popCas _ => some .consumer
  | _ => none

/-- **Going round the loop again**, from the first call to the second. -/
def Call.restarts : Call T → Call T → Bool
  | pushLoadSeq _ _, pushLoadTail _ => true
  | pushCas _ _, pushLoadSeq _ _ => true
  | popLoadSeq _, popLoadHead => true
  | popCas _, popLoadSeq _ => true
  | _, _ => false

/-- The thread claimed the position for its side. -/
def ClaimedBy (h : List (τ × Event T)) (t : τ) : Side → ℕ → Prop
  | .producer, pos => ∃ val, (t, .claimedPush pos val) ∈ h
  | .consumer, pos => (t, .claimedPop pos) ∈ h

/-- **An index in hand** was in hand before, or is the counter. -/
theorem ExecStep.index_cases {q q' : Inner T pow} {c c' : Call T} {k : Side} {idx : ℕ}
    (h : ExecStep w q c q' (.inl c')) (hidx : c'.index = some (k, idx)) :
    Event.of c (.inl c') = none
      ∧ (c.index = some (k, idx) ∨ (c.loads = some k ∧ idx = q.counter k)) := by
  cases h with
  | pushReady val idx' | popReady idx' => exact ⟨rfl, Or.inl hidx⟩
  | pushLoadTail val | pushCasFail val idx' | popLoadHead | popCasFail idx' =>
    obtain ⟨rfl, rfl⟩ := Prod.mk.inj (Option.some.inj hidx)
    exact ⟨rfl, Or.inr ⟨rfl, rfl⟩⟩
  | _ => cases hidx

theorem ClaimedBy.of_append {h l : List (τ × Event T)} {t : τ} {k : Side} {pos : ℕ}
    (hc : ClaimedBy (l ++ h) t k pos) : ClaimedBy l t k pos ∨ ClaimedBy h t k pos := by
  cases k with
  | producer =>
    obtain ⟨val, hmem⟩ := hc
    exact (List.mem_append.mp hmem).imp (fun hl => ⟨val, hl⟩) fun hh => ⟨val, hh⟩
  | consumer => exact List.mem_append.mp hc

/-- The claims of a thread are among its own events. -/
theorem ClaimedBy.exists_mem {h : List (τ × Event T)} {t : τ} {k : Side} {pos : ℕ}
    (hc : ClaimedBy h t k pos) : ∃ e, (t, e) ∈ h ∧ ∀ op, e ≠ .called op := by
  cases k with
  | producer =>
    obtain ⟨val, hmem⟩ := hc
    exact ⟨_, hmem, fun op heq => by cases heq⟩
  | consumer => exact ⟨_, hc, fun op heq => by cases heq⟩

namespace Inv

variable {s : State τ T pow} (h : Inv s)

include h

/-- **The counters count the claims.** -/
theorem exists_claimedBy_iff {k : Side} {pos : ℕ} :
    (∃ t, ClaimedBy s.history t k pos) ↔ pos < s.inner.counter k := by
  cases k with
  | producer =>
    have hpush := @mem_pushPositions T τ s.history pos
    rw [h.books.pushClaims, List.mem_reverse, List.mem_range] at hpush
    rw [Inner.counter, hpush]
    exact exists_comm
  | consumer =>
    have hpop := @mem_popPositions T τ s.history pos
    rw [h.books.popClaims, List.mem_reverse, List.mem_range] at hpop
    exact hpop.symm

/-- The index in hand is not ahead of the counter. -/
theorem index_le {t : τ} {c : Call T} {k : Side} {idx : ℕ} (hc : s.call t = some c)
    (hidx : c.index = some (k, idx)) : idx ≤ s.inner.counter k := by
  have hok := h.callOk t c hc
  cases c with
  | pushLoadSeq val idx' | popLoadSeq idx' =>
    obtain ⟨rfl, rfl⟩ := Prod.mk.inj (Option.some.inj hidx)
    exact hok
  | pushCas val idx' | popCas idx' =>
    obtain ⟨rfl, rfl⟩ := Prod.mk.inj (Option.some.inj hidx)
    exact hok.1
  | _ => cases hidx

/-- **Who goes round again has a stale index**, unless its compare-exchange
failed spuriously. -/
theorem lt_counter_of_restarts {t : τ} {c c' : Call T} {spurious : Bool} {q : Inner T pow}
    {k : Side} {idx : ℕ} (hc : s.call t = some c)
    (hexec : exec w s.inner spurious c = some (q, .inl c'))
    (hre : c.restarts c' = true) (hsp : (c.isCas && spurious) = false)
    (hidx : c.index = some (k, idx)) : idx < s.inner.counter k := by
  have hle := h.index_le hc hidx
  cases c with
  | pushLoadSeq val idx' =>
    obtain ⟨rfl, rfl⟩ := Prod.mk.inj (Option.some.inj hidx)
    cases execStep_of_exec hexec with
    | pushReady => cases hre
    | pushStale _ _ hseq =>
      have hlap := (h.le_seq_of_le_tail hle).trans (Nat.add_le_add_left w.two_pow_le_half _)
      exact h.lt_tail_of_lt_seq hle (w.lt_of_diff_pos hlap hseq)
  | popLoadSeq idx' =>
    obtain ⟨rfl, rfl⟩ := Prod.mk.inj (Option.some.inj hidx)
    cases execStep_of_exec hexec with
    | popReady => cases hre
    | popStale _ hseq =>
      have hlap := (h.le_seq_of_le_head hle).trans (Nat.add_le_add_left w.two_pow_le_half _)
      exact h.lt_head_of_lt_seq hle (w.lt_of_diff_pos hlap hseq)
  | pushCas val idx' =>
    obtain ⟨rfl, rfl⟩ := Prod.mk.inj (Option.some.inj hidx)
    refine Nat.lt_of_le_of_ne hle fun heq => ?_
    obtain rfl : spurious = false := hsp
    rw [exec, if_pos ⟨heq.symm, rfl⟩] at hexec
    obtain ⟨-, hcall⟩ := Prod.mk.inj (Option.some.inj hexec)
    obtain rfl := Sum.inl.inj hcall
    cases hre
  | popCas idx' =>
    obtain ⟨rfl, rfl⟩ := Prod.mk.inj (Option.some.inj hidx)
    refine Nat.lt_of_le_of_ne hle fun heq => ?_
    obtain rfl : spurious = false := hsp
    rw [exec, if_pos ⟨heq.symm, rfl⟩] at hexec
    obtain ⟨-, hcall⟩ := Prod.mk.inj (Option.some.inj hexec)
    obtain rfl := Sum.inl.inj hcall
    cases hre
  | _ => cases hidx

end Inv
/-! ## Since an index was loaded -/

section Reachable

variable [DecidableEq τ] {s : State τ T pow} {t : τ} {c : Call T} {k : Side} {idx pos : ℕ}

/-- A position whose push has returned stays published, or goes on to the next
laps. -/
theorem succ_le_seq_of_returnedPush (hpow : 1 ≤ pow) (hs : (system τ T w).Reachable s)
    (hret : (t, .returnedPush pos) ∈ s.history) : pos + 1 ≤ (s.inner.slot pos).seq := by
  refine hs.invariant (I := fun s => ∀ t pos, (t, .returnedPush pos) ∈ s.history →
    pos + 1 ≤ (s.inner.slot pos).seq) ?_ ?_ t pos hret
  · rintro t pos ⟨⟩
  · rintro s ⟨u, a⟩ s' hs ih - hnext t pos hret
    rcases system_next_cases hnext with ⟨hnone, op, rfl⟩ | ⟨c, q, r, hc, hstep, rfl⟩
    · rcases List.mem_cons.mp hret with heq | hret
      · cases heq
      · exact ih t pos hret
    · rcases mem_history_advance.mp hret with ⟨rfl, he⟩ | hret
      · cases hstep with
        | pushStoreSeq idx =>
          obtain rfl := Event.returnedPush.inj (Option.some.inj he)
          show _ ≤ (Inner.slot _ idx).seq
          rw [State.advance, Inner.slot_setSlot_self]
        | _ => cases he
      · exact (ih t pos hret).trans ((inv_of_reachable hpow hs).seq_le hc hstep pos)

/-- **A thread's own claims are below the index in its hand.** -/
theorem lt_of_claimedBy (hpow : 1 ≤ pow) (hs : (system τ T w).Reachable s)
    (hc : s.call t = some c) (hidx : c.index = some (k, idx))
    (hclaim : ClaimedBy s.history t k pos) :
    pos < idx := by
  refine hs.invariant (I := fun s => ∀ t c k idx pos, s.call t = some c → c.index = some (k, idx) →
    ClaimedBy s.history t k pos → pos < idx) ?_ ?_ t c k idx pos hc hidx hclaim
  · rintro t c k idx pos ⟨⟩
  · rintro s ⟨u, a⟩ s' hs ih - hnext t c k idx pos hc hidx hclaim
    rcases system_next_cases hnext with ⟨hnone, op, rfl⟩ | ⟨c₀, q, r, hc₀, hstep, rfl⟩
    · have hold : ClaimedBy s.history t k pos := by
        refine (ClaimedBy.of_append (l := [(u, .called op)]) hclaim).resolve_left fun hnew => ?_
        obtain ⟨e, he, hne⟩ := hnew.exists_mem
        exact hne op (Prod.mk.inj (List.mem_singleton.mp he)).2
      by_cases htu : t = u
      · subst htu
        simp only [Function.update_self, Option.some.injEq] at hc
        subst hc
        cases op <;> cases hidx
      · simp only [Function.update_of_ne htu] at hc
        exact ih t c k idx pos hc hidx hold
    · by_cases htu : t = u
      · subst htu
        simp only [State.advance, Function.update_self] at hc
        cases r with
        | inr o => cases hc
        | inl c' =>
          obtain rfl := Option.some.inj hc
          obtain ⟨he, hcase⟩ := hstep.index_cases hidx
          have hold : ClaimedBy s.history t k pos := by simpa [State.advance, he] using hclaim
          rcases hcase with hsame | ⟨-, rfl⟩
          · exact ih t c₀ k idx pos hc₀ hsame hold
          · exact (inv_of_reachable hpow hs).exists_claimedBy_iff.mp ⟨t, hold⟩
      · simp only [State.advance, Function.update_of_ne htu] at hc
        refine ih t c k idx pos hc hidx ((ClaimedBy.of_append hclaim).resolve_left fun hnew => ?_)
        obtain ⟨e, he, -⟩ := hnew.exists_mem
        have hown : Event.of c₀ r = some e ∧ u = t := by simpa using he
        exact htu hown.2.symm

/-- **The thread takes the counter's value for its index**, by the step from
one state to the other. -/
structure Loads (w : Width pow) (s s' : State τ T pow) (t : τ) (k : Side) (idx : ℕ) : Prop where
  next : ∃ a, (system τ T w).next s (t, a) = some s'
  before : ∃ c, s.call t = some c ∧ c.loads = some k
  after : ∃ c, s'.call t = some c ∧ c.index = some (k, idx)
  counter : idx = s.inner.counter k

/-- **An index in hand was loaded**: at some earlier step of the run. -/
theorem exists_loads (hs : (system τ T w).Reachable s) (hc : s.call t = some c)
    (hidx : c.index = some (k, idx)) : ∃ s₀ s₁ as, (system τ T w).Reachable s₀
      ∧ Loads w s₀ s₁ t k idx ∧ (system τ T w).run s₁ as = some s := by
  refine hs.invariant (I := fun s => ∀ c, s.call t = some c → c.index = some (k, idx) →
    ∃ s₀ s₁ as, (system τ T w).Reachable s₀ ∧ Loads w s₀ s₁ t k idx
      ∧ (system τ T w).run s₁ as = some s) ?_ ?_ c hc hidx
  · rintro c ⟨⟩
  · rintro s ⟨u, a⟩ s' hs ih - hnext c hc hidx
    have hlater : ∀ c, s.call t = some c → c.index = some (k, idx) → ∃ s₀ s₁ as,
        (system τ T w).Reachable s₀ ∧ Loads w s₀ s₁ t k idx
          ∧ (system τ T w).run s₁ as = some s' := by
      intro c hc hidx
      obtain ⟨s₀, s₁, as, hs₀, hloads, hrun⟩ := ih c hc hidx
      exact ⟨s₀, s₁, as ++ [(u, a)], hs₀, hloads,
        System.run_append hrun (by simp [System.run, hnext])⟩
    have hafter := hc
    rcases system_next_cases hnext with ⟨hnone, op, rfl⟩ | ⟨c₀, q, r, hc₀, hstep, rfl⟩
    · by_cases htu : t = u
      · subst htu
        simp only [Function.update_self, Option.some.injEq] at hc
        subst hc
        cases op <;> cases hidx
      · simp only [Function.update_of_ne htu] at hc
        exact hlater c hc hidx
    · by_cases htu : t = u
      · subst htu
        simp only [State.advance, Function.update_self] at hc
        cases r with
        | inr o => cases hc
        | inl c' =>
          obtain rfl := Option.some.inj hc
          rcases (hstep.index_cases hidx).2 with hsame | ⟨hload, heq⟩
          · exact hlater c₀ hc₀ hsame
          · exact ⟨s, _, [], hs, ⟨⟨a, hnext⟩, ⟨c₀, hc₀, hload⟩, ⟨_, hafter, hidx⟩, heq⟩, rfl⟩
      · simp only [State.advance, Function.update_of_ne htu] at hc
        exact hlater c hc hidx

/-- A run adds to the history. -/
theorem exists_history_eq {s' : State τ T pow} {as : List (τ × Action T)}
    (hrun : (system τ T w).run s as = some s') : ∃ l, s'.history = l ++ s.history := by
  refine System.run_keeps (P := fun s' => ∃ l, s'.history = l ++ s.history) ?_ ⟨[], rfl⟩ hrun
  rintro s₁ ⟨t, a⟩ s₂ ⟨l, hl⟩ hnext
  rcases system_next_cases hnext with ⟨-, op, rfl⟩ | ⟨c, q, r, -, -, rfl⟩
  · exact ⟨(t, .called op) :: l, congrArg _ hl⟩
  · exact ⟨_ ++ l, by rw [State.advance, hl, List.append_assoc]⟩

/-! ## The outcomes -/

/-- **Why a value is given back**: the index is the tail, the position a lap
before has not been released, and the queue is full or a pop is on its way
there. -/
def GivenBack (s : State τ T pow) (t : τ) (c : Call T) (val : T) : Prop :=
  ∃ pos, c = pushLoadSeq val (pos + 2 ^ pow) ∧ s.inner.tail = pos + 2 ^ pow
    ∧ pos ∉ returnedPositions s.history
    ∧ (s.inner.tail = s.inner.head + 2 ^ pow ∨ ∃ t', t' ≠ t ∧ s.Reading t' pos)

/-- **Why nothing is found**: the index is the head, its position is not
published, and the queue is empty or a push is on its way there. -/
def NothingFound (s : State τ T pow) (t : τ) (c : Call T) : Prop :=
  ∃ pos, c = popLoadSeq pos ∧ s.inner.head = pos ∧ (s.inner.slot pos).seq ≠ pos + 1
    ∧ (∀ t', (t', .returnedPush pos) ∉ s.history)
    ∧ (s.inner.tail = s.inner.head ∨ ∃ t', t' ≠ t ∧ s.Writing t' pos)

/-- **A call that is left behind**: the number it is about to look at is half
the range of a word ahead of the one it looks for, or more. -/
def Call.Lags (w : Width pow) (q : Inner T pow) : Call T → Prop
  | pushLoadSeq _ idx => idx + w.half ≤ (q.slot idx).seq ∧ (q.slot idx).seq < idx + 2 * w.half
  | popLoadSeq idx =>
    idx + 1 + w.half ≤ (q.slot idx).seq ∧ (q.slot idx).seq < idx + 1 + 2 * w.half
  | _ => False

instance (w : Width pow) (q : Inner T pow) : ∀ c : Call T, Decidable (c.Lags w q)
  | pushLoadSeq _ idx => inferInstanceAs (Decidable (_ ∧ (q.slot idx).seq < idx + 2 * w.half))
  | popLoadSeq idx => inferInstanceAs (Decidable (_ ∧ (q.slot idx).seq < idx + 1 + 2 * w.half))
  | pushLoadTail _ | pushCas _ _ | pushWrite _ _ | pushStoreSeq _ | popLoadHead | popCas _
  | popRead _ | popStoreSeq _ _ => .isFalse id

/-- **What the outcomes of the next steps tell**, of the queue and the other
threads at the moment of the step. -/
structure Justified (w : Width pow) (s : State τ T pow) : Prop where
  full : ∀ t c spurious q val, s.call t = some c →
    exec w s.inner spurious c = some (q, .inr (.full val)) → GivenBack s t c val
  empty : ∀ t c spurious q, s.call t = some c →
    exec w s.inner spurious c = some (q, .inr .empty) → NothingFound s t c
  /-- The index in hand was the counter when it was loaded. -/
  loaded : ∀ t c k idx, s.call t = some c → c.index = some (k, idx) →
    ∃ s₀ s₁ as, (system τ T w).Reachable s₀ ∧ Loads w s₀ s₁ t k idx
      ∧ (system τ T w).run s₁ as = some s
  /-- **Going round again**, and not for a spurious failure: the counter is past
  the index, and another thread has claimed its position since it was loaded. -/
  restart : ∀ t c c' spurious q k idx, s.call t = some c →
    exec w s.inner spurious c = some (q, .inl c') → c.restarts c' = true →
    (c.isCas && spurious) = false → c.index = some (k, idx) →
    idx < s.inner.counter k ∧ ∀ s₀ s₁ as, (system τ T w).Reachable s₀ → Loads w s₀ s₁ t k idx →
      (system τ T w).run s₁ as = some s →
      ∃ l t', s.history = l ++ s₀.history ∧ t' ≠ t ∧ ClaimedBy l t' k idx
  /-- With no other call under way, a value is given back by a full queue only. -/
  full_alone : ∀ t c spurious q val, s.call t = some c →
    exec w s.inner spurious c = some (q, .inr (.full val)) → (∀ t', t' ≠ t → s.call t' = none) →
    s.inner.tail = s.inner.head + 2 ^ pow
  /-- With no other call under way, nothing is found in an empty queue only. -/
  empty_alone : ∀ t c spurious q, s.call t = some c →
    exec w s.inner spurious c = some (q, .inr .empty) → (∀ t', t' ≠ t → s.call t' = none) →
    s.inner.tail = s.inner.head

/-- **A producer that finds a negative difference** has read a number below its
index, if it does not lag. -/
theorem seq_lt_of_diff_neg {q : Inner T pow} {val : T} (hlag : ¬ (pushLoadSeq val idx).Lags w q)
    (hdiff : w.diff (q.slot idx).seq idx < 0) : (q.slot idx).seq < idx :=
  (w.diff_neg_cases hdiff).resolve_right hlag

/-- And so has a consumer. -/
theorem seq_le_of_diff_neg {q : Inner T pow} (hlag : ¬ (popLoadSeq idx : Call T).Lags w q)
    (hdiff : w.diff (q.slot idx).seq (idx + 1) < 0) : (q.slot idx).seq < idx + 1 :=
  (w.diff_neg_cases hdiff).resolve_right hlag

omit [DecidableEq τ] in
/-- **A call that gives a value back** has read a number below its index, if it
does not lag. -/
theorem Inv.givenBack (h : Inv s) (hc : s.call t = some c) (hlag : ¬ c.Lags w s.inner)
    {q : Inner T pow} {spurious : Bool} {val : T}
    (hexec : exec w s.inner spurious c = some (q, .inr (.full val))) : GivenBack s t c val := by
  cases execStep_of_exec hexec with
  | pushFull val idx hdiff =>
    obtain ⟨pos, rfl, htail, hret, hcase⟩ :=
      h.of_seq_lt (h.callOk t _ hc) (seq_lt_of_diff_neg hlag hdiff)
    refine ⟨pos, rfl, htail, hret, hcase.imp id fun ⟨t', hread⟩ => ⟨t', ?_, hread⟩⟩
    rintro rfl
    obtain ⟨c', hc', hpos⟩ := hread
    obtain rfl := Option.some.inj (hc.symm.trans hc')
    cases hpos

/-- **A call that finds nothing** has read a number not above its index, if it
does not lag. -/
theorem nothingFound (hpow : 1 ≤ pow) (hs : (system τ T w).Reachable s) (hc : s.call t = some c)
    (hlag : ¬ c.Lags w s.inner) {q : Inner T pow} {spurious : Bool}
    (hexec : exec w s.inner spurious c = some (q, .inr .empty)) : NothingFound s t c := by
  have h := inv_of_reachable hpow hs
  cases execStep_of_exec hexec with
  | popEmpty idx hdiff =>
    have hseq := seq_le_of_diff_neg hlag hdiff
    obtain ⟨rfl, hcase⟩ := h.of_seq_le (h.callOk t _ hc) hseq
    refine ⟨_, rfl, rfl, hseq.ne, fun t' hret => ?_,
      hcase.imp id fun ⟨t', hwrite⟩ => ⟨t', ?_, hwrite⟩⟩
    · have := succ_le_seq_of_returnedPush hpow hs hret
      omega
    · rintro rfl
      obtain ⟨c', hc', hpos⟩ := hwrite
      obtain rfl := Option.some.inj (hc.symm.trans hc')
      cases hpos

omit [DecidableEq τ] in
/-- **A call that lags gives up** at its next step, and not for the reason it
should. -/
theorem Inv.not_justified_of_lags (h : Inv s) (hc : s.call t = some c) (hlag : c.Lags w s.inner) :
    (∃ val, exec w s.inner false c = some (s.inner, .inr (.full val)) ∧ ¬ GivenBack s t c val)
      ∨ (exec w s.inner false c = some (s.inner, .inr .empty) ∧ ¬ NothingFound s t c) := by
  have hhalf := w.half_pos
  cases c with
  | pushLoadSeq val idx =>
    obtain ⟨hfar, hnear⟩ := hlag
    have hneg : w.diff (s.inner.slot idx).seq idx < 0 :=
      (w.diff_neg_iff (by omega)).mpr (Or.inr ⟨hfar, hnear⟩)
    refine Or.inl ⟨val, by simp [exec, hneg.ne, hneg], ?_⟩
    rintro ⟨pos, heq, htail, -⟩
    obtain ⟨-, rfl⟩ := pushLoadSeq.inj heq
    have := h.lt_tail_of_lt_seq htail.ge (by omega)
    omega
  | popLoadSeq idx =>
    obtain ⟨hfar, hnear⟩ := hlag
    have hneg : w.diff (s.inner.slot idx).seq (idx + 1) < 0 :=
      (w.diff_neg_iff (by omega)).mpr (Or.inr ⟨hfar, hnear⟩)
    refine Or.inr ⟨by simp [exec, hneg.ne, hneg], ?_⟩
    rintro ⟨pos, heq, hhead, -⟩
    obtain rfl := popLoadSeq.inj heq
    have := h.lt_head_of_lt_seq hhead.ge (by omega)
    omega
  | _ => exact hlag.elim

/-- **Since a load of an index that is stale now**, another thread has claimed
its position. -/
theorem exists_claimedBy_of_loads (hpow : 1 ≤ pow) (hs : (system τ T w).Reachable s)
    (hc : s.call t = some c) (hidx : c.index = some (k, idx)) (hlt : idx < s.inner.counter k)
    {s₀ s₁ : State τ T pow} {as : List (τ × Action T)} (hs₀ : (system τ T w).Reachable s₀)
    (hloads : Loads w s₀ s₁ t k idx) (hrun : (system τ T w).run s₁ as = some s) :
    ∃ l t', s.history = l ++ s₀.history ∧ t' ≠ t ∧ ClaimedBy l t' k idx := by
  obtain ⟨a, hnext⟩ := hloads.next
  have hload : (system τ T w).run s₀ [(t, a)] = some s₁ := by simp [System.run, hnext]
  obtain ⟨l, hl⟩ := exists_history_eq (System.run_append hload hrun)
  obtain ⟨t', hclaim⟩ := (inv_of_reachable hpow hs).exists_claimedBy_iff.mpr hlt
  refine ⟨l, t', hl, ?_, ?_⟩
  · rintro rfl
    exact absurd (lt_of_claimedBy hpow hs hc hidx hclaim) (lt_irrefl _)
  · -- at the load the counter was the index, so nothing had claimed it
    rw [hl] at hclaim
    refine hclaim.of_append.resolve_right fun hold => ?_
    have hbefore := (inv_of_reachable hpow hs₀).exists_claimedBy_iff.mp ⟨t', hold⟩
    exact absurd hloads.counter hbefore.ne

/-- **Outcomes are justified exactly where no call lags**: from two slots on,
with any threads making any calls and taking their steps in any order. -/
theorem justified_iff_of_reachable (hpow : 1 ≤ pow) (hs : (system τ T w).Reachable s) :
    Justified w s ↔ ∀ t c, s.call t = some c → ¬ c.Lags w s.inner := by
  have h := inv_of_reachable hpow hs
  constructor
  · intro hjust t c hc hlag
    rcases h.not_justified_of_lags hc hlag with ⟨val, hexec, hnot⟩ | ⟨hexec, hnot⟩
    · exact hnot (hjust.full t c false _ val hc hexec)
    · exact hnot (hjust.empty t c false _ hc hexec)
  · intro hlag
    refine ⟨fun t c _ _ _ hc => h.givenBack hc (hlag t c hc),
      fun t c _ _ hc => nothingFound hpow hs hc (hlag t c hc),
      fun _ _ _ _ hc hidx => exists_loads hs hc hidx, ?_, ?_, ?_⟩
    · intro t c c' spurious q k idx hc hexec hre hsp hidx
      have hlt := h.lt_counter_of_restarts hc hexec hre hsp hidx
      exact ⟨hlt, fun s₀ s₁ as hs₀ hloads hrun =>
        exists_claimedBy_of_loads hpow hs hc hidx hlt hs₀ hloads hrun⟩
    · intro t c spurious q val hc hexec halone
      obtain ⟨pos, -, -, -, htail | ⟨t', hne, c', hc', -⟩⟩ := h.givenBack hc (hlag t c hc) hexec
      · exact htail
      · cases (halone t' hne).symm.trans hc'
    · intro t c spurious q hc hexec halone
      obtain ⟨pos, -, -, -, -, htail | ⟨t', hne, c', hc', -⟩⟩ :=
        nothingFound hpow hs hc (hlag t c hc) hexec
      · exact htail
      · cases (halone t' hne).symm.trans hc'

end Reachable

/-- Two slots, one pushed and being popped, and the other pushed: a producer
comes to the first slot while its consumer has not released it. -/
def releasing {τ : Type} (first slow second : τ) : List (τ × Action ℕ) :=
  (first, .call (.push 7)) :: List.replicate 5 (first, .step false)
    ++ (first, .call (.push 8)) :: List.replicate 5 (first, .step false)
    ++ (slow, .call .pop) :: List.replicate 3 (slow, .step false)
    ++ [(second, .call (.push 9)), (second, .step false)]

/-- The queue has room for the value, which is given back for the pop under
way. -/
theorem justified_iff_of_reachable_releasing :
    ∃ s, (system (Fin 3) ℕ .twoSlots).run (system (Fin 3) ℕ .twoSlots).init (releasing 0 1 2)
        = some s
      ∧ s.inner.tail = s.inner.head + 1 ∧ s.call 2 = some (pushLoadSeq 9 2)
      ∧ s.call 1 = some (popRead 0) ∧ GivenBack s 2 (pushLoadSeq 9 2) 9 := by
  have hrun : ((system (Fin 3) ℕ .twoSlots).run (system (Fin 3) ℕ .twoSlots).init
      (releasing 0 1 2)).isSome := by decide
  have hlag : ∀ s ∈ (system (Fin 3) ℕ .twoSlots).run (system (Fin 3) ℕ .twoSlots).init
      (releasing 0 1 2), ∀ t, ∀ c ∈ s.call t, ¬ c.Lags .twoSlots s.inner := by decide
  have hs := (Option.some_get hrun).symm
  have hjust := (justified_iff_of_reachable (by decide) (System.Reachable.of_run hs)).mpr
    (hlag _ hs)
  exact ⟨_, hs, rfl, rfl, rfl, hjust.full 2 _ false _ 9 rfl rfl⟩

/-! ## Falling behind -/

section Behind

variable [DecidableEq τ] {s : State τ T pow} {t : τ}

/-- **A call run to its end** is run so by its thread, while the others stand
still. -/
theorem exists_returned_of_finish (hs : (system τ T w).Reachable s) {c : Call T}
    (hc : s.call t = some c) {fuel failures : ℕ} {q : Inner T pow} {o : Outcome T}
    (h : finish w fuel failures s.inner c = some (q, o)) :
    ∃ s', (system τ T w).Reachable s' ∧ s'.inner = q
      ∧ s'.call = Function.update s.call t none := by
  induction fuel generalizing failures s c with
  | zero => cases h
  | succ fuel ih =>
    unfold finish at h
    cases hexec : exec w s.inner (c.isCas && failures != 0) c with
    | none =>
      rw [hexec] at h
      cases h
    | some p =>
      obtain ⟨q', r⟩ := p
      have hnext : (system τ T w).next s (t, .step (c.isCas && failures != 0))
          = some (s.advance t c q' r) := by
        simp [system, hc, hexec]
      have hs' := hs.step trivial hnext
      rw [hexec] at h
      cases r with
      | inr o' =>
        obtain ⟨rfl, rfl⟩ := Prod.mk.inj (Option.some.inj h)
        exact ⟨_, hs', rfl, rfl⟩
      | inl c' =>
        obtain ⟨s'', hs'', hinner, hcall⟩ :=
          ih hs' (show (s.advance t c q' (.inl c')).call t = _ from Function.update_self ..) h
        exact ⟨s'', hs'', hinner, hcall.trans (Function.update_idem ..)⟩

/-- A whole call of an idle thread. -/
theorem exists_called_of_finish (hs : (system τ T w).Reachable s) (hnone : s.call t = none)
    {op : Op T} {q : Inner T pow} {o : Outcome T}
    (h : ∃ fuel, finish w fuel 0 s.inner (invoke op) = some (q, o)) :
    ∃ s', (system τ T w).Reachable s' ∧ s'.inner = q ∧ s'.call = s.call := by
  obtain ⟨fuel, hfinish⟩ := h
  have hnext : (system τ T w).next s (t, .call op) = some
      { s with
        call := Function.update s.call t (some (invoke op))
        history := (t, .called op) :: s.history } := by
    simp [system, hnone]
  obtain ⟨s', hs', hinner, hcall⟩ :=
    exists_returned_of_finish (hs.step trivial hnext) (Function.update_self ..) hfinish
  refine ⟨s', hs', hinner, hcall.trans ?_⟩
  rw [Function.update_idem, ← hnone, Function.update_eq_self]

/-- **Pairs of a push and a pop** by a thread, on an empty queue: it is empty
again, and its counters have moved on. -/
theorem exists_pairs (val : T) (hs : (system τ T w).Reachable s) (hnone : s.call t = none)
    (hempty : Stored s.inner []) (n : ℕ) :
    ∃ s', (system τ T w).Reachable s' ∧ s'.call = s.call ∧ Stored s'.inner []
      ∧ s'.inner.head = s.inner.head + n := by
  induction n with
  | zero => exact ⟨s, hs, rfl, hempty, rfl⟩
  | succ n ih =>
    obtain ⟨s₁, hs₁, hcall₁, hempty₁, hhead₁⟩ := ih
    have hlt : ([] : List T).length < 2 ^ pow := Nat.two_pow_pos pow
    obtain ⟨s₂, hs₂, hinner₂, hcall₂⟩ := exists_called_of_finish hs₁ (hcall₁ ▸ hnone)
      (finish_push (by rw [hempty₁.slot_tail hlt]) val 0)
    have hone : Stored s₂.inner [val] := hinner₂ ▸ hempty₁.pushed hlt val
    obtain ⟨s₃, hs₃, hinner₃, hcall₃⟩ := exists_called_of_finish hs₂
      (by rw [hcall₂, hcall₁, hnone]) (finish_pop hone.slot_head 0)
    refine ⟨s₃, hs₃, by rw [hcall₃, hcall₂, hcall₁], hinner₃ ▸ hone.popped, ?_⟩
    rw [hinner₃, Inner.popped, hinner₂]
    show s₁.inner.head + 1 = _
    omega

end Behind

/-- **An empty queue that is taken for a full one**: on a 32-bit target a push
loads the tail and stands still while another thread makes `2 ^ 31` pairs of
calls; it then finds a number half the range of a word ahead, and gives its
value back. -/
theorem not_justified_of_lagging :
    ∃ s, (system Bool ℕ (⟨32, by decide⟩ : Width 1)).Reachable s
      ∧ s.inner.tail = 2 ^ 31 ∧ s.inner.head = 2 ^ 31
      ∧ s.call false = some (pushLoadSeq 7 0) ∧ s.call true = none
      ∧ exec ⟨32, by decide⟩ s.inner false (pushLoadSeq 7 0) = some (s.inner, .inr (.full 7))
      ∧ ¬ GivenBack s false (pushLoadSeq 7 0) 7 ∧ ¬ Justified ⟨32, by decide⟩ s := by
  have hrun : (system Bool ℕ (⟨32, by decide⟩ : Width 1)).run (system Bool ℕ ⟨32, by decide⟩).init
      [(false, .call (.push 7)), (false, .step false)] = some _ := rfl
  obtain ⟨s, hs, hcall, hempty, hhead⟩ :=
    exists_pairs 8 (System.Reachable.of_run hrun) (t := true) rfl stored_empty (2 ^ 31)
  have htail : s.inner.tail = 2 ^ 31 := hempty.tail_eq.trans hhead
  have hslot : s.inner.slot 0 = ⟨2 ^ 31, none⟩ := by
    rw [← hempty.free (2 ^ 31) htail.le (by rw [hhead]; decide)]
    exact congrArg s.inner.buf (Ring.mask_eq_mask_iff.mpr rfl)
  have hcall' : s.call false = some (pushLoadSeq 7 0) := by
    rw [hcall]
    rfl
  have hlag : (pushLoadSeq 7 0 : Call ℕ).Lags ⟨32, by decide⟩ s.inner := by
    rw [Call.Lags, hslot]
    decide
  have hidle : s.call true = none := by
    rw [hcall]
    rfl
  rcases (inv_of_reachable le_rfl hs).not_justified_of_lags hcall' hlag with
    ⟨val, hexec, hnot⟩ | ⟨hexec, -⟩
  · obtain rfl : val = 7 := by
      cases execStep_of_exec hexec
      rfl
    exact ⟨s, hs, htail, hhead, hcall', hidle, hexec, hnot, fun hjust =>
      hnot (hjust.full false _ false _ _ hcall' hexec)⟩
  · cases execStep_of_exec hexec

end Mpmc
