import Algors.Queue.MpmcInvariant
import Mathlib.Data.List.Nodup

/-!
# Slot safety and exactly-once delivery

What `Inv` means for a user of the queue. A thread is in the data-access phase
of a slot between its claim of a position and its store of the sequence
number; there it has the slot for itself, finds it empty when it is to write
and finds the value of its position when it is to read. `Safe` is the list of
these facts, and of what they come to for the values: what is claimed by a
consumer is, at any time, still in the slot, in the consumer's hand, or
returned.

The history says by whom a position was claimed and for whom it was returned;
`Traced` ties it to the calls that are under way.
-/

namespace Mpmc

variable {T τ : Type} {pow : ℕ} {w : Width pow}

open Call
open Fifo (Op Outcome)

/-! ## The data-access phase -/

/-- The position whose slot a call writes or is to publish. -/
def Call.writing : Call T → Option ℕ
  | pushWrite _ idx => some idx
  | pushStoreSeq idx => some idx
  | _ => none

/-- The position whose slot a call reads or is to release. -/
def Call.reading : Call T → Option ℕ
  | popRead idx => some idx
  | popStoreSeq idx _ => some idx
  | _ => none

/-- **The position whose slot a call has access to.** -/
def Call.accesses (c : Call T) : Option ℕ := c.writing.or c.reading

/-- A call with access to a slot holds a position of that slot. -/
theorem Call.holds_of_accesses {c : Call T} {pos : ℕ} (h : c.accesses = some pos) :
    ∃ pos', c.holds (2 ^ pow) = some pos' ∧ (mask pos' : Fin (2 ^ pow)) = mask pos := by
  cases c with
  | pushWrite val idx | pushStoreSeq idx =>
    obtain rfl := Option.some.inj h
    exact ⟨_, rfl, rfl⟩
  | popRead idx | popStoreSeq idx data =>
    obtain rfl := Option.some.inj h
    exact ⟨_, rfl, Ring.mask_add_len _⟩
  | _ => cases h

/-! ## The history of the calls under way -/

/-- A thread is in a call that writes the position. -/
def State.Writing (s : State τ T pow) (t : τ) (pos : ℕ) : Prop :=
  ∃ c, s.call t = some c ∧ c.writing = some pos

/-- A thread is in a call that reads the position. -/
def State.Reading (s : State τ T pow) (t : τ) (pos : ℕ) : Prop :=
  ∃ c, s.call t = some c ∧ c.reading = some pos

/-- **A claim is under way or has been returned**, in both directions. -/
structure Traced (s : State τ T pow) : Prop where
  push : ∀ t pos, (∃ val, (t, .claimedPush pos val) ∈ s.history)
    ↔ s.Writing t pos ∨ (t, .returnedPush pos) ∈ s.history
  pop : ∀ t pos, (t, .claimedPop pos) ∈ s.history
    ↔ s.Reading t pos ∨ ∃ val, (t, .returnedPop pos val) ∈ s.history

section Step

variable [DecidableEq τ] {s : State τ T pow} {t : τ}

theorem mem_history_advance {c : Call T} {q : Inner T pow} {r : Call T ⊕ Outcome T} {t' : τ}
    {e : Event T} : (t', e) ∈ (s.advance t c q r).history
      ↔ (t' = t ∧ Event.of c r = some e) ∨ (t', e) ∈ s.history := by
  cases he : Event.of c r with
  | none => simp [State.advance, he]
  | some e' => simp [State.advance, he, eq_comm]

theorem writing_advance {c : Call T} {q : Inner T pow} {r : Call T ⊕ Outcome T} {t' : τ}
    {pos : ℕ} : (s.advance t c q r).Writing t' pos
      ↔ (t' = t ∧ ∃ c', r = .inl c' ∧ c'.writing = some pos) ∨ (t' ≠ t ∧ s.Writing t' pos) := by
  unfold State.Writing
  by_cases ht : t' = t
  · subst ht
    cases r <;> simp [State.advance]
  · simp [State.advance, ht]

theorem reading_advance {c : Call T} {q : Inner T pow} {r : Call T ⊕ Outcome T} {t' : τ}
    {pos : ℕ} : (s.advance t c q r).Reading t' pos
      ↔ (t' = t ∧ ∃ c', r = .inl c' ∧ c'.reading = some pos) ∨ (t' ≠ t ∧ s.Reading t' pos) := by
  unfold State.Reading
  by_cases ht : t' = t
  · subst ht
    cases r <;> simp [State.advance]
  · simp [State.advance, ht]

theorem Traced.advance (h : Traced s) {c : Call T} {q : Inner T pow} {r : Call T ⊕ Outcome T}
    (hc : s.call t = some c) (hstep : ExecStep w s.inner c q r) : Traced (s.advance t c q r) where
  push t' pos := by
    simp only [mem_history_advance, writing_advance]
    have hold := h.push t' pos
    by_cases ht : t' = t
    · subst ht
      simp only [State.Writing, hc, Option.some.injEq, exists_eq_left'] at hold
      cases hstep <;> simp [Event.of, Call.writing] at hold ⊢ <;> grind
    · simpa [ht] using hold
  pop t' pos := by
    simp only [mem_history_advance, reading_advance]
    have hold := h.pop t' pos
    by_cases ht : t' = t
    · subst ht
      simp only [State.Reading, hc, Option.some.injEq, exists_eq_left'] at hold
      cases hstep <;> simp [Event.of, Call.reading] at hold ⊢ <;> grind
    · simpa [ht] using hold

/-- A thread that makes a call has claimed nothing in it yet. -/
theorem Traced.call (h : Traced s) (op : Op T) (hnone : s.call t = none) :
    Traced { s with
      call := Function.update s.call t (some (invoke op))
      history := (t, .called op) :: s.history } where
  push t' pos := by
    have hold := h.push t' pos
    have hw : (invoke op).writing = none := by cases op <;> rfl
    by_cases ht : t' = t
    · subst ht
      simp only [State.Writing, hnone] at hold
      simpa [State.Writing, hw] using hold
    · simpa [State.Writing, ht] using hold
  pop t' pos := by
    have hold := h.pop t' pos
    have hr : (invoke op).reading = none := by cases op <;> rfl
    by_cases ht : t' = t
    · subst ht
      simp only [State.Reading, hnone] at hold
      simpa [State.Reading, hr] using hold
    · simpa [State.Reading, ht] using hold

theorem traced_of_reachable (hs : (system τ T w).Reachable s) : Traced s := by
  refine System.ReachableWhile.invariant hs ?_ ?_
  · constructor <;> simp [system, State.Writing, State.Reading]
  · rintro s ⟨t, a⟩ s' _ hs _ hnext
    rcases system_next_cases hnext with ⟨hnone, op, rfl⟩ | ⟨c, q, r, hc, hstep, rfl⟩
    · exact hs.call op hnone
    · exact hs.advance hc hstep

end Step

/-! ## Safety -/

/-- **What holds at any time**, of the slots and of the values. -/
structure Safe (s : State τ T pow) : Prop where
  head_le : s.inner.head ≤ s.inner.tail
  tail_le : s.inner.tail ≤ s.inner.head + 2 ^ pow
  /-- A slot is written only when it is empty. -/
  write_empty : ∀ t val pos, s.call t = some (pushWrite val pos) → (s.inner.slot pos).data = none
  /-- A slot is read only when it has the value of the claimed position. -/
  read_claimed : ∀ t pos, s.call t = some (popRead pos) →
    ∃ val, (s.inner.slot pos).data = some val ∧ Claimed s.history pos val
  /-- No two threads have access to one slot. -/
  exclusive : ∀ t t' c c' pos pos', s.call t = some c → s.call t' = some c' →
    c.accesses = some pos → c'.accesses = some pos' →
    (mask pos : Fin (2 ^ pow)) = mask pos' → t = t'
  /-- The positions below the tail are claimed once each, by producers. -/
  push_claims : (pushPositions s.history).Nodup
    ∧ ∀ pos, pos ∈ pushPositions s.history ↔ pos < s.inner.tail
  /-- The positions below the head are claimed once each, by consumers. -/
  pop_claims : (popPositions s.history).Nodup
    ∧ ∀ pos, pos ∈ popPositions s.history ↔ pos < s.inner.head
  /-- One value is pushed at a position. -/
  claimed_unique : ∀ pos val val', Claimed s.history pos val → Claimed s.history pos val' →
    val = val'
  /-- A pushed value that no consumer has claimed is on its way into the slot
  or in it. -/
  kept : ∀ pos, s.inner.head ≤ pos → pos < s.inner.tail → (∃ t, s.Writing t pos)
    ∨ ∃ val, (s.inner.slot pos).data = some val ∧ Claimed s.history pos val
  /-- **A consumer gets the value of the position it claims**: it is still in
  the slot, in the consumer's hand, or returned. -/
  delivered : ∀ t pos, (t, .claimedPop pos) ∈ s.history → ∃ val, Claimed s.history pos val
    ∧ ((s.call t = some (popRead pos) ∧ (s.inner.slot pos).data = some val)
      ∨ s.call t = some (popStoreSeq pos val) ∨ (t, .returnedPop pos val) ∈ s.history)
  /-- A returned value was pushed at a position its consumer claimed, and is
  returned once. -/
  returned : (returnedPositions s.history).Nodup ∧ ∀ t pos val,
    (t, .returnedPop pos val) ∈ s.history →
      (t, .claimedPop pos) ∈ s.history ∧ Claimed s.history pos val

theorem mem_pushPositions {h : List (τ × Event T)} {pos : ℕ} :
    pos ∈ pushPositions h ↔ ∃ val, Claimed h pos val := by
  simp only [pushPositions, List.mem_filterMap, Claimed, Prod.exists]
  constructor
  · rintro ⟨t, e, hmem, he⟩
    cases e with
    | claimedPush pos' val =>
      obtain rfl := Option.some.inj he
      exact ⟨val, t, hmem⟩
    | _ => cases he
  · rintro ⟨val, t, hmem⟩
    exact ⟨t, _, hmem, rfl⟩

/-- Where no position is claimed twice, the value pushed at a position is
one. -/
theorem Claimed.unique {h : List (τ × Event T)} (hnodup : (pushPositions h).Nodup) {pos : ℕ}
    {val val' : T} (hval : Claimed h pos val) (hval' : Claimed h pos val') : val = val' := by
  induction h with
  | nil =>
    obtain ⟨t, ht⟩ := hval
    cases ht
  | cons e h ih =>
    have hfresh := hnodup.sublist ((List.sublist_cons_self e h).filterMap _)
    obtain ⟨t, ht⟩ := hval
    obtain ⟨t', ht'⟩ := hval'
    rcases List.mem_cons.mp ht with heq | hin <;> rcases List.mem_cons.mp ht' with heq' | hin'
    · exact (Event.claimedPush.inj (Prod.mk.inj (heq.trans heq'.symm)).2).2
    · rw [← heq] at hnodup
      exact absurd (mem_pushPositions.mpr ⟨val', t', hin'⟩) (List.nodup_cons.mp hnodup).1
    · rw [← heq'] at hnodup
      exact absurd (mem_pushPositions.mpr ⟨val, t, hin⟩) (List.nodup_cons.mp hnodup).1
    · exact ih hfresh ⟨t, hin⟩ ⟨t', hin'⟩

namespace Inv

variable {s : State τ T pow} (h : Inv s)

include h

/-- No two threads have access to one slot. -/
theorem exclusive {t t' : τ} {c c' : Call T} {pos pos' : ℕ} (hc : s.call t = some c)
    (hc' : s.call t' = some c') (hpos : c.accesses = some pos) (hpos' : c'.accesses = some pos')
    (hmask : (mask pos : Fin (2 ^ pow)) = mask pos') : t = t' := by
  obtain ⟨p, hp, hm⟩ := @Call.holds_of_accesses T pow _ _ hpos
  obtain ⟨p', hp', hm'⟩ := @Call.holds_of_accesses T pow _ _ hpos'
  have hwin := (h.callOk t c hc).window h.head_le h.tail_le hp
  have hwin' := (h.callOk t' c' hc').window h.head_le h.tail_le hp'
  have heq : p = p' := by
    by_contra hne
    exact Ring.mask_ne_of_window hwin hwin' hne (hm.trans (hmask.trans hm'.symm))
  exact h.unique t t' p ⟨c, hc, hp⟩ ⟨c', hc', heq ▸ hp'⟩

/-- A position between the counters is on its way into the slot or in it. -/
theorem kept {pos : ℕ} (hle : s.inner.head ≤ pos) (hlt : pos < s.inner.tail) :
    (∃ t, s.Writing t pos)
      ∨ ∃ val, (s.inner.slot pos).data = some val ∧ Claimed s.history pos val := by
  have htail := h.tail_le
  rcases h.window pos hle (by omega) with ⟨t, c, hc, hpos⟩ | ⟨_, val, hslot, hval⟩ | ⟨hge, _⟩
  · have hok := h.callOk t c hc
    cases c with
    | pushWrite val idx | pushStoreSeq idx => exact Or.inl ⟨t, _, hc, hpos⟩
    | popRead idx | popStoreSeq idx data =>
      -- a consumer holds a position from the tail on
      obtain rfl := Option.some.inj hpos
      exact absurd hok.2.1 (by omega)
    | _ => cases hpos
  · exact Or.inr ⟨val, by rw [hslot], hval⟩
  · omega

theorem delivered (htraced : Traced s) {t : τ} {pos : ℕ} (hmem : (t, .claimedPop pos) ∈ s.history) :
    ∃ val, Claimed s.history pos val
      ∧ ((s.call t = some (popRead pos) ∧ (s.inner.slot pos).data = some val)
        ∨ s.call t = some (popStoreSeq pos val) ∨ (t, .returnedPop pos val) ∈ s.history) := by
  rcases (htraced.pop t pos).mp hmem with ⟨c, hc, hpos⟩ | ⟨val, hret⟩
  · have hok := h.callOk t c hc
    cases c with
    | popRead idx =>
      obtain rfl := Option.some.inj hpos
      obtain ⟨_, _, ⟨val, hslot, hval⟩, _⟩ := hok
      exact ⟨val, hval, Or.inl ⟨hc, by rw [hslot]⟩⟩
    | popStoreSeq idx data =>
      obtain rfl := Option.some.inj hpos
      exact ⟨data, hok.2.2.1.2, Or.inr (Or.inl hc)⟩
    | _ => cases hpos
  · exact ⟨val, h.books.claimed t pos val hret, Or.inr (Or.inr hret)⟩

/-- **What the invariant means.** -/
theorem safe (htraced : Traced s) : Safe s where
  head_le := h.head_le
  tail_le := h.tail_le
  write_empty t val pos hc := by
    obtain ⟨_, _, hslot, _⟩ := h.callOk t _ hc
    rw [hslot]
  read_claimed t pos hc := by
    obtain ⟨_, _, ⟨val, hslot, hval⟩, _⟩ := h.callOk t _ hc
    exact ⟨val, by rw [hslot], hval⟩
  exclusive _ _ _ _ _ _ := h.exclusive
  push_claims := by
    rw [h.books.pushClaims]
    exact ⟨List.nodup_reverse.mpr List.nodup_range, by simp⟩
  pop_claims := by
    rw [h.books.popClaims]
    exact ⟨List.nodup_reverse.mpr List.nodup_range, by simp⟩
  claimed_unique _ _ _ := Claimed.unique <| by
    rw [h.books.pushClaims]
    exact List.nodup_reverse.mpr List.nodup_range
  kept _ := h.kept
  delivered _ _ := h.delivered htraced
  returned := ⟨h.books.nodup, fun t pos val hret =>
    ⟨(htraced.pop t pos).mpr (Or.inr ⟨val, hret⟩), h.books.claimed t pos val hret⟩⟩

end Inv

/-- **Slot safety and exactly-once delivery**: from two slots on, with any
threads making any calls and taking their steps in any order, `Safe` holds at
any time. -/
theorem safe_of_reachable [DecidableEq τ] (hpow : 1 ≤ pow) {s : State τ T pow}
    (hs : (system τ T w).Reachable s) : Safe s :=
  (inv_of_reachable hpow hs).safe (traced_of_reachable hs)

/-- Two producers and a consumer on two slots: the second producer fills its
slot while the first one, which claimed before it, has not written yet. -/
def overtaking : List (Fin 3 × Action ℕ) :=
  [(0, .call (.push 7)), (1, .call (.push 8)), (0, .step false), (1, .step false), (0, .step false),
    (0, .step false), (1, .step false), (1, .step false), (1, .step false), (1, .step false),
    (1, .step false), (1, .step false), (2, .call .pop), (2, .step false), (2, .step false)]

theorem safe_of_reachable_overtaking :
    ∃ s, (system (Fin 3) ℕ .twoSlots).run (system (Fin 3) ℕ .twoSlots).init overtaking = some s
      ∧ s.call 0 = some (pushWrite 7 0) ∧ s.call 1 = none ∧ s.inner.tail = 2
      ∧ Safe s := by
  have hrun : ((system (Fin 3) ℕ .twoSlots).run (system (Fin 3) ℕ .twoSlots).init
      overtaking).isSome := by decide
  exact ⟨_, (Option.some_get hrun).symm, rfl, rfl, rfl,
    safe_of_reachable (by decide) (System.Reachable.of_run (Option.some_get hrun).symm)⟩

end Mpmc
