import Algors.Queue.Spsc

/-!
# The single-producer single-consumer queue is a bounded FIFO

A call takes effect in the step that ends it: a push when it stores the tail,
or when it has reloaded the head and finds the queue full, and a pop when it
stores the head, or when it has reloaded the tail and finds the queue empty.
So the history, which has the calls in the order in which they returned, is a
run of the bounded FIFO, and what that run has stored at any time are the
values from the head to the tail.

The invariant gives each counter to the side that writes it: the other side's
copy is behind, by no more than a lap for the producer, and the slots from the
head to the tail have the stored values and the others none, except for the
slot that a side has written and not published, or read and not given back.
-/

namespace Spsc

variable {T : Type} {pow : ℕ}

open Call
open Fifo (Op Outcome Side)

/-! ## The invariant -/

/-- **What a call of the producer may rely on.** -/
def PushOk (q : Queue T pow) (op : Op T) : Call T → Prop
  | pushLoadTail val => op = .push val
  | pushLoadHead val t => op = .push val ∧ t = q.inner.tail
  | pushWrite val t => op = .push val ∧ t = q.inner.tail ∧ t < q.headCache + 2 ^ pow
  | pushStoreTail t => t = q.inner.tail ∧ t < q.headCache + 2 ^ pow
      ∧ ∃ val, op = .push val ∧ q.slot t = some val
  | _ => False

/-- **What a call of the consumer may rely on**, with these values stored. -/
def PopOk (q : Queue T pow) (stored : List T) (op : Op T) : Call T → Prop
  | popLoadHead => op = .pop
  | popLoadTail h => op = .pop ∧ h = q.inner.head
  | popRead h => op = .pop ∧ h = q.inner.head ∧ h < q.tailCache
  | popStoreHead h val => op = .pop ∧ h = q.inner.head ∧ h < q.tailCache ∧ q.slot h = none
      ∧ stored.head? = some val
  | _ => False

/-- The producer has written a slot and not published it. -/
def Writing (p : Option (Op T × Call T)) : Prop := ∃ op t, p = some (op, pushStoreTail t)

/-- The consumer has read a slot and not given it back. -/
def Reading (c : Option (Op T × Call T)) : Prop := ∃ op h val, c = some (op, popStoreHead h val)

/-- **The queue with these values stored**, its producer at `p` and its
consumer at `c`. -/
structure Inv (q : Queue T pow) (p c : Option (Op T × Call T)) (stored : List T) : Prop where
  tail_eq : q.inner.tail = q.inner.head + stored.length
  headCache_le : q.headCache ≤ q.inner.head
  tail_le : q.inner.tail ≤ q.headCache + 2 ^ pow
  head_le : q.inner.head ≤ q.tailCache
  tailCache_le : q.tailCache ≤ q.inner.tail
  pushOk : ∀ op call, p = some (op, call) → PushOk q op call
  popOk : ∀ op call, c = some (op, call) → PopOk q stored op call
  published : ∀ i (h : i < stored.length),
    q.slot (q.inner.head + i) = some stored[i] ∨ (i = 0 ∧ Reading c)
  free : ∀ pos, q.inner.tail ≤ pos → pos < q.inner.head + 2 ^ pow →
    q.slot pos = none ∨ (pos = q.inner.tail ∧ Writing p)

/-- A change of the slot of a position leaves the rest of its window alone. -/
theorem Queue.slot_setSlot_of_ne (q : Queue T pow) {n pos pos' : ℕ}
    (hpos : n ≤ pos ∧ pos < n + 2 ^ pow) (hpos' : n ≤ pos' ∧ pos' < n + 2 ^ pow) (hne : pos' ≠ pos)
    (slot : Option T) : (q.setSlot pos slot).slot pos' = q.slot pos' :=
  Ring.get_set_of_ne _ _ (Ring.mask_ne_of_window hpos' hpos hne)

namespace Inv

variable {q : Queue T pow} {p c : Option (Op T × Call T)} {stored : List T}

/-- The producer moves on between calls or steps that change no slot and no
counter but its own copy. -/
theorem movePush (h : Inv q p c stored) {headCache : ℕ} (hle : headCache ≤ q.inner.head)
    (hge : q.headCache ≤ headCache) (hnot : ¬ Writing p) {p' : Option (Op T × Call T)}
    (hok : ∀ op call, p' = some (op, call) → PushOk { q with headCache } op call) :
    Inv { q with headCache } p' c stored where
  tail_eq := h.tail_eq
  headCache_le := hle
  tail_le := h.tail_le.trans (Nat.add_le_add_right hge _)
  head_le := h.head_le
  tailCache_le := h.tailCache_le
  pushOk := hok
  popOk op call hc := by
    have := h.popOk op call hc
    cases call <;> exact this
  published := h.published
  free pos hle hlt := Or.inl ((h.free pos hle hlt).resolve_right fun hw => hnot hw.2)

/-- The consumer moves on likewise. -/
theorem movePop (h : Inv q p c stored) {tailCache : ℕ} (hle : tailCache ≤ q.inner.tail)
    (hge : q.tailCache ≤ tailCache) (hnot : ¬ Reading c) {c' : Option (Op T × Call T)}
    (hok : ∀ op call, c' = some (op, call) → PopOk { q with tailCache } stored op call) :
    Inv { q with tailCache } p c' stored where
  tail_eq := h.tail_eq
  headCache_le := h.headCache_le
  tail_le := h.tail_le
  head_le := h.head_le.trans hge
  tailCache_le := hle
  pushOk op call hp := by
    have := h.pushOk op call hp
    cases call <;> exact this
  popOk := hok
  published i hi := Or.inl ((h.published i hi).resolve_right fun hr => hnot hr.2)
  free := h.free

/-- **The producer writes the slot of the tail**, which is free. -/
theorem write (h : Inv q p c stored) {op : Op T} {val : T} {t : ℕ}
    (hp : p = some (op, pushWrite val t)) :
    Inv (q.setSlot t (some val)) (some (op, pushStoreTail t)) c stored := by
  obtain ⟨hop, ht, hlt⟩ := h.pushOk _ _ hp
  have htail := h.tail_eq
  have hhead := h.headCache_le
  have hwin : q.inner.head ≤ t ∧ t < q.inner.head + 2 ^ pow := by omega
  refine ⟨h.tail_eq, h.headCache_le, h.tail_le, h.head_le, h.tailCache_le, fun op' call hp' => ?_,
    fun op' call hc => ?_, fun i hi => ?_, fun pos hle hpos => ?_⟩
  · obtain ⟨rfl, rfl⟩ := Prod.mk.inj (Option.some.inj hp')
    exact ⟨ht, hlt, val, hop, Ring.get_set_self ..⟩
  · have hok := h.popOk op' call hc
    cases call with
    | popStoreHead h' val' =>
      obtain ⟨hop', hh, hlt', hslot, hhead'⟩ := hok
      have htc := h.tailCache_le
      refine ⟨hop', hh, hlt', ?_, hhead'⟩
      rw [q.slot_setSlot_of_ne hwin ⟨by omega, by omega⟩ (by omega)]
      exact hslot
    | _ => exact hok
  · refine (h.published i hi).imp (fun hslot => ?_) id
    show (q.setSlot t (some val)).slot (q.inner.head + i) = _
    rw [q.slot_setSlot_of_ne hwin ⟨by omega, by omega⟩ (by omega)]
    exact hslot
  · change q.inner.tail ≤ pos at hle
    change pos < q.inner.head + 2 ^ pow at hpos
    by_cases heq : pos = q.inner.tail
    · exact Or.inr ⟨heq, op, t, rfl⟩
    · refine Or.inl ?_
      rw [q.slot_setSlot_of_ne hwin ⟨by omega, hpos⟩ (by omega)]
      exact (h.free pos hle hpos).resolve_right fun hw => heq hw.1

/-- **The producer publishes the slot**, and its push is done. -/
theorem storeTail (h : Inv q p c stored) {op : Op T} {t : ℕ}
    (hp : p = some (op, pushStoreTail t)) :
    Fifo.apply (2 ^ pow) stored op = ((Fifo.apply (2 ^ pow) stored op).1, .pushed)
      ∧ Inv { q with inner.tail := t + 1 } none c (Fifo.apply (2 ^ pow) stored op).1 := by
  obtain ⟨rfl, hlt, val, rfl, hslot⟩ := h.pushOk _ _ hp
  have htail := h.tail_eq
  have hhead := h.headCache_le
  have hroom : stored.length < 2 ^ pow := by omega
  simp only [Fifo.apply, if_pos hroom, true_and]
  refine ⟨?_, h.headCache_le, hlt, h.head_le, Nat.le_succ_of_le h.tailCache_le,
    fun op' call hp => (by cases hp), fun op' call hc => ?_, fun i hi => ?_,
    fun pos hle hpos => ?_⟩
  · show q.inner.tail + 1 = q.inner.head + (stored ++ [val]).length
    rw [List.length_append, List.length_singleton, htail, Nat.add_assoc]
  · have hok := h.popOk op' call hc
    cases call with
    | popStoreHead h' val' =>
      obtain ⟨hop', hh, hlt', hslot', hhead'⟩ := hok
      exact ⟨hop', hh, hlt', hslot', by rw [List.head?_append, hhead']; rfl⟩
    | _ => exact hok
  · rw [List.length_append, List.length_singleton] at hi
    show q.slot (q.inner.head + i) = _ ∨ _
    by_cases heq : i = stored.length
    · subst heq
      rw [List.getElem_concat_length rfl, ← htail]
      exact Or.inl hslot
    · rw [List.getElem_append_left (by omega)]
      exact h.published i (by omega)
  · change q.inner.tail + 1 ≤ pos at hle
    exact Or.inl ((h.free pos (by omega) hpos).resolve_right fun hw => by omega)

/-- **The consumer reads the slot of the head**, which has the oldest value. -/
theorem read (h : Inv q p c stored) {op : Op T} {pos : ℕ} (hc : c = some (op, popRead pos))
    {val : T}
    (hval : q.slot pos = some val) :
    Inv (q.setSlot pos none) p (some (op, popStoreHead pos val)) stored := by
  obtain ⟨hop, rfl, hlt⟩ := h.popOk _ _ hc
  have htail := h.tail_eq
  have hhead := h.headCache_le
  have htc := h.tailCache_le
  have htl := h.tail_le
  have hwin : q.inner.head ≤ q.inner.head ∧ q.inner.head < q.inner.head + 2 ^ pow := by omega
  have hnot : ¬ Reading c := by
    rintro ⟨op', h', val', hr⟩
    rw [hc] at hr
    cases hr
  have hfirst : stored.head? = some val := by
    have hslot := (h.published 0 (by omega)).resolve_right fun hr => hnot hr.2
    rw [Nat.add_zero, hval] at hslot
    rw [List.head?_eq_getElem?, List.getElem?_eq_getElem (by omega)]
    exact hslot.symm
  refine ⟨h.tail_eq, h.headCache_le, h.tail_le, h.head_le, h.tailCache_le, fun op' call hp => ?_,
    fun op' call hc' => ?_, fun i hi => ?_, fun pos hle hpos => ?_⟩
  · have hok := h.pushOk op' call hp
    cases call with
    | pushStoreTail t =>
      obtain ⟨ht, hlt', val', hop', hslot⟩ := hok
      refine ⟨ht, hlt', val', hop', ?_⟩
      rw [q.slot_setSlot_of_ne hwin ⟨by omega, by omega⟩ (by omega)]
      exact hslot
    | _ => exact hok
  · obtain ⟨rfl, rfl⟩ := Prod.mk.inj (Option.some.inj hc')
    exact ⟨hop, rfl, hlt, Ring.get_set_self .., hfirst⟩
  · show (q.setSlot q.inner.head none).slot (q.inner.head + i) = _ ∨ _
    by_cases heq : i = 0
    · exact Or.inr ⟨heq, op, q.inner.head, val, rfl⟩
    · refine Or.inl ?_
      rw [q.slot_setSlot_of_ne hwin ⟨by omega, by omega⟩ (by omega)]
      exact (h.published i hi).resolve_right fun hr => heq hr.1
  · change q.inner.tail ≤ pos at hle
    change pos < q.inner.head + 2 ^ pow at hpos
    rw [q.slot_setSlot_of_ne hwin ⟨by omega, hpos⟩ (by omega)]
    exact h.free pos hle hpos

/-- **The consumer gives the slot back**, and its pop is done. -/
theorem storeHead (h : Inv q p c stored) {op : Op T} {pos : ℕ} {val : T}
    (hc : c = some (op, popStoreHead pos val)) :
    Fifo.apply (2 ^ pow) stored op = ((Fifo.apply (2 ^ pow) stored op).1, .popped val)
      ∧ Inv { q with inner.head := pos + 1 } p none (Fifo.apply (2 ^ pow) stored op).1 := by
  obtain ⟨rfl, rfl, hlt, hslot, hfirst⟩ := h.popOk _ _ hc
  obtain ⟨rest, rfl⟩ : ∃ rest, stored = val :: rest := by
    cases stored with
    | nil => cases hfirst
    | cons a rest => exact ⟨rest, by rw [Option.some.inj hfirst]⟩
  have htail := h.tail_eq
  rw [List.length_cons] at htail
  refine ⟨rfl, ?_⟩
  show Inv { q with inner.head := q.inner.head + 1 } p none rest
  refine ⟨?_, Nat.le_succ_of_le h.headCache_le, h.tail_le, hlt, h.tailCache_le,
    fun op' call hp => ?_,
    nofun, fun i hi => ?_, fun pos hle hpos => ?_⟩
  · show q.inner.tail = q.inner.head + 1 + rest.length
    omega
  · have hok := h.pushOk op' call hp
    cases call <;> exact hok
  · have hi' : i + 1 < (val :: rest).length := Nat.succ_lt_succ hi
    have hnext := (h.published (i + 1) hi').resolve_right fun hr => by omega
    rw [← Nat.add_assoc, Nat.add_right_comm] at hnext
    exact Or.inl hnext
  · change q.inner.tail ≤ pos at hle
    change pos < q.inner.head + 1 + 2 ^ pow at hpos
    by_cases heq : pos = q.inner.head + 2 ^ pow
    · refine Or.inl ?_
      rw [heq]
      exact (Ring.get_add_len ..).trans hslot
    · exact h.free pos hle (by omega)

/-- **A step of the producer** changes nothing of what is stored, or ends its
call with what the bounded FIFO does. -/
theorem stepPush (h : Inv q p c stored) {op : Op T} {call : Call T} (hp : p = some (op, call))
    {q' : Queue T pow} {r : Call T ⊕ Outcome T} (hstep : ExecStep q call q' r) :
    (∃ call', r = .inl call' ∧ Inv q' (some (op, call')) c stored)
      ∨ ∃ o stored', r = .inr o ∧ Fifo.apply (2 ^ pow) stored op = (stored', o)
        ∧ Inv q' none c stored' := by
  have hok := h.pushOk op call hp
  have htail := h.tail_eq
  have hle := h.tail_le
  have hhead := h.headCache_le
  have hnot : ∀ op' call', p = some (op', call') → (∀ t, call' ≠ pushStoreTail t) →
      ¬ Writing p := by
    rintro op' call' hp' hne ⟨op'', t, hw⟩
    exact hne t (Prod.mk.inj (Option.some.inj (hp'.symm.trans hw))).2
  cases hstep with
  | pushReload val heq =>
    refine Or.inl ⟨_, rfl, h.movePush hhead le_rfl (hnot op _ hp nofun) fun op' call' hp' => ?_⟩
    obtain ⟨rfl, rfl⟩ := Prod.mk.inj (Option.some.inj hp')
    exact ⟨hok, rfl⟩
  | pushCached val hne =>
    refine Or.inl ⟨_, rfl, h.movePush hhead le_rfl (hnot op _ hp nofun) fun op' call' hp' => ?_⟩
    obtain ⟨rfl, rfl⟩ := Prod.mk.inj (Option.some.inj hp')
    exact ⟨hok, rfl, Nat.lt_of_le_of_ne hle hne⟩
  | pushFull val t heq =>
    obtain ⟨rfl, rfl⟩ := hok
    have hfull : ¬ stored.length < 2 ^ pow := by omega
    exact Or.inr ⟨.full val, stored, rfl, if_neg hfull,
      h.movePush le_rfl hhead (hnot _ _ hp nofun) nofun⟩
  | pushRoom val t hne =>
    obtain ⟨rfl, rfl⟩ := hok
    refine Or.inl ⟨_, rfl, h.movePush le_rfl hhead (hnot _ _ hp nofun) fun op' call' hp' => ?_⟩
    obtain ⟨rfl, rfl⟩ := Prod.mk.inj (Option.some.inj hp')
    exact ⟨rfl, rfl, by dsimp only; omega⟩
  | pushWrite val t => exact Or.inl ⟨_, rfl, h.write hp⟩
  | pushStoreTail t =>
    obtain ⟨happly, hinv⟩ := h.storeTail hp
    exact Or.inr ⟨_, _, rfl, happly, hinv⟩
  | _ => exact hok.elim

/-- **A step of the consumer**, likewise. -/
theorem stepPop (h : Inv q p c stored) {op : Op T} {call : Call T} (hc : c = some (op, call))
    {q' : Queue T pow} {r : Call T ⊕ Outcome T} (hstep : ExecStep q call q' r) :
    (∃ call', r = .inl call' ∧ Inv q' p (some (op, call')) stored)
      ∨ ∃ o stored', r = .inr o ∧ Fifo.apply (2 ^ pow) stored op = (stored', o)
        ∧ Inv q' p none stored' := by
  have hok := h.popOk op call hc
  have htail := h.tail_eq
  have hle := h.tailCache_le
  have hhead := h.head_le
  have hnot : ∀ op' call', c = some (op', call') → (∀ pos val, call' ≠ popStoreHead pos val) →
      ¬ Reading c := by
    rintro op' call' hc' hne ⟨op'', pos, val, hr⟩
    exact hne pos val (Prod.mk.inj (Option.some.inj (hc'.symm.trans hr))).2
  cases hstep with
  | popReload heq =>
    refine Or.inl ⟨_, rfl, h.movePop hle le_rfl (hnot op _ hc nofun) fun op' call' hc' => ?_⟩
    obtain ⟨rfl, rfl⟩ := Prod.mk.inj (Option.some.inj hc')
    exact ⟨hok, rfl⟩
  | popCached hne =>
    refine Or.inl ⟨_, rfl, h.movePop hle le_rfl (hnot op _ hc nofun) fun op' call' hc' => ?_⟩
    obtain ⟨rfl, rfl⟩ := Prod.mk.inj (Option.some.inj hc')
    exact ⟨hok, rfl, Nat.lt_of_le_of_ne hhead (Ne.symm hne)⟩
  | popEmpty pos heq =>
    obtain ⟨rfl, rfl⟩ := hok
    have hnil : stored = [] := List.eq_nil_of_length_eq_zero (by omega)
    exact Or.inr ⟨.empty, stored, rfl, by rw [hnil]; rfl,
      h.movePop le_rfl hle (hnot _ _ hc nofun) nofun⟩
  | popSome pos hne =>
    obtain ⟨rfl, rfl⟩ := hok
    refine Or.inl ⟨_, rfl, h.movePop le_rfl hle (hnot _ _ hc nofun) fun op' call' hc' => ?_⟩
    obtain ⟨rfl, rfl⟩ := Prod.mk.inj (Option.some.inj hc')
    exact ⟨rfl, rfl, by dsimp only; omega⟩
  | popRead pos val hslot => exact Or.inl ⟨_, rfl, h.read hc hslot⟩
  | popStoreHead pos val =>
    obtain ⟨happly, hinv⟩ := h.storeHead hc
    exact Or.inr ⟨_, _, rfl, happly, hinv⟩
  | _ => exact hok.elim

end Inv

/-! ## Every run -/

/-- **The invariant of a state**: the history is a run of the bounded FIFO, and
the queue has what that run has stored. -/
def State.Holds (s : State T pow) (stored : List T) : Prop :=
  Fifo.Serial (2 ^ pow) s.history stored
    ∧ Inv s.queue (s.call .producer) (s.call .consumer) stored

theorem holds_init : (system T pow).init.Holds [] := by
  refine ⟨Fifo.Serial.nil _, rfl, le_rfl, Nat.zero_le _, le_rfl, le_rfl, nofun, nofun, nofun, ?_⟩
  exact fun pos _ _ => Or.inl rfl

/-- A step of one side, from what it does to the queue and the side. -/
theorem holds_advance {s : State T pow} {side : Side} {op : Op T} {q : Queue T pow}
    {r : Call T ⊕ Outcome T} {stored : List T} (hserial : Fifo.Serial (2 ^ pow) s.history stored)
    (h : (∃ call, r = .inl call ∧ Inv q (Function.update s.call side (some (op, call)) .producer)
        (Function.update s.call side (some (op, call)) .consumer) stored)
      ∨ ∃ o stored', r = .inr o ∧ Fifo.apply (2 ^ pow) stored op = (stored', o)
        ∧ Inv q (Function.update s.call side none .producer)
          (Function.update s.call side none .consumer) stored') :
    ∃ stored', (s.advance side op q r).Holds stored' := by
  rcases h with ⟨call, rfl, hinv⟩ | ⟨o, stored', rfl, happly, hinv⟩
  · exact ⟨stored, hserial, hinv⟩
  · exact ⟨stored', hserial.snoc happly, hinv⟩

/-- **Every reachable state has the invariant.** -/
theorem holds_of_reachable {s : State T pow} (hs : (system T pow).Reachable s) :
    ∃ stored, s.Holds stored := by
  refine System.ReachableWhile.invariant (I := fun s => ∃ stored, s.Holds stored) hs
    ⟨[], holds_init⟩ ?_
  rintro s a s' _ ⟨stored, hserial, hinv⟩ _ hnext
  rcases system_next_cases hnext with ⟨op, hnone, rfl⟩ | ⟨side, op, c, q, r, hc, hstep, rfl⟩
  · refine ⟨stored, hserial, ?_⟩
    cases op with
    | push val =>
      refine hinv.movePush hinv.headCache_le le_rfl ?_ fun op call hcall => ?_
      · rintro ⟨op, t, hw⟩
        cases hnone.symm.trans hw
      · obtain ⟨rfl, rfl⟩ := Prod.mk.inj (Option.some.inj hcall)
        exact rfl
    | pop =>
      refine hinv.movePop hinv.tailCache_le le_rfl ?_ fun op call hcall => ?_
      · rintro ⟨op, pos, val, hr⟩
        cases hnone.symm.trans hr
      · obtain ⟨rfl, rfl⟩ := Prod.mk.inj (Option.some.inj hcall)
        exact rfl
  · refine holds_advance hserial ?_
    cases side with
    | producer => exact hinv.stepPush hc hstep
    | consumer => exact hinv.stepPop hc hstep

/-- **What holds at any time**, with these values stored. -/
structure Linear (s : State T pow) (stored : List T) : Prop where
  /-- The calls that returned are a run of the bounded FIFO, in that order. -/
  serial : Fifo.Serial (2 ^ pow) s.history stored
  /-- What was popped was pushed before, in that order. -/
  inOrder : Fifo.popped s.history <+: Fifo.pushed s.history
  tail_eq : s.queue.inner.tail = s.queue.inner.head + stored.length
  head_le : s.queue.inner.head ≤ s.queue.inner.tail
  tail_le : s.queue.inner.tail ≤ s.queue.inner.head + 2 ^ pow
  headCache_le : s.queue.headCache ≤ s.queue.inner.head
  tailCache_le : s.queue.tailCache ≤ s.queue.inner.tail
  /-- The producer writes no slot with an unread value. -/
  write_empty : ∀ op val t, s.call .producer = some (op, pushWrite val t) →
    s.queue.slot t = none
  /-- The consumer reads no slot without a value. -/
  read_written : ∀ op pos, s.call .consumer = some (op, popRead pos) →
    ∃ val, stored.head? = some val ∧ s.queue.slot pos = some val
  /-- A push gives its value back only when it has just found the queue full. -/
  full : ∀ op c q o, s.call .producer = some (op, c) → exec s.queue c = some (q, .inr o) →
    o ≠ .pushed → (∃ t val, c = pushLoadHead val t ∧ o = .full val ∧ op = .push val)
      ∧ stored.length = 2 ^ pow
  /-- A pop gives up only when it has just found the queue empty. -/
  empty : ∀ op c q, s.call .consumer = some (op, c) → exec s.queue c = some (q, .inr .empty) →
    (∃ h, c = popLoadTail h) ∧ stored = []
  /-- Where the cached head tells of room, the head does. -/
  cached_room : (s.queue.inner.tail : ℤ) - s.queue.headCache ≠ s.queue.len →
    (s.queue.inner.tail : ℤ) - s.queue.inner.head ≠ s.queue.len
  /-- Where the cached tail tells of a value, the tail does. -/
  cached_some : (s.queue.tailCache : ℤ) - s.queue.inner.head ≠ 0 →
    (s.queue.inner.tail : ℤ) - s.queue.inner.head ≠ 0

namespace State.Holds

variable {s : State T pow} {stored : List T} (h : s.Holds stored)

include h

theorem write_empty {op : Op T} {val : T} {t : ℕ}
    (hcall : s.call .producer = some (op, pushWrite val t)) : s.queue.slot t = none := by
  obtain ⟨_, rfl, hlt⟩ := h.2.pushOk _ _ hcall
  have hhead := h.2.headCache_le
  refine (h.2.free _ le_rfl (by omega)).resolve_right fun ⟨_, op', t', hw⟩ => ?_
  cases hcall.symm.trans hw

theorem read_written {op : Op T} {pos : ℕ} (hcall : s.call .consumer = some (op, popRead pos)) :
    ∃ val, stored.head? = some val ∧ s.queue.slot pos = some val := by
  obtain ⟨_, rfl, hlt⟩ := h.2.popOk _ _ hcall
  have htail := h.2.tail_eq
  have hle := h.2.tailCache_le
  have hpos : 0 < stored.length := by omega
  refine ⟨stored[0], by rw [List.head?_eq_getElem?, List.getElem?_eq_getElem hpos], ?_⟩
  refine (h.2.published 0 hpos).resolve_right fun ⟨_, op', pos', val, hr⟩ => ?_
  cases hcall.symm.trans hr

theorem full {op : Op T} {c : Call T} {q : Queue T pow} {o : Outcome T}
    (hcall : s.call .producer = some (op, c)) (hexec : exec s.queue c = some (q, .inr o))
    (ho : o ≠ .pushed) : (∃ t val, c = pushLoadHead val t ∧ o = .full val ∧ op = .push val)
      ∧ stored.length = 2 ^ pow := by
  have hok := h.2.pushOk _ _ hcall
  have htail := h.2.tail_eq
  have hstep := execStep_of_exec hexec
  cases hstep with
  | pushFull val t heq => exact ⟨⟨t, val, rfl, rfl, hok.1⟩, by have := hok.2; omega⟩
  | pushStoreTail t => exact absurd rfl ho
  | popEmpty pos heq => exact hok.elim
  | popStoreHead pos val => exact hok.elim

theorem empty {op : Op T} {c : Call T} {q : Queue T pow}
    (hcall : s.call .consumer = some (op, c)) (hexec : exec s.queue c = some (q, .inr .empty)) :
    (∃ pos, c = popLoadTail pos) ∧ stored = [] := by
  have hok := h.2.popOk _ _ hcall
  have htail := h.2.tail_eq
  have hstep := execStep_of_exec hexec
  cases hstep with
  | popEmpty pos heq =>
    exact ⟨⟨pos, rfl⟩, List.eq_nil_of_length_eq_zero (by have := hok.2; omega)⟩

/-- **What the invariant means.** -/
theorem linear : Linear s stored := by
  have htail := h.2.tail_eq
  have hle := h.2.tail_le
  have hhead := h.2.headCache_le
  have hhead' := h.2.head_le
  have hcache := h.2.tailCache_le
  exact
    { serial := h.1
      inOrder := ⟨stored, h.1.pushed_eq.symm⟩
      tail_eq := htail
      head_le := by omega
      tail_le := by omega
      headCache_le := hhead
      tailCache_le := hcache
      write_empty := fun _ _ _ => h.write_empty
      read_written := fun _ _ => h.read_written
      full := fun _ _ _ _ => h.full
      empty := fun _ _ _ => h.empty
      cached_room := by rw [Queue.len]; omega
      cached_some := by omega }

end State.Holds

/-- **The queue is linearizable**: with any capacity and the two sides making
calls and taking their steps in any order, `Linear` holds at any time. -/
theorem linear_of_reachable {s : State T pow} (hs : (system T pow).Reachable s) :
    ∃ stored, Linear s stored := by
  obtain ⟨stored, h⟩ := holds_of_reachable hs
  exact ⟨stored, h.linear⟩

/-- One slot: a push, a push that finds the queue full although a pop has read
the value already, and a push that reloads the head after the pop. -/
def oneSlot : List (Action ℕ) :=
  [.call (.push 7), .step .producer, .step .producer, .step .producer,
    .call .pop, .step .consumer, .step .consumer, .step .consumer,
    .call (.push 8), .step .producer, .step .producer,
    .step .consumer, .call (.push 9), .step .producer, .step .producer, .step .producer,
    .step .producer]

theorem linear_of_reachable_oneSlot :
    ∃ s stored, (system ℕ 0).run (system ℕ 0).init oneSlot = some s
      ∧ s.history = [(.push 7, .pushed), (.push 8, .full 8), (.pop, .popped 7), (.push 9, .pushed)]
      ∧ Linear s stored := by
  have hrun : ((system ℕ 0).run (system ℕ 0).init oneSlot).map State.history
      = some [(.push 7, .pushed), (.push 8, .full 8), (.pop, .popped 7), (.push 9, .pushed)] := rfl
  obtain ⟨s, hs, hhistory⟩ := Option.map_eq_some_iff.mp hrun
  obtain ⟨stored, hlinear⟩ := linear_of_reachable (System.Reachable.of_run hs)
  exact ⟨s, stored, hs, hhistory, hlinear⟩

end Spsc
