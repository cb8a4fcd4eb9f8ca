import Algors.Queue.MpmcFifo
import Algors.Queue.MpmcOrder
import Algors.Queue.SpscLinear

/-!
# What becomes of the values

When the last handle is released, no call is under way, and `Inner::drop` drops
what is left. For both queues that is what was pushed and not popped: the
values from the head to the tail. The single-producer queue drops all of these
slots; the multi-producer queue looks at their sequence numbers too, and with
no call under way each of them is published.

So no value is lost and none is used twice. A value given to `try_push` is
handed back by it or accepted, and an accepted one is returned by one
`try_pop` or left. In the multi-producer queue the threads keep their own
accounts: what a thread gave, it was handed back, or it claimed a position
for, or it still holds in a call. The positions settle the rest: each below
the tail is claimed by one push, and returned by one pop if it is below the
head.

Where values of the type need no drop, `Inner::drop` leaves them alone.
-/

open Fifo (Op Outcome Side)

/-! ## One producer and one consumer -/

namespace Spsc

variable {T : Type} {pow : ℕ}

/-- **What is left**, and what dropping it does. -/
structure Left (needsDrop : Bool) (s : State T pow) (left : List T) (q : Inner T pow) : Prop where
  /-- A value given to a push is handed back or accepted. -/
  given : (Fifo.given s.history).Perm (Fifo.handedBack s.history ++ Fifo.pushed s.history)
  /-- An accepted value is popped or left, in the order of the pushes. -/
  pushed : Fifo.pushed s.history = Fifo.popped s.history ++ left
  /-- What is left is dropped, once. -/
  drop : s.queue.inner.drop needsDrop = some (q, if needsDrop then left else [])
  /-- No other slot is touched. -/
  untouched : ∀ pos, s.queue.inner.tail ≤ pos → pos < s.queue.inner.head + 2 ^ pow →
    Ring.get q.buf pos = s.queue.slot pos
  /-- No value stays in the queue. -/
  emptied : needsDrop = true → ∀ pos, s.queue.inner.head ≤ pos →
    pos < s.queue.inner.head + 2 ^ pow → Ring.get q.buf pos = none

/-- **The loop of `Inner::drop`** drops the values from the head to the tail
and empties their slots. -/
theorem Inner.drop_eq {q : Inner T pow} {vals : List T} (htail : q.tail = q.head + vals.length)
    (hlap : vals.length ≤ 2 ^ pow)
    (hslot : ∀ i (h : i < vals.length), Ring.get q.buf (q.head + i) = some vals[i]) :
    ∃ q', q.drop true = some (q', vals)
      ∧ Ring.ChangedTo (fun _ => none) q.buf q.head q.tail q'.buf := by
  obtain ⟨q', hwalk, hq⟩ := Ring.walk_eq Inner.dropSlot
    (fun pos q' => Ring.ChangedTo (fun _ => none) q.buf q.head pos q'.buf) vals q.head
    (Ring.ChangedTo.start _ q.buf q.head) fun i hi q' hq' => by
      have hread : Ring.get q'.buf (q.head + i) = some vals[i] :=
        (hq'.rest _ le_rfl (by omega)).trans (hslot i hi)
      exact ⟨{ q' with buf := Ring.set q'.buf (q.head + i) none }, by simp [Inner.dropSlot, hread],
        hq'.step ⟨Nat.le_add_right _ _, by omega⟩⟩
  refine ⟨q', ?_, htail ▸ hq⟩
  show Ring.walk _ (q.tail - q.head) _ _ = _
  rw [htail, Nat.add_sub_cancel_left]
  exact hwalk

/-- **With no call under way**, what the history has stored is left, and is
dropped. -/
theorem exists_left {s : State T pow} (hs : (system T pow).Reachable s)
    (hidle : ∀ k, s.call k = none) (needsDrop : Bool) : ∃ left q, Left needsDrop s left q := by
  obtain ⟨left, hserial, hinv⟩ := holds_of_reachable hs
  have htail := hinv.tail_eq
  have hlap : left.length ≤ 2 ^ pow := by
    have := hinv.tail_le
    have := hinv.headCache_le
    omega
  have hpublished : ∀ i (h : i < left.length),
      s.queue.slot (s.queue.inner.head + i) = some left[i] := fun i hi =>
    (hinv.published i hi).resolve_right fun ⟨_, op, pos, val, hr⟩ => by
      cases (hidle .consumer).symm.trans hr
  have hfree : ∀ pos, s.queue.inner.tail ≤ pos → pos < s.queue.inner.head + 2 ^ pow →
      s.queue.slot pos = none := fun pos hle hlt =>
    (hinv.free pos hle hlt).resolve_right fun ⟨_, op, t, hw⟩ => by
      cases (hidle .producer).symm.trans hw
  cases needsDrop with
  | false =>
    exact ⟨left, s.queue.inner, hserial.given_perm, hserial.pushed_eq, rfl, fun _ _ _ => rfl,
      fun h => absurd h Bool.false_ne_true⟩
  | true =>
    obtain ⟨q, hdrop, hq⟩ := Inner.drop_eq htail hlap hpublished
    refine ⟨left, q, hserial.given_perm, hserial.pushed_eq, hdrop, hq.rest, fun _ pos hle hlt => ?_⟩
    rcases Nat.lt_or_ge pos s.queue.inner.tail with hbelow | hfrom
    · exact hq.changed pos hle hbelow
    · exact (hq.rest pos hfrom hlt).trans (hfree pos hfrom hlt)

end Spsc

/-! ## Any number of producers and consumers -/

namespace Mpmc

variable {T τ : Type} {pow : ℕ} {w : Width pow}

open Call

/-- The value an event gives to a push. -/
def Event.gives : Event T → Option T
  | .called (.push val) => some val
  | _ => none

/-- The value an event hands back. -/
def Event.handsBack : Event T → Option T
  | .returnedFull val => some val
  | _ => none

/-- The value an event claims a position for. -/
def Event.accepts : Event T → Option T
  | .claimedPush _ val => some val
  | _ => none

/-- The values of the events, each with its thread. -/
def tagged (f : Event T → Option T) (h : List (τ × Event T)) : List (τ × T) :=
  h.filterMap fun e => (f e.2).map fun val => (e.1, val)

/-- The values given to pushes, each with the thread that gave it. -/
abbrev given (h : List (τ × Event T)) : List (τ × T) := tagged Event.gives h

/-- The values handed back by pushes, each with the thread that has it again. -/
abbrev handedBack (h : List (τ × Event T)) : List (τ × T) := tagged Event.handsBack h

/-- The values for which a position was claimed, each with the thread that gave
it. -/
abbrev accepted (h : List (τ × Event T)) : List (τ × T) := tagged Event.accepts h

/-- The same values, each with its position. -/
def acceptedAt (h : List (τ × Event T)) : List (ℕ × T) :=
  h.filterMap fun e => match e.2 with
    | .claimedPush pos val => some (pos, val)
    | _ => none

/-- The values returned by pops, each with its position. -/
def poppedAt (h : List (τ × Event T)) : List (ℕ × T) :=
  h.filterMap fun e => match e.2 with
    | .returnedPop pos val => some (pos, val)
    | _ => none

/-- The value a call still holds, for which it has claimed no position yet. -/
def Call.pending : Call T → Option T
  | pushLoadTail val | pushLoadSeq val _ | pushCas val _ => some val
  | _ => none

/-! ### The account of a thread -/

section Account

/-- The value a thread still holds in its call. -/
def held (c : Option (Call T)) : Option T := c.bind Call.pending

/-- **A step passes the value on**: it stays in the call, or it is handed back,
or a position is claimed for it. -/
theorem ExecStep.account {q q' : Inner T pow} {c : Call T} {r : Call T ⊕ Outcome T}
    (h : ExecStep w q c q' r) :
    (Event.of c r).bind Event.gives = none
      ∧ ((held (r.elim some fun _ => none) = c.pending
          ∧ (Event.of c r).bind Event.handsBack = none ∧ (Event.of c r).bind Event.accepts = none)
        ∨ (held (r.elim some fun _ => none) = none
          ∧ (Event.of c r).bind Event.handsBack = c.pending
          ∧ (Event.of c r).bind Event.accepts = none)
        ∨ (held (r.elim some fun _ => none) = none
          ∧ (Event.of c r).bind Event.handsBack = none
          ∧ (Event.of c r).bind Event.accepts = c.pending)) := by
  cases h with
  | pushFull val idx hseq => exact ⟨rfl, Or.inr (Or.inl ⟨rfl, rfl, rfl⟩)⟩
  | pushClaim val => exact ⟨rfl, Or.inr (Or.inr ⟨rfl, rfl, rfl⟩)⟩
  | _ => exact ⟨rfl, Or.inl ⟨rfl, rfl, rfl⟩⟩

variable [DecidableEq τ] [DecidableEq T] {s : State τ T pow}

/-- The values of the events after one more, if it was one. -/
theorem count_tagged (f : Event T → Option T) (e : Option (Event T)) (h : List (τ × Event T))
    (u t : τ) (val : T) : (tagged f ((e.map fun e => (u, e)).toList ++ h)).count (t, val)
      = (tagged f h).count (t, val) + if u = t ∧ e.bind f = some val then 1 else 0 := by
  cases e with
  | none => simp
  | some e => cases hf : f e <;> simp [tagged, hf, List.count_cons]

/-- **The account of a thread**: what it gave to pushes it was handed back, or a
position was claimed for it, or its call still holds it. -/
theorem count_given (hs : (system τ T w).Reachable s) (t : τ) (val : T) :
    (given s.history).count (t, val)
      = (handedBack s.history).count (t, val) + (accepted s.history).count (t, val)
        + if held (s.call t) = some val then 1 else 0 := by
  refine hs.invariant (I := fun s => ∀ t val, (given s.history).count (t, val)
      = (handedBack s.history).count (t, val) + (accepted s.history).count (t, val)
        + if held (s.call t) = some val then 1 else 0) ?_ ?_ t val
  · intro t val
    rfl
  · rintro s ⟨u, a⟩ s' _ ih - hnext t val
    have hold : (tagged Event.gives s.history).count (t, val)
        = (tagged Event.handsBack s.history).count (t, val)
          + (tagged Event.accepts s.history).count (t, val)
          + if held (s.call t) = some val then 1 else 0 := ih t val
    rcases system_next_cases hnext with ⟨hnone, op, rfl⟩ | ⟨c, q, r, hc, hstep, rfl⟩
    · -- the call gives the value that it holds
      have hcount := fun f => count_tagged f (some (.called op)) s.history u t val
      have hgives : Event.gives (.called op) = held (some (invoke op)) := by cases op <;> rfl
      simp only [Option.map_some, Option.toList_some, List.singleton_append,
        Option.bind_some] at hcount
      simp only [hcount, hgives]
      by_cases htu : u = t
      · subst htu
        rw [hnone] at hold
        simpa [Event.handsBack, Event.accepts, held] using hold
      · simpa [Event.handsBack, Event.accepts, htu, Ne.symm htu] using hold
    · simp only [State.advance]
      rw [count_tagged, count_tagged, count_tagged]
      by_cases htu : u = t
      · subst htu
        rw [hc] at hold
        simp only [Function.update_self, true_and]
        obtain ⟨hgives, ⟨hheld, hback, hacc⟩ | ⟨hheld, hback, hacc⟩ | ⟨hheld, hback, hacc⟩⟩ :=
          hstep.account
        all_goals
          rw [hgives, hheld, hback, hacc, hold]
          by_cases hval : c.pending = some val <;> simp [held, hval] <;> omega
      · simpa [htu, Ne.symm htu] using hold

end Account

/-! ### The account of the positions -/

section Positions

variable {h : List (τ × Event T)} {pos : ℕ} {val : T}

theorem mem_acceptedAt : (pos, val) ∈ acceptedAt h ↔ Claimed h pos val := by
  simp only [acceptedAt, List.mem_filterMap, Claimed, Prod.exists]
  constructor
  · rintro ⟨t, e, hmem, he⟩
    cases e with
    | claimedPush pos' val' =>
      obtain ⟨rfl, rfl⟩ := Prod.mk.inj (Option.some.inj he)
      exact ⟨t, hmem⟩
    | _ => cases he
  · rintro ⟨t, hmem⟩
    exact ⟨t, _, hmem, rfl⟩

theorem mem_poppedAt : (pos, val) ∈ poppedAt h ↔ ∃ t, (t, .returnedPop pos val) ∈ h := by
  simp only [poppedAt, List.mem_filterMap, Prod.exists]
  constructor
  · rintro ⟨t, e, hmem, he⟩
    cases e with
    | returnedPop pos' val' =>
      obtain ⟨rfl, rfl⟩ := Prod.mk.inj (Option.some.inj he)
      exact ⟨t, hmem⟩
    | _ => cases he
  · rintro ⟨t, hmem⟩
    exact ⟨t, _, hmem, rfl⟩

theorem map_fst_acceptedAt (h : List (τ × Event T)) :
    (acceptedAt h).map Prod.fst = pushPositions h := by
  rw [acceptedAt, List.map_filterMap, pushPositions]
  refine List.filterMap_congr fun e _ => ?_
  obtain ⟨t, e⟩ := e
  cases e <;> rfl

theorem map_fst_poppedAt (h : List (τ × Event T)) :
    (poppedAt h).map Prod.fst = returnedPositions h := by
  rw [poppedAt, List.map_filterMap, returnedPositions]
  refine List.filterMap_congr fun e _ => ?_
  obtain ⟨t, e⟩ := e
  cases e <;> rfl

theorem map_snd_acceptedAt (h : List (τ × Event T)) :
    (acceptedAt h).map Prod.snd = (accepted h).map Prod.snd := by
  rw [acceptedAt, accepted, tagged, List.map_filterMap, List.map_filterMap]
  refine List.filterMap_congr fun e _ => ?_
  obtain ⟨t, e⟩ := e
  cases e <;> rfl

end Positions

section Idle

variable {s : State τ T pow}

/-- **With no call under way the queue is as one caller leaves it**, with the
values that were pushed at the positions from the head to the tail. -/
theorem Inv.exists_stored (h : Inv s) (hidle : ∀ t, s.call t = none) :
    ∃ stored, Stored s.inner stored
      ∧ ∀ i (hi : i < stored.length), Claimed s.history (s.inner.head + i) stored[i] := by
  have hhead := h.head_le
  have htail := h.tail_le
  have hslot : ∀ pos, s.inner.head ≤ pos → pos < s.inner.head + 2 ^ pow →
      SlotOk s.inner s.history pos := fun pos hle hlt =>
    (h.window pos hle hlt).resolve_left fun ⟨t, c, hc, _⟩ => by cases (hidle t).symm.trans hc
  have hvalue : ∀ i : Fin (s.inner.tail - s.inner.head), ∃ val,
      s.inner.slot (s.inner.head + i) = ⟨s.inner.head + i + 1, some val⟩
        ∧ Claimed s.history (s.inner.head + i) val := by
    intro i
    have hi := i.isLt
    rcases hslot (s.inner.head + i) (Nat.le_add_right _ _) (by omega) with ⟨_, hval⟩ | ⟨hge, _⟩
    · exact hval
    · omega
  choose val hval using hvalue
  have hlen : (List.ofFn val).length = s.inner.tail - s.inner.head := List.length_ofFn
  refine ⟨List.ofFn val, ⟨by omega, by omega, fun i hi => ?_, fun pos hle hlt => ?_⟩,
    fun i hi => ?_⟩
  · rw [List.getElem_ofFn]
    exact (hval ⟨i, hlen ▸ hi⟩).1
  · rcases hslot pos (by omega) hlt with ⟨hlt', _⟩ | ⟨_, hfree⟩
    · omega
    · exact hfree
  · rw [List.getElem_ofFn]
    exact (hval ⟨i, hlen ▸ hi⟩).2

/-- **With no call under way, an accepted value was popped or is left**, by
their positions. -/
theorem Inv.acceptedAt_perm (h : Inv s) (htraced : Traced s) (hidle : ∀ t, s.call t = none)
    {left : List T} (hlen : left.length = s.inner.tail - s.inner.head)
    (hleft : ∀ i (hi : i < left.length), Claimed s.history (s.inner.head + i) left[i]) :
    (acceptedAt s.history).Perm (poppedAt s.history
      ++ (List.range' s.inner.head left.length).zip left) := by
  have hsafe := h.safe htraced
  have hzip : ((List.range' s.inner.head left.length).zip left).map Prod.fst
      = List.range' s.inner.head left.length := List.map_fst_zip (by simp)
  have hmem : ∀ pos val, (pos, val) ∈ (List.range' s.inner.head left.length).zip left →
      Claimed s.history pos val := by
    intro pos val hmem
    obtain ⟨i, hi, heq⟩ := List.getElem_of_mem hmem
    rw [List.getElem_zip] at heq
    obtain ⟨hpos, rfl⟩ := Prod.mk.inj heq
    rw [List.getElem_range', Nat.one_mul] at hpos
    exact hpos ▸ hleft i _
  refine (List.perm_ext_iff_of_nodup ?_ ?_).mpr ?_
  · exact List.Nodup.of_map Prod.fst (map_fst_acceptedAt s.history ▸ hsafe.push_claims.1)
  · refine List.Nodup.of_map Prod.fst ?_
    rw [List.map_append, map_fst_poppedAt, hzip]
    refine hsafe.returned.1.append List.nodup_range' fun pos hpop hpos => ?_
    have hlt := h.books.lt_head pos hpop
    rw [List.mem_range'_1] at hpos
    omega
  · rintro ⟨pos, val⟩
    rw [List.mem_append, mem_acceptedAt, mem_poppedAt]
    constructor
    · intro hclaimed
      have hlt := (hsafe.push_claims.2 pos).mp (mem_pushPositions.mpr ⟨val, hclaimed⟩)
      rcases Nat.lt_or_ge pos s.inner.head with hbelow | hfrom
      · -- a pop has claimed it, and has returned
        refine Or.inl ?_
        obtain ⟨t, ht⟩ := mem_popPositions.mp ((hsafe.pop_claims.2 pos).mpr hbelow)
        obtain ⟨val', hval', ⟨hcall, _⟩ | hcall | hret⟩ := hsafe.delivered t pos ht
        · cases (hidle t).symm.trans hcall
        · cases (hidle t).symm.trans hcall
        · exact ⟨t, hsafe.claimed_unique pos val val' hclaimed hval' ▸ hret⟩
      · refine Or.inr ?_
        have hpos : pos ∈ ((List.range' s.inner.head left.length).zip left).map Prod.fst := by
          rw [hzip, List.mem_range'_1]
          omega
        obtain ⟨⟨pos', val'⟩, hin, rfl⟩ := List.mem_map.mp hpos
        exact hsafe.claimed_unique _ val val' hclaimed (hmem _ _ hin) ▸ hin
    · rintro (⟨t, hret⟩ | hin)
      · exact (hsafe.returned.2 t pos val hret).2
      · exact hmem pos val hin

/-! ### Dropping what is left -/

/-- **What is left**, and what dropping it does. -/
structure Left (needsDrop : Bool) (s : State τ T pow) (left : List T) (q : Inner T pow) :
    Prop where
  /-- A value given to a push is handed back to its thread, or a position was
  claimed for it. -/
  given : (given s.history).Perm (handedBack s.history ++ accepted s.history)
  /-- A push that claimed a position returned `Ok(())`. -/
  pushed : ∀ t pos val, (t, .claimedPush pos val) ∈ s.history → (t, .returnedPush pos) ∈ s.history
  /-- No position is claimed twice. -/
  once : ((acceptedAt s.history).map Prod.fst).Nodup
  /-- The value of a position is popped or left. -/
  accepted : (acceptedAt s.history).Perm (poppedAt s.history
    ++ (List.range' s.inner.head (s.inner.tail - s.inner.head)).zip left)
  /-- All in all, a value given to a push is handed back, popped or left. -/
  values : ((Mpmc.given s.history).map Prod.snd).Perm ((handedBack s.history).map Prod.snd
    ++ ((poppedAt s.history).map Prod.snd ++ left))
  /-- What is left is dropped, once. -/
  drop : s.inner.drop needsDrop = some (q, if needsDrop then left else [])
  /-- No other slot is touched. -/
  untouched : ∀ pos, s.inner.tail ≤ pos → pos < s.inner.head + 2 ^ pow →
    q.slot pos = s.inner.slot pos
  /-- No value stays in the queue. -/
  emptied : needsDrop = true → ∀ pos, s.inner.head ≤ pos → pos < s.inner.head + 2 ^ pow →
    (q.slot pos).data = none

/-- **The loop of `Inner::drop`** drops the stored values and empties the
queue. -/
theorem Stored.drop {q : Inner T pow} {stored : List T} (h : Stored q stored) :
    ∃ q', q.drop true = some (q', stored)
      ∧ (∀ pos, q.tail ≤ pos → pos < q.head + 2 ^ pow → q'.slot pos = q.slot pos)
      ∧ ∀ pos, q.head ≤ pos → pos < q.head + 2 ^ pow → (q'.slot pos).data = none := by
  have htail := h.tail_eq
  have hlap := h.length_le
  obtain ⟨q', hwalk, hq⟩ := Ring.walk_eq Inner.dropSlot
    (fun pos q' => Ring.ChangedTo (fun slot => { slot with data := none }) q.buf q.head pos q'.buf)
    stored q.head (Ring.ChangedTo.start _ q.buf q.head) fun i hi q' hq' => by
      have hread : q'.slot (q.head + i) = q.slot (q.head + i) := hq'.rest _ le_rfl (by omega)
      have hnext := hq'.step ⟨Nat.le_add_right _ _, by omega⟩
      exact ⟨q'.setSlot (q.head + i) { q.slot (q.head + i) with data := none },
        by simp [Inner.dropSlot, hread, h.published i hi], hnext⟩
  rw [← htail] at hq
  refine ⟨q', ?_, hq.rest, fun pos hle hlt => ?_⟩
  · show Ring.walk _ (q.tail - q.head) _ _ = _
    rw [htail, Nat.add_sub_cancel_left]
    exact hwalk
  · rcases Nat.lt_or_ge pos q.tail with hbelow | hfrom
    · exact congrArg Slot.data (hq.changed pos hle hbelow)
    · exact congrArg Slot.data ((hq.rest pos hfrom hlt).trans (h.free pos hfrom hlt))

/-- **With no call under way**, what was pushed from the head to the tail is
left, and is dropped. -/
theorem exists_left [DecidableEq τ] (hpow : 1 ≤ pow) (hs : (system τ T w).Reachable s)
    (hidle : ∀ t, s.call t = none) (needsDrop : Bool) : ∃ left q, Left needsDrop s left q := by
  have h := inv_of_reachable hpow hs
  have htraced := traced_of_reachable hs
  obtain ⟨left, hstored, hclaimed⟩ := h.exists_stored hidle
  have hlen : left.length = s.inner.tail - s.inner.head := by
    have := hstored.tail_eq
    omega
  have hgiven : (given s.history).Perm (handedBack s.history ++ accepted s.history) := by
    classical
    refine List.perm_iff_count.mpr fun ⟨t, val⟩ => ?_
    rw [count_given hs, hidle t, List.count_append]
    rfl
  have haccepted := h.acceptedAt_perm htraced hidle hlen hclaimed
  have hvalues : ((accepted s.history).map Prod.snd).Perm
      ((poppedAt s.history).map Prod.snd ++ left) := by
    have hmap := haccepted.map Prod.snd
    rwa [map_snd_acceptedAt, List.map_append, List.map_snd_zip (by simp)] at hmap
  have haccount : ((given s.history).map Prod.snd).Perm ((handedBack s.history).map Prod.snd
      ++ ((poppedAt s.history).map Prod.snd ++ left)) := by
    have hmap := hgiven.map Prod.snd
    rw [List.map_append] at hmap
    exact hmap.trans (hvalues.append_left _)
  have hpushed : ∀ t pos val, (t, .claimedPush pos val) ∈ s.history →
      (t, .returnedPush pos) ∈ s.history := fun t pos val hmem =>
    ((htraced.push t pos).mp ⟨val, hmem⟩).resolve_left fun ⟨c, hc, _⟩ => by
      cases (hidle t).symm.trans hc
  have honce : ((acceptedAt s.history).map Prod.fst).Nodup := by
    rw [map_fst_acceptedAt]
    exact (h.safe htraced).push_claims.1
  rw [hlen] at haccepted
  cases needsDrop with
  | false =>
    exact ⟨left, s.inner, hgiven, hpushed, honce, haccepted, haccount, rfl, fun _ _ _ => rfl,
      fun hneeds => absurd hneeds Bool.false_ne_true⟩
  | true =>
    obtain ⟨q, hdrop, huntouched, hemptied⟩ := hstored.drop
    exact ⟨left, q, hgiven, hpushed, honce, haccepted, haccount, hdrop, huntouched,
      fun _ => hemptied⟩

end Idle

end Mpmc

/-! ## Both queues -/

namespace Disposal

/-- **Every accepted value is consumed or dropped exactly once**, for both
queues, after any run whose calls have all returned. -/
theorem exists_left_of_reachable {T : Type} (needsDrop : Bool) :
    (∀ (pow : ℕ) (s : Spsc.State T pow), (Spsc.system T pow).Reachable s →
      (∀ k, s.call k = none) → ∃ left q, Spsc.Left needsDrop s left q)
    ∧ ∀ (τ : Type) [DecidableEq τ] (pow : ℕ) (w : Mpmc.Width pow) (s : Mpmc.State τ T pow),
      1 ≤ pow → (Mpmc.system τ T w).Reachable s → (∀ t, s.call t = none) →
      ∃ left q, Mpmc.Left needsDrop s left q :=
  ⟨fun _ _ hs hidle => Spsc.exists_left hs hidle needsDrop,
    fun _ _ _ _ _ hpow hs hidle => Mpmc.exists_left hpow hs hidle needsDrop⟩

/-- Three pushes on two slots, the last of which is handed back, and a pop. -/
def threeAndOne {τ : Type} (producer consumer : τ) : List (τ × Mpmc.Action ℕ) :=
  (producer, .call (.push 7)) :: List.replicate 5 (producer, .step false)
    ++ (producer, .call (.push 8)) :: List.replicate 5 (producer, .step false)
    ++ (producer, .call (.push 9)) :: List.replicate 2 (producer, .step false)
    ++ (consumer, .call .pop) :: List.replicate 5 (consumer, .step false)

/-- One value is left, and dropped, on either queue. -/
theorem exists_left_of_reachable_one :
    (∃ s q, (Spsc.system ℕ 0).run (Spsc.system ℕ 0).init Spsc.oneSlot = some s
      ∧ Spsc.Left true s [9] q)
    ∧ ∃ s left q, (Mpmc.system Bool ℕ .twoSlots).run (Mpmc.system Bool ℕ .twoSlots).init
        (threeAndOne true false) = some s ∧ Mpmc.Left true s left q := by
  have hrun : ((Spsc.system ℕ 0).run (Spsc.system ℕ 0).init Spsc.oneSlot).map
      (fun s => (s.call .producer, s.call .consumer, s.history))
      = some (none, none, [(.push 7, .pushed), (.push 8, .full 8), (.pop, .popped 7),
        (.push 9, .pushed)]) := rfl
  have hrun' : ((Mpmc.system Bool ℕ .twoSlots).run (Mpmc.system Bool ℕ .twoSlots).init
      (threeAndOne true false)).map (fun s => (s.call true, s.call false))
      = some (none, none) := rfl
  obtain ⟨s, hs, heq⟩ := Option.map_eq_some_iff.mp hrun
  obtain ⟨s', hs', heq'⟩ := Option.map_eq_some_iff.mp hrun'
  simp only [Prod.mk.injEq] at heq heq'
  obtain ⟨left, q, hleft⟩ := (exists_left_of_reachable true).1 0 s (System.Reachable.of_run hs)
    fun k => by cases k; exacts [heq.1, heq.2.1]
  obtain ⟨left', q', hleft'⟩ := (exists_left_of_reachable true).2 Bool 1 .twoSlots s' le_rfl
    (System.Reachable.of_run hs') fun t => by cases t; exacts [heq'.2, heq'.1]
  have hpushed := hleft.pushed
  rw [heq.2.2] at hpushed
  obtain rfl : [9] = left := (List.cons.inj hpushed).2
  exact ⟨⟨s, q, hs, hleft⟩, s', left', q', hs', hleft'⟩

end Disposal
