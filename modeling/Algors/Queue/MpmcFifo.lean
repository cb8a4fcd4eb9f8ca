import Algors.Queue.Mpmc

/-!
# The queue used by one caller at a time

With no call under way but one, the queue is a bounded FIFO, and each call
ends: a retry is due to a compare-exchange that failed spuriously, since the
indices in hand are never stale. `finish` runs a call to its end, given how
often its compare-exchange fails first, and `runCalls` one call after another.

The sequence number of a slot with an element is one more than its position,
and that of a free slot is the position it is free for, a lap further. From
two slots on these differ, and a producer that comes to an element sees a
number below its own. With one slot, which `new` accepts, the element of
position `k` has the very number that frees the slot for position `k + 1`: a
push on the element overwrites it.
-/

namespace Mpmc

variable {T : Type} {pow : ℕ} {w : Width pow}

open Call
open Fifo (Outcome Op)

/-! ## Running a call alone -/

/-- A step that can fail spuriously. -/
def Call.isCas : Call T → Bool
  | pushCas _ _ | popCas _ => true
  | _ => false

/-- **A call run to its end**, the next `failures` of its compare-exchanges
failing spuriously. -/
def finish (w : Width pow) : ℕ → ℕ → Inner T pow → Call T → Option (Inner T pow × Outcome T)
  | 0, _, _, _ => none
  | fuel + 1, failures, q, c =>
    match exec w q (c.isCas && failures != 0) c with
    | none => none
    | some (q', .inr o) => some (q', o)
    | some (q', .inl c') => finish w fuel (if c.isCas then failures - 1 else failures) q' c'

/-- **Calls one after another**, each with the number of its spurious failures,
and what they return. -/
def runCalls (w : Width pow) (fuel : ℕ) : Inner T pow → List (Op T × ℕ) → Option (List (Outcome T))
  | _, [] => some []
  | q, (op, failures) :: calls =>
    (finish w fuel failures q (invoke op)).bind fun p => (runCalls w fuel p.1 calls).map (p.2 :: ·)

/-- More fuel does not change how a call ends. -/
theorem finish_mono {fuel fuel' failures : ℕ} {q : Inner T pow} {c : Call T}
    {r : Inner T pow × Outcome T} (h : finish w fuel failures q c = some r) (hle : fuel ≤ fuel') :
    finish w fuel' failures q c = some r := by
  induction fuel generalizing fuel' failures q c with
  | zero => cases h
  | succ fuel ih =>
    obtain ⟨fuel', rfl⟩ : ∃ n, fuel' = n + 1 := ⟨fuel' - 1, by omega⟩
    unfold finish at h ⊢
    cases hexec : exec w q (c.isCas && failures != 0) c with
    | none => rw [hexec] at h; cases h
    | some p =>
      obtain ⟨q', c' | o⟩ := p
      · rw [hexec] at h
        exact ih h (by omega)
      · rw [hexec] at h
        exact h

theorem runCalls_mono {fuel fuel' : ℕ} {q : Inner T pow} {calls : List (Op T × ℕ)}
    {os : List (Outcome T)} (h : runCalls w fuel q calls = some os) (hle : fuel ≤ fuel') :
    runCalls w fuel' q calls = some os := by
  induction calls generalizing q os with
  | nil => exact h
  | cons call calls ih =>
    obtain ⟨op, failures⟩ := call
    obtain ⟨p, hp, hmap⟩ := Option.bind_eq_some_iff.mp h
    obtain ⟨os', hos', rfl⟩ := Option.map_eq_some_iff.mp hmap
    simp only [runCalls, finish_mono hp hle, Option.bind_some, ih hos', Option.map_some]

/-! ## What the calls do -/

/-- The queue with a value pushed. -/
def Inner.pushed (q : Inner T pow) (val : T) : Inner T pow :=
  { q with tail := q.tail + 1 }.setSlot q.tail ⟨q.tail + 1, some val⟩

/-- The queue with the oldest value popped. -/
def Inner.popped (q : Inner T pow) : Inner T pow :=
  { q with head := q.head + 1 }.setSlot q.head ⟨q.head + 2 ^ pow, none⟩

theorem Inner.slot_head (q : Inner T pow) (head pos : ℕ) :
    Inner.slot { q with head } pos = q.slot pos := rfl

/-- A push on a free slot stores its value. -/
theorem finish_push {q : Inner T pow} (hseq : (q.slot q.tail).seq = q.tail) (val : T)
    (failures : ℕ) : ∃ fuel, finish w fuel failures q (invoke (.push val))
      = some (q.pushed val, .pushed) := by
  have hloop : ∃ fuel, finish w fuel failures q (pushLoadSeq val q.tail)
      = some (q.pushed val, .pushed) := by
    induction failures with
    | zero =>
      refine ⟨4, ?_⟩
      simp [finish, exec, hseq, Call.isCas, Inner.pushed, setSlot_setSlot]
    | succ failures ih =>
      obtain ⟨fuel, ih⟩ := ih
      refine ⟨fuel + 2, ?_⟩
      simpa [finish, exec, hseq, Call.isCas] using ih
  obtain ⟨fuel, hloop⟩ := hloop
  exact ⟨fuel + 1, by simpa [finish, invoke, exec, Call.isCas] using hloop⟩

/-- A push on a slot with an element of the lap before gives its value back. -/
theorem finish_full {q : Inner T pow} (hseq : (q.slot q.tail).seq < q.tail)
    (hlap : q.tail ≤ (q.slot q.tail).seq + 2 ^ pow) (val : T) (failures : ℕ) :
    ∃ fuel, finish w fuel failures q (invoke (.push val)) = some (q, .full val) := by
  have hneg := w.diff_neg hseq hlap
  refine ⟨2, ?_⟩
  simp [finish, invoke, exec, hneg.ne, hneg]

/-- A pop on a published slot takes its value. -/
theorem finish_pop {q : Inner T pow} {val : T}
    (hslot : q.slot q.head = ⟨q.head + 1, some val⟩) (failures : ℕ) :
    ∃ fuel, finish w fuel failures q (invoke .pop) = some (q.popped, .popped val) := by
  have hloop : ∃ fuel, finish w fuel failures q (popLoadSeq q.head)
      = some (q.popped, .popped val) := by
    induction failures with
    | zero =>
      have hread : (Inner.slot { q with head := q.head + 1 } q.head).data = some val := by
        rw [Inner.slot_head, hslot]
      refine ⟨4, ?_⟩
      simp [finish, exec, hslot, hread, Call.isCas, Inner.popped, Inner.len, setSlot_setSlot]
    | succ failures ih =>
      obtain ⟨fuel, ih⟩ := ih
      refine ⟨fuel + 2, ?_⟩
      simpa [finish, exec, hslot, Call.isCas] using ih
  obtain ⟨fuel, hloop⟩ := hloop
  exact ⟨fuel + 1, by simpa [finish, invoke, exec, Call.isCas] using hloop⟩

/-- A pop on a free slot finds nothing. -/
theorem finish_empty {q : Inner T pow} (hseq : (q.slot q.head).seq = q.head)
    (failures : ℕ) : ∃ fuel, finish w fuel failures q (invoke .pop) = some (q, .empty) := by
  have hneg := w.diff_neg (Nat.lt_succ_self q.head)
    (Nat.add_le_add_left (Nat.one_le_two_pow (n := pow)) q.head)
  refine ⟨2, ?_⟩
  simp [finish, invoke, exec, hseq, hneg.ne, hneg]

/-! ## The stored elements -/

/-- **The queue with these elements stored**, and no call under way. -/
structure Stored (q : Inner T pow) (stored : List T) : Prop where
  tail_eq : q.tail = q.head + stored.length
  length_le : stored.length ≤ 2 ^ pow
  published : ∀ i (h : i < stored.length), q.slot (q.head + i) = ⟨q.head + i + 1, some stored[i]⟩
  free : ∀ pos, q.tail ≤ pos → pos < q.head + 2 ^ pow → q.slot pos = ⟨pos, none⟩

theorem stored_empty : Stored (Inner.empty pow : Inner T pow) [] where
  tail_eq := rfl
  length_le := Nat.zero_le _
  published i h := absurd h (Nat.not_lt_zero i)
  free pos _ hlt := slot_empty (by simpa [Inner.empty] using hlt)

theorem Stored.pushed {q : Inner T pow} {stored : List T} (h : Stored q stored)
    (hlt : stored.length < 2 ^ pow) (val : T) : Stored (q.pushed val) (stored ++ [val]) := by
  have htail := h.tail_eq
  have hother : ∀ pos, q.head ≤ pos → pos < q.head + 2 ^ pow → pos ≠ q.tail →
      (q.pushed val).slot pos = q.slot pos := fun pos hle hlt' hne =>
    Inner.slot_setSlot_of_ne _ _ (Ring.mask_ne_of_window ⟨hle, hlt'⟩ ⟨by omega, by omega⟩ hne)
  refine ⟨?_, ?_, fun i hi => ?_, fun pos hle hpos => ?_⟩
  · show q.tail + 1 = q.head + (stored ++ [val]).length
    rw [htail, List.length_append, List.length_singleton, Nat.add_assoc]
  · rw [List.length_append]
    exact hlt
  · change (q.pushed val).slot (q.head + i) = ⟨q.head + i + 1, _⟩
    rw [List.length_append, List.length_singleton] at hi
    by_cases heq : i = stored.length
    · subst heq
      rw [← htail, List.getElem_concat_length rfl]
      exact Inner.slot_setSlot_self _ _ _
    · rw [hother _ (by omega) (by omega) (by omega), List.getElem_append_left (by omega)]
      exact h.published i (by omega)
  · change q.tail + 1 ≤ pos at hle
    change pos < q.head + 2 ^ pow at hpos
    rw [hother pos (by omega) hpos (by omega)]
    exact h.free pos (by omega) hpos

theorem Stored.popped {q : Inner T pow} {val : T} {stored : List T}
    (h : Stored q (val :: stored)) : Stored q.popped stored := by
  have htail := h.tail_eq
  have hlen := h.length_le
  rw [List.length_cons] at htail hlen
  have hother : ∀ pos, q.head < pos → pos < q.head + 2 ^ pow → q.popped.slot pos = q.slot pos :=
    fun pos hlt hlt' => Inner.slot_setSlot_of_ne _ _ (Ring.mask_ne_mask hlt hlt').symm
  refine ⟨?_, by omega, fun i hi => ?_, fun pos hle hpos => ?_⟩
  · show q.tail = q.head + 1 + stored.length
    omega
  · show q.popped.slot (q.head + 1 + i) = ⟨q.head + 1 + i + 1, _⟩
    rw [hother _ (by omega) (by omega), Nat.add_assoc, Nat.add_comm 1]
    exact h.published (i + 1) (Nat.succ_lt_succ hi)
  · change q.tail ≤ pos at hle
    change pos < q.head + 1 + 2 ^ pow at hpos
    by_cases heq : pos = q.head + 2 ^ pow
    · subst heq
      rw [slot_add_len]
      exact Inner.slot_setSlot_self _ _ _
    · rw [hother pos (by omega) (by omega)]
      exact h.free pos hle (by omega)

/-- The slot of the head has the oldest element. -/
theorem Stored.slot_head {q : Inner T pow} {val : T} {stored : List T}
    (h : Stored q (val :: stored)) : q.slot q.head = ⟨q.head + 1, some val⟩ := by
  simpa using h.published 0 (Nat.succ_pos _)

/-- The slot of the tail, when no element is there. -/
theorem Stored.slot_tail {q : Inner T pow} {stored : List T} (h : Stored q stored)
    (hlt : stored.length < 2 ^ pow) : q.slot q.tail = ⟨q.tail, none⟩ :=
  h.free q.tail le_rfl (by rw [h.tail_eq]; omega)

/-- **The slot of the tail of a full queue** has the oldest element, with the
number of its position and one more. -/
theorem Stored.seq_tail_of_full {q : Inner T pow} {stored : List T} (h : Stored q stored)
    (hfull : stored.length = 2 ^ pow) : (q.slot q.tail).seq + 2 ^ pow = q.tail + 1 := by
  cases stored with
  | nil =>
    have := Nat.two_pow_pos pow
    simp at hfull
    omega
  | cons val stored =>
    have htail : q.tail = q.head + 2 ^ pow := by rw [h.tail_eq, hfull]
    rw [htail, slot_add_len, h.slot_head]
    dsimp only
    omega

/-! ## The queue is a FIFO -/

/-- **A call does what the bounded FIFO does**, unless it pushes on the element
of a queue of one slot. -/
theorem Stored.finish {q : Inner T pow} {stored : List T} (h : Stored q stored) (op : Op T)
    (hop : 1 ≤ pow ∨ ∀ val, op = .push val → stored = []) (failures : ℕ) :
    ∃ fuel q', finish w fuel failures q (invoke op)
        = some (q', (Fifo.apply (2 ^ pow) stored op).2)
      ∧ Stored q' (Fifo.apply (2 ^ pow) stored op).1 := by
  cases op with
  | push val =>
    by_cases hlt : stored.length < 2 ^ pow
    · obtain ⟨fuel, hfuel⟩ := finish_push (by rw [h.slot_tail hlt]) val failures
      simp only [Fifo.apply, if_pos hlt]
      exact ⟨fuel, _, hfuel, h.pushed hlt val⟩
    · have hfull : stored.length = 2 ^ pow := Nat.le_antisymm h.length_le (Nat.le_of_not_lt hlt)
      have hpow : 1 ≤ pow := by
        refine hop.resolve_right fun hnil => ?_
        have := Nat.two_pow_pos pow
        rw [hnil val rfl, List.length_nil] at hfull
        omega
      have hlen : 2 ≤ 2 ^ pow := Nat.le_self_pow (by omega) 2
      have hseq := h.seq_tail_of_full hfull
      obtain ⟨fuel, hfuel⟩ := finish_full (w := w) (q := q) (by omega) (by omega) val failures
      simp only [Fifo.apply, if_neg hlt]
      exact ⟨fuel, q, hfuel, h⟩
  | pop =>
    cases stored with
    | nil =>
      have htail : q.tail = q.head := h.tail_eq
      have hslot := h.slot_tail (Nat.two_pow_pos pow)
      rw [htail] at hslot
      obtain ⟨fuel, hfuel⟩ := finish_empty (q := q) (by rw [hslot]) failures
      exact ⟨fuel, q, hfuel, h⟩
    | cons val stored =>
      obtain ⟨fuel, hfuel⟩ := finish_pop h.slot_head failures
      exact ⟨fuel, _, hfuel, h.popped⟩

/-- No push finds an element stored. -/
def PushesOnEmpty : List T → List (Op T) → Prop
  | _, [] => True
  | stored, op :: ops =>
    (∀ val, op = .push val → stored = []) ∧ PushesOnEmpty (Fifo.apply 1 stored op).1 ops

theorem Stored.runCalls {q : Inner T pow} {stored : List T} (h : Stored q stored)
    (calls : List (Op T × ℕ))
    (hcalls : 1 ≤ pow ∨ (pow = 0 ∧ PushesOnEmpty stored (calls.map Prod.fst))) :
    ∃ fuel, runCalls w fuel q calls
      = some (Fifo.run (2 ^ pow) stored (calls.map Prod.fst)).2 := by
  induction calls generalizing q stored with
  | nil => exact ⟨0, rfl⟩
  | cons call calls ih =>
    obtain ⟨op, failures⟩ := call
    obtain ⟨fuel, q', hfinish, hstored⟩ :=
      h.finish (w := w) op (hcalls.imp id fun hc => hc.2.1) failures
    have hrest : 1 ≤ pow ∨ (pow = 0
        ∧ PushesOnEmpty (Fifo.apply (2 ^ pow) stored op).1 (calls.map Prod.fst)) := by
      refine hcalls.imp id fun ⟨hzero, _, hrest⟩ => ⟨hzero, ?_⟩
      rw [hzero]
      exact hrest
    obtain ⟨fuel', hrun⟩ := ih hstored hrest
    refine ⟨max fuel fuel', ?_⟩
    simp only [Mpmc.runCalls, finish_mono hfinish (le_max_left _ _), Option.bind_some,
      runCalls_mono hrun (le_max_right _ _), Option.map_some, List.map_cons, Fifo.run]

/-- **With one slot, a push on an element goes through**: the element's number
is the position the push is for. -/
theorem Stored.finish_overwrite {w : Width 0} {q : Inner T 0} {stored : List T}
    (h : Stored q stored) (hne : stored ≠ []) (val : T) (failures : ℕ) :
    ∃ fuel, Mpmc.finish w fuel failures q (invoke (.push val)) = some (q.pushed val, .pushed) := by
  have hlen := h.length_le
  have hpos := List.length_pos_iff.mpr hne
  refine finish_push ?_ val failures
  have hseq := h.seq_tail_of_full (by rw [pow_zero] at hlen ⊢; omega)
  omega

/-- A run of one slot that does what the FIFO does pushes on no element. -/
theorem Stored.pushesOnEmpty {w : Width 0} {q : Inner T 0} {stored : List T} (h : Stored q stored)
    {calls : List (Op T × ℕ)} {fuel : ℕ}
    (hrun : Mpmc.runCalls w fuel q calls = some (Fifo.run 1 stored (calls.map Prod.fst)).2) :
    PushesOnEmpty stored (calls.map Prod.fst) := by
  induction calls generalizing q stored with
  | nil => trivial
  | cons call calls ih =>
    obtain ⟨op, failures⟩ := call
    obtain ⟨⟨q', o⟩, hp, hmap⟩ := Option.bind_eq_some_iff.mp hrun
    obtain ⟨os, hos, hcons⟩ := Option.map_eq_some_iff.mp hmap
    obtain ⟨rfl, rfl⟩ := List.cons.inj hcons
    have hop : ∀ val, op = .push val → stored = [] := by
      rintro val rfl
      by_contra hne
      obtain ⟨fuel', hover⟩ := h.finish_overwrite (w := w) hne val failures
      have hboth := (finish_mono hp (le_max_left fuel fuel')).symm.trans
        (finish_mono hover (le_max_right fuel fuel'))
      have hfull : ¬ stored.length < 1 := by
        have := List.length_pos_iff.mpr hne
        omega
      simp [hfull] at hboth
    obtain ⟨fuel', q'', hfinish, hstored⟩ := h.finish (w := w) op (Or.inr hop) failures
    have hboth := (finish_mono hp (le_max_left fuel fuel')).symm.trans
      (finish_mono hfinish (le_max_right fuel fuel'))
    obtain ⟨rfl, _⟩ := Prod.mk.inj (Option.some.inj hboth)
    exact ⟨hop, ih hstored hos⟩

/-- **A sequential run is a run of a bounded FIFO** of the queue's capacity,
whose every call returns however often it fails spuriously, exactly when the
queue has two slots or no push finds an element stored. -/
theorem runCalls_eq_fifo_iff [Target] {q : Inner T pow} (hnew : Inner.new pow = .ok q)
    (calls : List (Op T × ℕ)) :
    (∃ fuel, runCalls w fuel q calls = some (Fifo.run (2 ^ pow) [] (calls.map Prod.fst)).2)
      ↔ 1 ≤ pow ∨ PushesOnEmpty [] (calls.map Prod.fst) := by
  obtain rfl : Inner.empty pow = q := by
    unfold Inner.new at hnew
    split_ifs at hnew
    exact Except.ok.inj hnew
  constructor
  · rintro ⟨fuel, hrun⟩
    rcases Nat.eq_zero_or_pos pow with rfl | hpow
    · exact Or.inr (stored_empty.pushesOnEmpty hrun)
    · exact Or.inl hpow
  · intro h
    refine stored_empty.runCalls calls ?_
    rcases Nat.eq_zero_or_pos pow with hzero | hpow
    · exact Or.inr ⟨hzero, h.resolve_left (by omega)⟩
    · exact Or.inl hpow

/-- A full queue of two slots and an empty one of one slot, with spurious
failures. -/
theorem runCalls_eq_fifo_iff_example :
    (∃ fuel, runCalls .twoSlots fuel (Inner.empty 1 : Inner ℕ 1)
        [(.push 1, 2), (.push 2, 0), (.push 3, 0), (.pop, 1)]
      = some [.pushed, .pushed, .full 3, .popped 1])
    ∧ ∃ fuel, runCalls .oneSlot fuel (Inner.empty 0 : Inner ℕ 0)
        [(.push 1, 0), (.pop, 1), (.pop, 0)]
      = some [.pushed, .popped 1, .empty] :=
  ⟨(@runCalls_eq_fifo_iff _ _ _ Target.x86_64 _ rfl _).mpr (Or.inl le_rfl),
    (@runCalls_eq_fifo_iff _ _ _ Target.x86_64 _ rfl _).mpr
      (Or.inr (by simp [PushesOnEmpty, Fifo.apply]))⟩

/-- **With one slot, which `new` accepts, a second push overwrites the first
element**: it returns `Ok(())` where a FIFO of one element gives the value
back, and no fuel makes it end otherwise. -/
theorem runCalls_ne_fifo_one_slot :
    @Inner.new ℕ Target.x86_64 0 = .ok (Inner.empty 0)
    ∧ runCalls .oneSlot 5 (Inner.empty 0 : Inner ℕ 0) [(.push 1, 0), (.push 2, 0)]
      = some [.pushed, .pushed]
    ∧ ¬ ∃ fuel, runCalls .oneSlot fuel (Inner.empty 0 : Inner ℕ 0) [(.push 1, 0), (.push 2, 0)]
      = some (Fifo.run (2 ^ 0) [] [.push 1, .push 2]).2 := by
  have hrun : runCalls .oneSlot 5 (Inner.empty 0 : Inner ℕ 0) [(.push 1, 0), (.push 2, 0)]
      = some [.pushed, .pushed] := by decide
  refine ⟨rfl, hrun, fun ⟨fuel, h⟩ => ?_⟩
  have hboth := (runCalls_mono hrun (le_max_left 5 fuel)).symm.trans
    (runCalls_mono h (le_max_right 5 fuel))
  simp [Fifo.run, Fifo.apply] at hboth

end Mpmc
