import Algors.Basic
import Algors.Lib.Ring
import Algors.Lib.Transition
import Algors.Queue.Fifo

/-!
# The multi-producer multi-consumer queue

A ring of `2 ^ pow` slots, each a sequence number and a place for a value, and
two counters. A call of `try_push` or `try_pop` is a sequence of atomic steps
– a load or a compare-exchange of a counter, a load or a store of a sequence
number, a write or a read of a value – and what it has left to do, with its
local variables, is a `Call`. `exec` is one step of a call: it changes the
queue, and goes on with another `Call` or ends with an `Outcome`.

The counters and sequence numbers are natural numbers, so they do not wrap;
the signed differences the code takes are those of words, and have the other
sign where the numbers are half the range of a word apart. A value that was
moved out of a slot, or never written to it, is `none`; a read of such a slot
is undefined, and `exec` has no result there. `compare_exchange_weak` may fail
where it could succeed, which the step is told.

`system` lets any number of threads make any calls and take their steps in any
order. The history it records is what the steps were, and no step looks at it.
-/

namespace Mpmc

variable {T τ : Type} {pow : ℕ}

/-! ## Words -/

/-- **The words of the target**, of `usize::BITS` bits: more than the exponent
of the queue, as `Inner::new` asserts. -/
structure Width (pow : ℕ) where
  bits : ℕ
  pow_lt : pow < bits

namespace Width

/-- One slot on a 64-bit target. -/
abbrev oneSlot : Width 0 := ⟨64, by decide⟩

/-- And two. -/
abbrev twoSlots : Width 1 := ⟨64, by decide⟩

variable (w : Width pow) {a b : ℕ}

/-- Half the range of a word. -/
def half : ℕ := 2 ^ (w.bits - 1)

/-- `seq.wrapping_sub(idx) as isize`. Counters that do not wrap are below
`2 ^ bits`, and never further apart. -/
def diff (seq idx : ℕ) : ℤ :=
  let diff : ℤ := seq - idx
  if diff.natAbs < 2 ^ w.bits then diff.bmod (2 ^ w.bits) else diff

theorem half_pos : 0 < w.half := Nat.two_pow_pos _

theorem two_pow_bits : 2 ^ w.bits = 2 * w.half := by
  rw [half, ← Nat.pow_succ', Nat.succ_eq_add_one, Nat.sub_add_cancel (Nat.one_le_of_lt w.pow_lt)]

theorem two_pow_le_half : 2 ^ pow ≤ w.half :=
  Nat.pow_le_pow_right Nat.two_pos (Nat.le_sub_one_of_lt w.pow_lt)

/-- **It is the difference of the words**, read as a signed number. -/
theorem toInt_sub (ha : a < 2 ^ w.bits) (hb : b < 2 ^ w.bits) :
    (BitVec.ofNat w.bits a - BitVec.ofNat w.bits b).toInt = w.diff a b := by
  have hlt : ((a : ℤ) - b).natAbs < 2 ^ w.bits := by omega
  rw [BitVec.toInt_sub, BitVec.toInt_ofNat', BitVec.toInt_ofNat', ← Int.sub_bmod]
  exact (if_pos hlt).symm

/-- **The difference**, by how far apart the numbers are. -/
theorem diff_cases :
    (w.diff a b = a - b ∧ (a < b + w.half ∨ b + 2 * w.half ≤ a)
      ∧ (b ≤ a + w.half ∨ a + 2 * w.half ≤ b))
    ∨ (w.diff a b = a - b - 2 * w.half ∧ b + w.half ≤ a ∧ a < b + 2 * w.half)
    ∨ (w.diff a b = a - b + 2 * w.half ∧ a + w.half < b ∧ b < a + 2 * w.half) := by
  have hhalf := w.half_pos
  simp only [diff, two_pow_bits]
  split_ifs with hlt
  · have hbmod (c : ℤ) : (a - b : ℤ).bmod (2 * w.half) = c ↔ _ :=
      Int.bmod_eq_iff (Nat.mul_pos Nat.two_pos hhalf)
    simp only [hbmod]
    rcases Nat.lt_or_ge a (b + w.half) with hup | hup
    · rcases Nat.lt_or_ge (a + w.half) b with hdown | hdown
      · exact Or.inr (Or.inr ⟨⟨by omega, by omega, ⟨1, by push_cast; omega⟩⟩, by omega, by omega⟩)
      · exact Or.inl ⟨⟨by omega, by omega, ⟨0, by omega⟩⟩, by omega, by omega⟩
    · exact Or.inr (Or.inl ⟨⟨by omega, by omega, ⟨-1, by push_cast; omega⟩⟩, by omega, by omega⟩)
  · omega

/-- Only equal numbers have no difference. -/
theorem diff_eq_zero_iff : w.diff a b = 0 ↔ a = b := by
  have hhalf := w.half_pos
  have := @diff_cases _ w a b
  omega

@[simp] theorem diff_self : w.diff a a = 0 := w.diff_eq_zero_iff.mpr rfl

/-- **A number is taken for a smaller one** if it is half the range of a word
ahead. -/
theorem diff_neg_iff (hle : b ≤ a + w.half) :
    w.diff a b < 0 ↔ a < b ∨ (b + w.half ≤ a ∧ a < b + 2 * w.half) := by
  have hhalf := w.half_pos
  have := @diff_cases _ w a b
  omega

theorem diff_neg (hlt : a < b) (hle : b ≤ a + 2 ^ pow) : w.diff a b < 0 :=
  (w.diff_neg_iff (hle.trans (Nat.add_le_add_left w.two_pow_le_half a))).mpr (Or.inl hlt)

theorem diff_neg_cases (hneg : w.diff a b < 0) :
    a < b ∨ (b + w.half ≤ a ∧ a < b + 2 * w.half) := by
  have := @diff_cases _ w a b
  omega

theorem lt_of_diff_pos (hle : b ≤ a + w.half) (hpos : 0 < w.diff a b) : b < a := by
  have := @diff_cases _ w a b
  omega

end Width

/-! ## The queue -/

/-- `SequencedSlot`. -/
structure Slot (T : Type) where
  seq : ℕ
  data : Option T
deriving DecidableEq

/-- **The shared state**: `Inner`. -/
structure Inner (T : Type) (pow : ℕ) where
  buf : Fin (2 ^ pow) → Slot T
  head : ℕ
  tail : ℕ

/-- `Inner::mask`. -/
abbrev mask (num : ℕ) : Fin (2 ^ pow) := Ring.mask num

namespace Inner

/-- The queue `Inner::new` builds: slot `i` is free for position `i`. -/
def empty (pow : ℕ) : Inner T pow := ⟨fun i => ⟨i, none⟩, 0, 0⟩

/-- `Inner::new`, with its assertion. -/
def new [Target] (pow : ℕ) : Rust (Inner T pow) :=
  if pow < 8 * Target.ptrSize then .ok (empty pow)
  else .error (.assertFailed "u32::from(pow) < usize::BITS")

/-- `Inner::len`. -/
def len (_self : Inner T pow) : ℕ := 2 ^ pow

/-- The slot of a position. -/
def slot (self : Inner T pow) (pos : ℕ) : Slot T := Ring.get self.buf pos

/-- The queue with the slot of a position changed. -/
def setSlot (self : Inner T pow) (pos : ℕ) (slot : Slot T) : Inner T pow :=
  { self with buf := Ring.set self.buf pos slot }

/-- The body of the loop of `Inner::drop`: the value of a published slot is
dropped, and is in the slot no more. -/
def dropSlot (idx : ℕ) (self : Inner T pow) : Option (Inner T pow × List T) :=
  if (self.slot idx).seq = idx + 1 then
    (self.slot idx).data.map fun data =>
      (self.setSlot idx { self.slot idx with data := none }, [data])
  else some (self, [])

/-- **`Inner::drop`**, with the values it drops; `needsDrop` is
`mem::needs_drop::<T>()`. -/
def drop (needsDrop : Bool) (self : Inner T pow) : Option (Inner T pow × List T) :=
  if needsDrop = false then some (self, [])
  else Ring.walk dropSlot (self.tail - self.head) self.head self

end Inner

/-! ## The steps of a call -/

/-- **What a call has left to do**, with its local variables. -/
inductive Call (T : Type) where
  /-- `try_push`: load the tail. -/
  | pushLoadTail (val : T)
  /-- Load the sequence number of the slot, and branch on it. -/
  | pushLoadSeq (val : T) (idx : ℕ)
  /-- Try to advance the tail. -/
  | pushCas (val : T) (idx : ℕ)
  /-- Write the value to the claimed slot. -/
  | pushWrite (val : T) (idx : ℕ)
  /-- Publish the slot. -/
  | pushStoreSeq (idx : ℕ)
  /-- `try_pop`: load the head. -/
  | popLoadHead
  /-- Load the sequence number of the slot, and branch on it. -/
  | popLoadSeq (idx : ℕ)
  /-- Try to advance the head. -/
  | popCas (idx : ℕ)
  /-- Read the value out of the claimed slot. -/
  | popRead (idx : ℕ)
  /-- Release the slot for the next lap. -/
  | popStoreSeq (idx : ℕ) (data : T)
deriving DecidableEq

open Call
open Fifo (Op Outcome)

/-- **One step of a call.** A compare-exchange told to fail spuriously fails
whatever the counter is; where it fails, the counter's value is the new
index. -/
def exec (w : Width pow) (q : Inner T pow) (spurious : Bool) :
    Call T → Option (Inner T pow × (Call T ⊕ Outcome T))
  | pushLoadTail val => some (q, .inl (pushLoadSeq val q.tail))
  | pushLoadSeq val idx =>
    let diff := w.diff (q.slot idx).seq idx
    if diff = 0 then some (q, .inl (pushCas val idx))
    else if diff < 0 then
      -- data from the previous lap's write, not read yet
      some (q, .inr (.full val))
    else
      -- our copy of the tail is stale, so we reload it
      some (q, .inl (pushLoadTail val))
  | pushCas val idx =>
    if q.tail = idx ∧ spurious = false then
      some ({ q with tail := idx + 1 }, .inl (pushWrite val idx))
    else some (q, .inl (pushLoadSeq val q.tail))
  | pushWrite val idx =>
    some (q.setSlot idx { q.slot idx with data := some val }, .inl (pushStoreSeq idx))
  | pushStoreSeq idx =>
    some (q.setSlot idx { q.slot idx with seq := idx + 1 }, .inr .pushed)
  | popLoadHead => some (q, .inl (popLoadSeq q.head))
  | popLoadSeq idx =>
    let diff := w.diff (q.slot idx).seq (idx + 1)
    if diff = 0 then some (q, .inl (popCas idx))
    else if diff < 0 then
      -- producer has not written here yet
      some (q, .inr .empty)
    else
      -- another consumer has read this position, and the head is stale
      some (q, .inl popLoadHead)
  | popCas idx =>
    if q.head = idx ∧ spurious = false then
      some ({ q with head := idx + 1 }, .inl (popRead idx))
    else some (q, .inl (popLoadSeq q.head))
  | popRead idx =>
    (q.slot idx).data.map fun data =>
      (q.setSlot idx { q.slot idx with data := none }, .inl (popStoreSeq idx data))
  | popStoreSeq idx data =>
    some (q.setSlot idx { q.slot idx with seq := idx + q.len }, .inr (.popped data))

/-- The first step of a call. -/
def invoke : Op T → Call T
  | .push val => pushLoadTail val
  | .pop => popLoadHead

/-! ## Threads -/

/-- What happened, as far as a specification speaks of it: a call was made, a
position was claimed, a call returned. -/
inductive Event (T : Type) where
  | called (op : Op T)
  | claimedPush (pos : ℕ) (val : T)
  | claimedPop (pos : ℕ)
  | returnedPush (pos : ℕ)
  | returnedFull (val : T)
  | returnedPop (pos : ℕ) (val : T)
  | returnedEmpty
deriving DecidableEq

/-- The event of a step, if it is one. -/
def Event.of : Call T → Call T ⊕ Outcome T → Option (Event T)
  | pushCas _ _, .inl (pushWrite val idx) => some (.claimedPush idx val)
  | popCas _, .inl (popRead idx) => some (.claimedPop idx)
  | pushLoadSeq _ _, .inr (.full val) => some (.returnedFull val)
  | pushStoreSeq idx, .inr .pushed => some (.returnedPush idx)
  | popLoadSeq _, .inr .empty => some .returnedEmpty
  | popStoreSeq idx _, .inr (.popped data) => some (.returnedPop idx data)
  | _, _ => none

/-- **The queue with its threads**: each is idle or in a call. -/
structure State (τ T : Type) (pow : ℕ) where
  inner : Inner T pow
  call : τ → Option (Call T)
  /-- The latest event first. -/
  history : List (τ × Event T)

/-- What a thread may do: make a call when it is idle, or take a step of its
call. -/
inductive Action (T : Type) where
  | call (op : Op T)
  | step (spurious : Bool)
deriving DecidableEq

variable [DecidableEq τ]

/-- The state after thread `t` went from the call `c` to `r`. -/
def State.advance (s : State τ T pow) (t : τ) (c : Call T) (q : Inner T pow)
    (r : Call T ⊕ Outcome T) : State τ T pow where
  inner := q
  call := Function.update s.call t (r.elim some fun _ => none)
  history := ((Event.of c r).map fun e => (t, e)).toList ++ s.history

/-- **All interleavings** of the calls of all threads. -/
def system (τ T : Type) [DecidableEq τ] (w : Width pow) :
    System (State τ T pow) (τ × Action T) where
  init := ⟨.empty pow, fun _ => none, []⟩
  next s a :=
    match s.call a.1, a.2 with
    | none, .call op => some
        { s with
          call := Function.update s.call a.1 (some (invoke op))
          history := (a.1, .called op) :: s.history }
    | some c, .step spurious =>
      (exec w s.inner spurious c).map fun p => s.advance a.1 c p.1 p.2
    | _, _ => none

/-! ## What each step does -/

omit [DecidableEq τ] in
@[simp] theorem Inner.slot_setSlot_self (q : Inner T pow) (pos : ℕ) (slot : Slot T) :
    (q.setSlot pos slot).slot pos = slot :=
  Ring.get_set_self ..

theorem Inner.slot_setSlot_of_ne (q : Inner T pow) {pos pos' : ℕ} (slot : Slot T)
    (h : (mask pos' : Fin (2 ^ pow)) ≠ mask pos) :
    (q.setSlot pos slot).slot pos' = q.slot pos' :=
  Ring.get_set_of_ne _ _ h

theorem setSlot_setSlot (q : Inner T pow) (pos : ℕ) (slot slot' : Slot T) :
    (q.setSlot pos slot).setSlot pos slot' = q.setSlot pos slot' := by
  simp [Inner.setSlot]

theorem slot_add_len (q : Inner T pow) (pos : ℕ) : q.slot (pos + 2 ^ pow) = q.slot pos :=
  Ring.get_add_len ..

theorem setSlot_add_len (q : Inner T pow) (pos : ℕ) (slot : Slot T) :
    q.setSlot (pos + 2 ^ pow) slot = q.setSlot pos slot := by
  rw [Inner.setSlot, Ring.set_add_len, Inner.setSlot]

/-- At the start, a slot is free for the position of its index. -/
theorem slot_empty {pos : ℕ} (hlt : pos < 2 ^ pow) :
    (Inner.empty pow : Inner T pow).slot pos = ⟨pos, none⟩ := by
  simp [Inner.slot, Ring.get, Inner.empty, Ring.mask_of_lt hlt]

omit [DecidableEq τ] in
/-- **One step of a call**, by what it does to the queue: it leaves the queue
alone, claims a position, or changes the slot of a position it claimed. -/
inductive ExecStep (w : Width pow) (q : Inner T pow) :
    Call T → Inner T pow → Call T ⊕ Outcome T → Prop
  | pushLoadTail (val : T) : ExecStep w q (pushLoadTail val) q (.inl (pushLoadSeq val q.tail))
  | pushReady (val : T) (idx : ℕ) (hseq : (q.slot idx).seq = idx) :
      ExecStep w q (pushLoadSeq val idx) q (.inl (pushCas val idx))
  | pushFull (val : T) (idx : ℕ) (hseq : w.diff (q.slot idx).seq idx < 0) :
      ExecStep w q (pushLoadSeq val idx) q (.inr (.full val))
  | pushStale (val : T) (idx : ℕ) (hseq : 0 < w.diff (q.slot idx).seq idx) :
      ExecStep w q (pushLoadSeq val idx) q (.inl (pushLoadTail val))
  | pushClaim (val : T) : ExecStep w q (pushCas val q.tail) { q with tail := q.tail + 1 }
      (.inl (pushWrite val q.tail))
  | pushCasFail (val : T) (idx : ℕ) :
      ExecStep w q (pushCas val idx) q (.inl (pushLoadSeq val q.tail))
  | pushWrite (val : T) (idx : ℕ) : ExecStep w q (pushWrite val idx)
      (q.setSlot idx { q.slot idx with data := some val }) (.inl (pushStoreSeq idx))
  | pushStoreSeq (idx : ℕ) : ExecStep w q (pushStoreSeq idx)
      (q.setSlot idx { q.slot idx with seq := idx + 1 }) (.inr .pushed)
  | popLoadHead : ExecStep w q popLoadHead q (.inl (popLoadSeq q.head))
  | popReady (idx : ℕ) (hseq : (q.slot idx).seq = idx + 1) :
      ExecStep w q (popLoadSeq idx) q (.inl (popCas idx))
  | popEmpty (idx : ℕ) (hseq : w.diff (q.slot idx).seq (idx + 1) < 0) :
      ExecStep w q (popLoadSeq idx) q (.inr .empty)
  | popStale (idx : ℕ) (hseq : 0 < w.diff (q.slot idx).seq (idx + 1)) :
      ExecStep w q (popLoadSeq idx) q (.inl popLoadHead)
  | popClaim : ExecStep w q (popCas q.head) { q with head := q.head + 1 } (.inl (popRead q.head))
  | popCasFail (idx : ℕ) : ExecStep w q (popCas idx) q (.inl (popLoadSeq q.head))
  | popRead (idx : ℕ) (data : T) (hdata : (q.slot idx).data = some data) :
      ExecStep w q (popRead idx) (q.setSlot idx { q.slot idx with data := none })
        (.inl (popStoreSeq idx data))
  | popStoreSeq (idx : ℕ) (data : T) : ExecStep w q (popStoreSeq idx data)
      (q.setSlot idx { q.slot idx with seq := idx + 2 ^ pow }) (.inr (.popped data))

omit [DecidableEq τ] in
/-- **Every step is one of these.** -/
theorem execStep_of_exec {w : Width pow} {q q' : Inner T pow} {spurious : Bool} {c : Call T}
    {r : Call T ⊕ Outcome T} (h : exec w q spurious c = some (q', r)) : ExecStep w q c q' r := by
  cases c with
  | pushLoadTail val =>
    obtain ⟨rfl, rfl⟩ := Prod.mk.inj (Option.some.inj h)
    exact .pushLoadTail val
  | pushLoadSeq val idx =>
    simp only [exec] at h
    split_ifs at h with hzero hneg <;> obtain ⟨rfl, rfl⟩ := Prod.mk.inj (Option.some.inj h)
    · exact .pushReady val idx (w.diff_eq_zero_iff.mp hzero)
    · exact .pushFull val idx hneg
    · exact .pushStale val idx (by omega)
  | pushCas val idx =>
    simp only [exec] at h
    split_ifs at h with hcas <;> obtain ⟨rfl, rfl⟩ := Prod.mk.inj (Option.some.inj h)
    · rw [← hcas.1]
      exact .pushClaim val
    · exact .pushCasFail val idx
  | pushWrite val idx =>
    obtain ⟨rfl, rfl⟩ := Prod.mk.inj (Option.some.inj h)
    exact .pushWrite val idx
  | pushStoreSeq idx =>
    obtain ⟨rfl, rfl⟩ := Prod.mk.inj (Option.some.inj h)
    exact .pushStoreSeq idx
  | popLoadHead =>
    obtain ⟨rfl, rfl⟩ := Prod.mk.inj (Option.some.inj h)
    exact .popLoadHead
  | popLoadSeq idx =>
    simp only [exec] at h
    split_ifs at h with hzero hneg <;> obtain ⟨rfl, rfl⟩ := Prod.mk.inj (Option.some.inj h)
    · exact .popReady idx (w.diff_eq_zero_iff.mp hzero)
    · exact .popEmpty idx hneg
    · exact .popStale idx (by omega)
  | popCas idx =>
    simp only [exec] at h
    split_ifs at h with hcas <;> obtain ⟨rfl, rfl⟩ := Prod.mk.inj (Option.some.inj h)
    · rw [← hcas.1]
      exact .popClaim
    · exact .popCasFail idx
  | popRead idx =>
    obtain ⟨data, hdata, hp⟩ := Option.map_eq_some_iff.mp h
    obtain ⟨rfl, rfl⟩ := Prod.mk.inj hp
    exact .popRead idx data hdata
  | popStoreSeq idx data =>
    obtain ⟨rfl, rfl⟩ := Prod.mk.inj (Option.some.inj h)
    exact .popStoreSeq idx data

/-- **A step of the system**: an idle thread makes a call, or a thread in a
call takes a step of it. -/
theorem system_next_cases {w : Width pow} {s s' : State τ T pow} {t : τ} {a : Action T}
    (h : (system τ T w).next s (t, a) = some s') :
    (s.call t = none ∧ ∃ op, s' = { s with
        call := Function.update s.call t (some (invoke op))
        history := (t, .called op) :: s.history })
    ∨ ∃ c q r, s.call t = some c ∧ ExecStep w s.inner c q r ∧ s' = s.advance t c q r := by
  unfold system at h
  cases hc : s.call t with
  | none =>
    cases a with
    | call op =>
      simp only [hc, Option.some.injEq] at h
      exact Or.inl ⟨rfl, op, h.symm⟩
    | step spurious => simp [hc] at h
  | some c =>
    cases a with
    | call op => simp [hc] at h
    | step spurious =>
      simp only [hc, Option.map_eq_some_iff, Prod.exists] at h
      obtain ⟨q, r, hexec, rfl⟩ := h
      exact Or.inr ⟨c, q, r, rfl, execStep_of_exec hexec, rfl⟩

end Mpmc
