import Algors.Queue.MpmcFifo
import Algors.Queue.SpscWord

/-!
# The multi-producer multi-consumer queue with counters of a word

`Algors.Queue.Mpmc` with counters and sequence numbers of `w` bits. The
differences that the branches look at wrap, and are read as signed numbers; what
a slot is compared with and what it is given are `idx + 1` and `idx + len`, which
panic at the end of a counter in a build with overflow checks.

Without the checks, calls one after another do what those of the bounded queue
do: `Inner.wrap` is what the words are of a queue whose counters do not wrap, and
the sequence numbers in use are near the counters. With the checks a run ends at
the push that would be the `2 ^ w`-th to be accepted, and before that at the pop
that would give its slot back for a position of `2 ^ w` or more, `idx + len`.
-/

namespace MpmcWord

open Fifo (Op Outcome)

variable {T τ : Type} {pow w : ℕ}

/-! ## The queue -/

/-- `SequencedSlot`. -/
structure Slot (T : Type) (w : ℕ) where
  seq : BitVec w
  data : Option T

/-- `Inner`. -/
structure Inner (T : Type) (pow w : ℕ) where
  buf : Fin (2 ^ pow) → Slot T w
  head : BitVec w
  tail : BitVec w

namespace Inner

/-- The queue `Inner::new` builds. -/
def empty (pow w : ℕ) : Inner T pow w := ⟨fun i => ⟨BitVec.ofNat w i, none⟩, 0#w, 0#w⟩

/-- `Inner::len`. -/
def len (_self : Inner T pow w) : BitVec w := BitVec.ofNat w (2 ^ pow)

/-- The slot of a position. -/
def slot (self : Inner T pow w) (pos : BitVec w) : Slot T w := Ring.get self.buf pos.toNat

/-- The queue with the slot of a position changed. -/
def setSlot (self : Inner T pow w) (pos : BitVec w) (slot : Slot T w) : Inner T pow w :=
  { self with buf := Ring.set self.buf pos.toNat slot }

/-- The loop of `Inner::drop`, over `n` positions from `idx` on. -/
def dropLoop (checks : Bool) : ℕ → BitVec w → Inner T pow w → Raw (Inner T pow w × List T)
  | 0, _, self => .ok (self, [])
  | n + 1, idx, self => do
    let next ← Raw.lift (Counter.add checks idx 1#w)
    if (self.slot idx).seq = next then
      match (self.slot idx).data with
      | some data => do
        let self := self.setSlot idx { self.slot idx with data := none }
        let (self, dropped) ← dropLoop checks n (idx + 1#w) self
        .ok (self, data :: dropped)
      | none => .error .undefined
    else dropLoop checks n (idx + 1#w) self

/-- **`Inner::drop`**, with the values it drops. -/
def drop (checks needsDrop : Bool) (self : Inner T pow w) : Raw (Inner T pow w × List T) :=
  if needsDrop = false then .ok (self, [])
  else dropLoop checks (self.tail - self.head).toNat self.head self

end Inner

/-! ## The steps of a call -/

/-- What a call has left to do: the calls of `Mpmc.Call`, on words. -/
inductive Call (T : Type) (w : ℕ) where
  | pushLoadTail (val : T)
  | pushLoadSeq (val : T) (idx : BitVec w)
  | pushCas (val : T) (idx : BitVec w)
  | pushWrite (val : T) (idx : BitVec w)
  | pushStoreSeq (idx : BitVec w)
  | popLoadHead
  | popLoadSeq (idx : BitVec w)
  | popCas (idx : BitVec w)
  | popRead (idx : BitVec w)
  | popStoreSeq (idx : BitVec w) (data : T)
deriving DecidableEq

open Call

/-- The first step of a call. -/
def invoke : Op T → Call T w
  | .push val => pushLoadTail val
  | .pop => popLoadHead

/-- **One step of a call**, in a build with overflow checks or without. -/
def exec (checks : Bool) (q : Inner T pow w) (spurious : Bool) :
    Call T w → Raw (Inner T pow w × (Call T w ⊕ Outcome T))
  | pushLoadTail val => .ok (q, .inl (pushLoadSeq val q.tail))
  | pushLoadSeq val idx =>
    let diff : ℤ := ((q.slot idx).seq - idx).toInt
    if diff = 0 then .ok (q, .inl (pushCas val idx))
    else if diff < 0 then .ok (q, .inr (.full val))
    else .ok (q, .inl (pushLoadTail val))
  | pushCas val idx => do
    let next ← Raw.lift (Counter.add checks idx 1#w)
    if q.tail = idx ∧ spurious = false then
      .ok ({ q with tail := next }, .inl (pushWrite val idx))
    else .ok (q, .inl (pushLoadSeq val q.tail))
  | pushWrite val idx =>
    .ok (q.setSlot idx { q.slot idx with data := some val }, .inl (pushStoreSeq idx))
  | pushStoreSeq idx => do
    let seq ← Raw.lift (Counter.add checks idx 1#w)
    .ok (q.setSlot idx { q.slot idx with seq }, .inr .pushed)
  | popLoadHead => .ok (q, .inl (popLoadSeq q.head))
  | popLoadSeq idx => do
    let next ← Raw.lift (Counter.add checks idx 1#w)
    let diff : ℤ := ((q.slot idx).seq - next).toInt
    if diff = 0 then .ok (q, .inl (popCas idx))
    else if diff < 0 then .ok (q, .inr .empty)
    else .ok (q, .inl popLoadHead)
  | popCas idx => do
    let next ← Raw.lift (Counter.add checks idx 1#w)
    if q.head = idx ∧ spurious = false then
      .ok ({ q with head := next }, .inl (popRead idx))
    else .ok (q, .inl (popLoadSeq q.head))
  | popRead idx =>
    match (q.slot idx).data with
    | some data => .ok (q.setSlot idx { q.slot idx with data := none }, .inl (popStoreSeq idx data))
    | none => .error .undefined
  | popStoreSeq idx data => do
    let seq ← Raw.lift (Counter.add checks idx q.len)
    .ok (q.setSlot idx { q.slot idx with seq }, .inr (.popped data))

/-! ## One call after another -/

/-- A step that can fail spuriously. -/
def Call.isCas : Call T w → Bool
  | pushCas _ _ | popCas _ => true
  | _ => false

/-- **A call run to its end**, the next `failures` of its compare-exchanges
failing spuriously. -/
def finish (checks : Bool) :
    ℕ → ℕ → Inner T pow w → Call T w → Raw (Inner T pow w × Outcome T)
  | 0, _, _, _ => .error (.panic .diverges)
  | fuel + 1, failures, q, c => do
    match ← exec checks q (c.isCas && failures != 0) c with
    | (q, .inr o) => .ok (q, o)
    | (q, .inl c') => finish checks fuel (if c.isCas then failures - 1 else failures) q c'

/-- **Calls one after another**, each with the number of its spurious failures, and
what they return. A call takes two steps more for each failure. -/
def runCalls (checks : Bool) : Inner T pow w → List (Op T × ℕ) → Raw (List (Outcome T))
  | _, [] => .ok []
  | q, (op, failures) :: calls => do
    let (q, o) ← finish checks (2 * failures + 5) failures q (invoke op)
    let os ← runCalls checks q calls
    .ok (o :: os)

section Finish

variable {checks : Bool} {fuel failures : ℕ} {q q' : Inner T pow w} {c c' : Call T w}

/-- A step that goes on. -/
theorem finish_next (hc : c.isCas = false) (h : exec checks q false c = .ok (q', .inl c')) :
    finish checks (fuel + 1) failures q c = finish checks fuel failures q' c' := by
  rw [finish, hc, Bool.false_and, h]
  rfl

/-- The last step. -/
theorem finish_last {o : Outcome T} (hc : c.isCas = false)
    (h : exec checks q false c = .ok (q', .inr o)) :
    finish checks (fuel + 1) failures q c = .ok (q', o) := by
  rw [finish, hc, Bool.false_and, h]
  rfl

/-- A step that panics. -/
theorem finish_stop {e : Stop} (h : ∀ spurious, exec checks q spurious c = .error e) :
    finish checks (fuel + 1) failures q c = .error e := by
  rw [finish, h]
  rfl

/-- A compare-exchange. -/
theorem finish_cas (hc : c.isCas = true)
    (h : exec checks q (failures != 0) c = .ok (q', .inl c')) :
    finish checks (fuel + 1) failures q c = finish checks fuel (failures - 1) q' c' := by
  rw [finish, hc, Bool.true_and, h]
  rfl

end Finish

/-- The words of a slot. -/
def Slot.wrap (w : ℕ) (slot : Mpmc.Slot T) : Slot T w := ⟨BitVec.ofNat w slot.seq, slot.data⟩

/-- **The words of a queue** whose counters do not wrap. -/
def Inner.wrap (w : ℕ) (q : Mpmc.Inner T pow) : Inner T pow w :=
  ⟨fun i => Slot.wrap w (q.buf i), BitVec.ofNat w q.head, BitVec.ofNat w q.tail⟩

section Sequential

variable {q : Mpmc.Inner T pow} {stored : List T} {checks : Bool}

theorem wrap_empty : Inner.wrap w (Mpmc.Inner.empty pow : Mpmc.Inner T pow) = .empty pow w := rfl

theorem slot_wrap (hpow : pow ≤ w) (pos : ℕ) :
    (Inner.wrap w q).slot (BitVec.ofNat w pos) = Slot.wrap w (q.slot pos) := by
  rw [Inner.slot, Ring.get, Counter.mask_toNat_ofNat hpow]
  rfl

theorem setSlot_wrap (hpow : pow ≤ w) (pos : ℕ) (slot : Mpmc.Slot T) :
    (Inner.wrap w q).setSlot (BitVec.ofNat w pos) (Slot.wrap w slot)
      = Inner.wrap w (q.setSlot pos slot) := by
  rw [Inner.setSlot, Ring.set, Counter.mask_toNat_ofNat hpow]
  unfold Inner.wrap Mpmc.Inner.setSlot Ring.set
  congr 1
  funext i
  by_cases hi : i = Ring.mask pos
  · rw [hi]
    dsimp only
    rw [Function.update_self, Function.update_self]
  · dsimp only
    rw [Function.update_of_ne hi, Function.update_of_ne hi]

/-- The sequence number of a slot and a position, near each other. -/
theorem seq_sub_toInt (hw : 0 < w) {seq pos : ℕ} (hle : seq ≤ pos) (hge : pos ≤ seq + 2 ^ (w - 1)) :
    (BitVec.ofNat w seq - BitVec.ofNat w pos).toInt = (seq : ℤ) - pos := by
  have := Nat.two_pow_pos (w - 1)
  exact Counter.toInt_ofNat_sub (by omega) hge hw

/-- The position next to one, as a word. -/
theorem add_one_eq (hw : 0 < w) {n : ℕ} (hfit : checks = true → n < 2 ^ w - 1) :
    Counter.add checks (BitVec.ofNat w n) 1#w = .ok (BitVec.ofNat w (n + 1)) := by
  rw [Counter.add_one_eq_ok hw, ← BitVec.ofNat_add]
  intro hc
  have := hfit hc
  rw [BitVec.toNat_ofNat, Nat.mod_eq_of_lt (by omega)]
  exact this

/-- And the position a lap further. -/
theorem add_len_eq (hpow : pow < w) {n : ℕ} (hfit : checks = true → n < 2 ^ w - 2 ^ pow) :
    Counter.add checks (BitVec.ofNat w n) (Inner.wrap w q).len
      = .ok (BitVec.ofNat w (n + 2 ^ pow)) := by
  have hpos := Nat.two_pow_pos pow
  have hlt : 2 ^ pow < 2 ^ w := Nat.pow_lt_pow_right (by omega) hpow
  rw [Inner.len, Counter.add_eq_ok, ← BitVec.ofNat_add]
  intro hc
  have := hfit hc
  rw [BitVec.toNat_ofNat, BitVec.toNat_ofNat, Nat.mod_eq_of_lt (by omega), Nat.mod_eq_of_lt hlt]
  omega

section Push

variable (hpow : pow < w) (val : T)

include hpow

/-- A push on a free slot of the tail tries to claim it. -/
theorem exec_pushReady (hseq : (q.slot q.tail).seq = q.tail) (spurious : Bool) :
    exec checks (Inner.wrap w q) spurious (pushLoadSeq val (BitVec.ofNat w q.tail))
      = .ok (Inner.wrap w q, .inl (pushCas val (BitVec.ofNat w q.tail))) := by
  rw [exec, slot_wrap hpow.le, Slot.wrap, hseq,
    seq_sub_toInt (by omega) le_rfl (Nat.le_add_right _ _), sub_self]
  exact if_pos rfl

/-- A push on a slot with an element of the lap before gives up. -/
theorem exec_pushFull {seq : ℕ} (hseq : (q.slot q.tail).seq = seq) (hlt : seq < q.tail)
    (hge : q.tail ≤ seq + 2 ^ (w - 1)) (spurious : Bool) :
    exec checks (Inner.wrap w q) spurious (pushLoadSeq val (BitVec.ofNat w q.tail))
      = .ok (Inner.wrap w q, .inr (.full val)) := by
  rw [exec, slot_wrap hpow.le, Slot.wrap, hseq, seq_sub_toInt (by omega) hlt.le hge,
    if_neg (by omega), if_pos (by omega)]

/-- The claim goes through, or fails spuriously. -/
theorem exec_pushCas (hfit : checks = true → q.tail < 2 ^ w - 1) (spurious : Bool) :
    exec checks (Inner.wrap w q) spurious (pushCas val (BitVec.ofNat w q.tail))
      = if spurious = false then
          .ok (Inner.wrap w { q with tail := q.tail + 1 },
            .inl (pushWrite val (BitVec.ofNat w q.tail)))
        else .ok (Inner.wrap w q, .inl (pushLoadSeq val (BitVec.ofNat w q.tail))) := by
  rw [exec, add_one_eq (by omega) hfit]
  cases spurious with
  | false => exact if_pos ⟨rfl, rfl⟩
  | true => exact if_neg fun hc => Bool.noConfusion hc.2

/-- What is left after the claim. -/
theorem finish_pushWrite {q : Mpmc.Inner T pow} {n : ℕ} (hfit : checks = true → n < 2 ^ w - 1)
    (failures : ℕ) :
    finish checks 2 failures (Inner.wrap w q) (pushWrite val (BitVec.ofNat w n))
      = .ok (Inner.wrap w (q.setSlot n ⟨n + 1, some val⟩), .pushed) := by
  have hwrite : exec checks (Inner.wrap w q) false (pushWrite val (BitVec.ofNat w n))
      = .ok (Inner.wrap w (q.setSlot n { q.slot n with data := some val }),
        .inl (pushStoreSeq (BitVec.ofNat w n))) := by
    rw [exec, slot_wrap hpow.le]
    exact congrArg (fun q' => Except.ok (q', _))
      (setSlot_wrap hpow.le n { q.slot n with data := some val })
  have hstore : exec checks (Inner.wrap w (q.setSlot n { q.slot n with data := some val })) false
      (pushStoreSeq (BitVec.ofNat w n))
      = .ok (Inner.wrap w (q.setSlot n ⟨n + 1, some val⟩), .inr .pushed) := by
    rw [exec, slot_wrap hpow.le, add_one_eq (by omega) hfit, Mpmc.Inner.slot_setSlot_self]
    have hset := setSlot_wrap (q := q.setSlot n { q.slot n with data := some val }) hpow.le n
      ⟨n + 1, some val⟩
    rw [Mpmc.setSlot_setSlot] at hset
    exact congrArg (fun q' => Except.ok (q', _)) hset
  rw [finish_next rfl hwrite, finish_last rfl hstore]

/-- **A push on a free slot** stores its value, however often its claim fails. -/
theorem finish_push (hseq : (q.slot q.tail).seq = q.tail)
    (hfit : checks = true → q.tail < 2 ^ w - 1) (failures : ℕ) :
    finish checks (2 * failures + 5) failures (Inner.wrap w q) (invoke (.push val))
      = .ok (Inner.wrap w (q.pushed val), .pushed) := by
  have hloop : finish checks (2 * failures + 4) failures (Inner.wrap w q)
      (pushLoadSeq val (BitVec.ofNat w q.tail)) = .ok (Inner.wrap w (q.pushed val), .pushed) := by
    induction failures with
    | zero =>
      rw [Nat.mul_zero, Nat.zero_add, finish_next rfl (exec_pushReady hpow val hseq false),
        finish_cas rfl (exec_pushCas hpow val hfit false), finish_pushWrite hpow val hfit]
      rfl
    | succ failures ih =>
      rw [show 2 * (failures + 1) + 4 = 2 * failures + 4 + 1 + 1 by omega,
        finish_next rfl (exec_pushReady hpow val hseq false),
        finish_cas rfl (exec_pushCas hpow val hfit true)]
      exact ih
  rw [invoke, finish_next rfl rfl]
  exact hloop

/-- **A push on a free slot at the end of the tail** panics. -/
theorem finish_push_overflow (hseq : (q.slot q.tail).seq = q.tail) (hend : q.tail = 2 ^ w - 1)
    (failures : ℕ) :
    finish true (2 * failures + 5) failures (Inner.wrap w q) (invoke (.push val))
      = .error (.panic .overflow) := by
  have hw : 0 < w := by omega
  have htwo := Nat.two_pow_pos w
  have hcas : ∀ spurious, exec true (Inner.wrap w q) spurious
      (pushCas val (BitVec.ofNat w q.tail)) = .error (.panic .overflow) := fun spurious => by
    rw [exec, Counter.add_one_eq_overflow hw]
    · rfl
    · rw [BitVec.toNat_ofNat, Nat.mod_eq_of_lt (by omega), hend]
  rw [invoke, finish_next rfl rfl, show 2 * failures + 4 = 2 * failures + 2 + 1 + 1 by omega]
  exact (finish_next rfl (exec_pushReady hpow val hseq false)).trans (finish_stop hcas)

/-- A push on a slot with an element of the lap before gives its value back. -/
theorem finish_full {seq : ℕ} (hseq : (q.slot q.tail).seq = seq) (hlt : seq < q.tail)
    (hge : q.tail ≤ seq + 2 ^ (w - 1)) (failures : ℕ) :
    finish checks (2 * failures + 5) failures (Inner.wrap w q) (invoke (.push val))
      = .ok (Inner.wrap w q, .full val) := by
  rw [invoke, finish_next rfl rfl]
  exact finish_last rfl (exec_pushFull hpow val hseq hlt hge false)

end Push

section Pop

variable (hpow : pow < w)

include hpow

/-- A pop on a published slot of the head tries to claim it. -/
theorem exec_popReady (hseq : (q.slot q.head).seq = q.head + 1)
    (hfit : checks = true → q.head < 2 ^ w - 1) (spurious : Bool) :
    exec checks (Inner.wrap w q) spurious (popLoadSeq (BitVec.ofNat w q.head))
      = .ok (Inner.wrap w q, .inl (popCas (BitVec.ofNat w q.head))) := by
  rw [exec, add_one_eq (by omega) hfit, Raw.lift_ok, Raw.ok_bind, slot_wrap hpow.le, Slot.wrap,
    hseq, seq_sub_toInt (by omega) le_rfl (Nat.le_add_right _ _), sub_self]
  exact if_pos rfl

/-- A pop on a free slot of the head gives up. -/
theorem exec_popEmpty (hseq : (q.slot q.head).seq = q.head)
    (hfit : checks = true → q.head < 2 ^ w - 1) (spurious : Bool) :
    exec checks (Inner.wrap w q) spurious (popLoadSeq (BitVec.ofNat w q.head))
      = .ok (Inner.wrap w q, .inr .empty) := by
  have hpos := Nat.two_pow_pos (w - 1)
  rw [exec, add_one_eq (by omega) hfit, Raw.lift_ok, Raw.ok_bind, slot_wrap hpow.le, Slot.wrap,
    hseq, seq_sub_toInt (by omega) (Nat.le_succ _) (by omega), if_neg (by omega), if_pos (by omega)]

/-- The claim goes through, or fails spuriously. -/
theorem exec_popCas (hfit : checks = true → q.head < 2 ^ w - 1) (spurious : Bool) :
    exec checks (Inner.wrap w q) spurious (popCas (BitVec.ofNat w q.head))
      = if spurious = false then
          .ok (Inner.wrap w { q with head := q.head + 1 }, .inl (popRead (BitVec.ofNat w q.head)))
        else .ok (Inner.wrap w q, .inl (popLoadSeq (BitVec.ofNat w q.head))) := by
  rw [exec, add_one_eq (by omega) hfit]
  cases spurious with
  | false => exact if_pos ⟨rfl, rfl⟩
  | true => exact if_neg fun hc => Bool.noConfusion hc.2

/-- The value is read out of the claimed slot. -/
theorem exec_popRead {q : Mpmc.Inner T pow} {n seq : ℕ} {val : T}
    (hslot : q.slot n = ⟨seq, some val⟩) :
    exec checks (Inner.wrap w q) false (popRead (BitVec.ofNat w n))
      = .ok (Inner.wrap w (q.setSlot n ⟨seq, none⟩),
          .inl (popStoreSeq (BitVec.ofNat w n) val)) := by
  rw [exec, slot_wrap hpow.le, hslot]
  exact congrArg (fun q' => Except.ok (q', _)) (setSlot_wrap hpow.le n ⟨seq, none⟩)

/-- And the slot is given back for the position a lap further. -/
theorem exec_popStoreSeq {q : Mpmc.Inner T pow} {n seq : ℕ} (val : T)
    (hfit : checks = true → n < 2 ^ w - 2 ^ pow) :
    exec checks (Inner.wrap w (q.setSlot n ⟨seq, none⟩)) false (popStoreSeq (BitVec.ofNat w n) val)
      = .ok (Inner.wrap w (q.setSlot n ⟨n + 2 ^ pow, none⟩), .inr (.popped val)) := by
  have hset := setSlot_wrap (q := q.setSlot n ⟨seq, none⟩) hpow.le n ⟨n + 2 ^ pow, none⟩
  rw [Mpmc.setSlot_setSlot] at hset
  rw [exec, slot_wrap hpow.le, add_len_eq hpow hfit, Mpmc.Inner.slot_setSlot_self]
  exact congrArg (fun q' => Except.ok (q', _)) hset

/-- A pop on a published slot comes to its claim, however often that fails. -/
theorem finish_pop_eq {val : T} (hslot : q.slot q.head = ⟨q.head + 1, some val⟩)
    (hfit : checks = true → q.head < 2 ^ w - 1) (failures : ℕ) :
    finish checks (2 * failures + 5) failures (Inner.wrap w q) (invoke .pop)
      = finish checks 2 0 (Inner.wrap w { q with head := q.head + 1 })
        (popRead (BitVec.ofNat w q.head)) := by
  have hseq : (q.slot q.head).seq = q.head + 1 := by rw [hslot]
  have hloop : finish checks (2 * failures + 4) failures (Inner.wrap w q)
      (popLoadSeq (BitVec.ofNat w q.head))
        = finish checks 2 0 (Inner.wrap w { q with head := q.head + 1 })
          (popRead (BitVec.ofNat w q.head)) := by
    induction failures with
    | zero =>
      rw [Nat.mul_zero, Nat.zero_add, finish_next rfl (exec_popReady hpow hseq hfit false),
        finish_cas rfl (exec_popCas hpow hfit false)]
    | succ failures ih =>
      rw [show 2 * (failures + 1) + 4 = 2 * failures + 4 + 1 + 1 by omega,
        finish_next rfl (exec_popReady hpow hseq hfit false),
        finish_cas rfl (exec_popCas hpow hfit true)]
      exact ih
  rw [invoke, finish_next rfl rfl]
  exact hloop

/-- **A pop on a published slot** takes its value. -/
theorem finish_pop {val : T} (hslot : q.slot q.head = ⟨q.head + 1, some val⟩)
    (hfit : checks = true → q.head < 2 ^ w - 2 ^ pow) (failures : ℕ) :
    finish checks (2 * failures + 5) failures (Inner.wrap w q) (invoke .pop)
      = .ok (Inner.wrap w q.popped, .popped val) := by
  have hpos := Nat.two_pow_pos pow
  rw [finish_pop_eq hpow hslot fun hc => (hfit hc).trans_le (by omega),
    finish_next rfl (exec_popRead hpow (by rwa [Mpmc.Inner.slot_head])),
    finish_last rfl (exec_popStoreSeq hpow val hfit)]
  rfl

/-- **A pop that gives its slot back for a position of `2 ^ w` or more** panics. -/
theorem finish_pop_overflow {val : T} (hslot : q.slot q.head = ⟨q.head + 1, some val⟩)
    (hlt : q.head < 2 ^ w - 1) (hend : 2 ^ w - 2 ^ pow ≤ q.head) (failures : ℕ) :
    finish true (2 * failures + 5) failures (Inner.wrap w q) (invoke .pop)
      = .error (.panic .overflow) := by
  have hpows : 2 ^ pow < 2 ^ w := Nat.pow_lt_pow_right (by omega) hpow
  rw [finish_pop_eq hpow hslot fun _ => hlt,
    finish_next rfl (exec_popRead hpow (by rwa [Mpmc.Inner.slot_head]))]
  refine finish_stop fun spurious => ?_
  rw [exec, Inner.len, Counter.add_eq_overflow]
  · rfl
  · rw [BitVec.toNat_ofNat, BitVec.toNat_ofNat, Nat.mod_eq_of_lt (by omega), Nat.mod_eq_of_lt hpows]
    omega

/-- A pop on a free slot finds nothing. -/
theorem finish_empty (hseq : (q.slot q.head).seq = q.head)
    (hfit : checks = true → q.head < 2 ^ w - 1) (failures : ℕ) :
    finish checks (2 * failures + 5) failures (Inner.wrap w q) (invoke .pop)
      = .ok (Inner.wrap w q, .empty) := by
  rw [invoke, finish_next rfl rfl]
  exact finish_last rfl (exec_popEmpty hpow hseq hfit false)

end Pop

section Run

variable (hone : 1 ≤ pow) (hpow : pow + 1 < w)

include hone hpow

/-- **A call does what that of the bounded queue does**, or it would be accepted
and comes to the end of a counter. -/
theorem finish_eq (h : Mpmc.Stored q stored) (htail : checks = true → q.tail ≤ 2 ^ w - 1)
    (hhead : checks = true → q.head ≤ 2 ^ w - 2 ^ pow) (op : Op T) (failures : ℕ) :
    let next := Fifo.apply (2 ^ pow) stored op
    ∃ q', Mpmc.Stored q' next.1
      ∧ q'.tail = q.tail + (if next.2.isPushed then 1 else 0)
      ∧ q'.head = q.head + (if next.2.isPopped then 1 else 0)
      ∧ finish checks (2 * failures + 5) failures (Inner.wrap w q) (invoke op)
        = if checks = true ∧ ((q.tail = 2 ^ w - 1 ∧ next.2.isPushed = true)
            ∨ (q.head = 2 ^ w - 2 ^ pow ∧ next.2.isPopped = true)) then
          .error (.panic .overflow)
        else .ok (Inner.wrap w q', next.2) := by
  have hlt : pow < w := by omega
  have htwo : 2 ≤ 2 ^ pow := Nat.le_self_pow (by omega) 2
  have hpows : 2 ^ pow < 2 ^ w := Nat.pow_lt_pow_right (by omega) hlt
  have hhalf : 2 ^ pow ≤ 2 ^ (w - 1) := Nat.pow_le_pow_right (by omega) (by omega)
  have hhead' : checks = true → q.head < 2 ^ w - 1 := fun hc => (hhead hc).trans_lt (by omega)
  cases op with
  | push val =>
    by_cases hroom : stored.length < 2 ^ pow
    · -- accepted, unless the next tail has no word
      have happly : Fifo.apply (2 ^ pow) stored (.push val) = (stored ++ [val], .pushed) :=
        if_pos hroom
      have hseq : (q.slot q.tail).seq = q.tail := by rw [h.slot_tail hroom]
      rw [happly]
      refine ⟨q.pushed val, h.pushed hroom val, rfl, rfl, ?_⟩
      by_cases hover : checks = true ∧ q.tail = 2 ^ w - 1
      · rw [if_pos ⟨hover.1, Or.inl ⟨hover.2, rfl⟩⟩, hover.1,
          finish_push_overflow hlt val hseq hover.2]
      · rw [if_neg, finish_push hlt val hseq]
        · intro hc
          have hle := htail hc
          have hne : q.tail ≠ 2 ^ w - 1 := fun heq => hover ⟨hc, heq⟩
          omega
        · rintro ⟨hc, ⟨hend, _⟩ | ⟨_, hfalse⟩⟩
          · exact hover ⟨hc, hend⟩
          · cases hfalse
    · -- given back before any addition that could panic
      have happly : Fifo.apply (2 ^ pow) stored (.push val) = (stored, .full val) := if_neg hroom
      have hseq := h.seq_tail_of_full (Nat.le_antisymm h.length_le (Nat.le_of_not_lt hroom))
      rw [happly]
      refine ⟨q, h, rfl, rfl, ?_⟩
      rw [finish_full hlt val rfl (by omega) (by omega), if_neg]
      rintro ⟨_, ⟨_, hfalse⟩ | ⟨_, hfalse⟩⟩ <;> cases hfalse
  | pop =>
    cases stored with
    | nil =>
      have hslot := h.slot_tail (Nat.two_pow_pos pow)
      have hempty : q.tail = q.head := h.tail_eq
      rw [hempty] at hslot
      refine ⟨q, h, rfl, rfl, ?_⟩
      rw [finish_empty hlt (by rw [hslot]) hhead', if_neg]
      · rfl
      · rintro ⟨_, ⟨_, hfalse⟩ | ⟨_, hfalse⟩⟩ <;> cases hfalse
    | cons val rest =>
      -- popped, unless the number of the slot a lap further has no word
      refine ⟨q.popped, h.popped, rfl, rfl, ?_⟩
      by_cases hover : checks = true ∧ q.head = 2 ^ w - 2 ^ pow
      · rw [if_pos ⟨hover.1, Or.inr ⟨hover.2, rfl⟩⟩, hover.1,
          finish_pop_overflow hlt h.slot_head (hhead' hover.1) hover.2.ge]
      · rw [if_neg, finish_pop hlt h.slot_head]
        · rfl
        · intro hc
          have hle := hhead hc
          have hne : q.head ≠ 2 ^ w - 2 ^ pow := fun heq => hover ⟨hc, heq⟩
          omega
        · rintro ⟨hc, ⟨_, hfalse⟩ | ⟨hend, _⟩⟩
          · cases hfalse
          · exact hover ⟨hc, hend⟩

/-- **A run of calls is one of the bounded queue**, or more calls would be accepted
than the counters count. -/
theorem runCalls_eq (h : Mpmc.Stored q stored) (htail : checks = true → q.tail ≤ 2 ^ w - 1)
    (hhead : checks = true → q.head ≤ 2 ^ w - 2 ^ pow) (calls : List (Op T × ℕ)) :
    let os := (Fifo.run (2 ^ pow) stored (calls.map Prod.fst)).2
    runCalls checks (Inner.wrap w q) calls
      = if checks = true ∧ (2 ^ w - 1 < q.tail + Fifo.accepted os
          ∨ 2 ^ w - 2 ^ pow < q.head + Fifo.taken os) then .error (.panic .overflow)
        else .ok os := by
  induction calls generalizing q stored with
  | nil =>
    refine (if_neg fun hc => ?_).symm
    have hle := htail hc.1
    have hle' := hhead hc.1
    have haccepted : Fifo.accepted ([] : List (Outcome T)) = 0 := rfl
    have htaken : Fifo.taken ([] : List (Outcome T)) = 0 := rfl
    simp only [List.map_nil, Fifo.run] at hc
    omega
  | cons call calls ih =>
    obtain ⟨op, failures⟩ := call
    obtain ⟨q', hstored, htail', hhead', hfinish⟩ := finish_eq hone hpow h htail hhead op failures
    simp only [runCalls, hfinish, List.map_cons, Fifo.run, Fifo.accepted_cons, Fifo.taken_cons]
    by_cases hover : checks = true
        ∧ ((q.tail = 2 ^ w - 1 ∧ (Fifo.apply (2 ^ pow) stored op).2.isPushed = true)
          ∨ (q.head = 2 ^ w - 2 ^ pow ∧ (Fifo.apply (2 ^ pow) stored op).2.isPopped = true))
    · rw [if_pos hover, if_pos]
      · rfl
      · refine ⟨hover.1, hover.2.imp (fun hend => ?_) fun hend => ?_⟩
        · rw [if_pos hend.2]
          omega
        · rw [if_pos hend.2]
          omega
    · have hfit : checks = true → q'.tail ≤ 2 ^ w - 1 := fun hc => by
        have hle := htail hc
        rw [htail']
        split_ifs with hpushed
        · have hne : q.tail ≠ 2 ^ w - 1 := fun heq => hover ⟨hc, Or.inl ⟨heq, hpushed⟩⟩
          omega
        · exact hle
      have hfit' : checks = true → q'.head ≤ 2 ^ w - 2 ^ pow := fun hc => by
        have hle := hhead hc
        rw [hhead']
        split_ifs with hpopped
        · have hne : q.head ≠ 2 ^ w - 2 ^ pow := fun heq => hover ⟨hc, Or.inr ⟨heq, hpopped⟩⟩
          omega
        · exact hle
      rw [if_neg hover, Raw.ok_bind, ih hstored hfit hfit', htail', hhead']
      simp only [Nat.add_assoc, Nat.add_comm (Fifo.accepted _), Nat.add_comm (Fifo.taken _)]
      split_ifs <;> rfl

end Run

end Sequential

/-! ## All interleavings -/

/-- The queue with its threads. -/
structure State (τ T : Type) (pow w : ℕ) where
  inner : Inner T pow w
  call : τ → Option (Call T w)

/-- What a thread may do. -/
inductive Action (T : Type) where
  | call (op : Op T)
  | step (spurious : Bool)
deriving DecidableEq

/-- **All interleavings** of the calls of all threads, in a build with overflow
checks. A call that panics has no successor. -/
def system (τ T : Type) [DecidableEq τ] (pow w : ℕ) : System (State τ T pow w) (τ × Action T) where
  init := ⟨.empty pow w, fun _ => none⟩
  next s a :=
    match s.call a.1, a.2 with
    | none, .call op => some { s with call := Function.update s.call a.1 (some (invoke op)) }
    | some c, .step spurious =>
      match exec true s.inner spurious c with
      | .ok (q, r) => some ⟨q, Function.update s.call a.1 (r.elim some fun _ => none)⟩
      | .error _ => none
    | _, _ => none

/-- The step of a thread panics at an addition. -/
def Overflows (s : State τ T pow w) (a : τ × Action T) : Prop :=
  ∃ c spurious, s.call a.1 = some c ∧ a.2 = .step spurious
    ∧ exec true s.inner spurious c = .error (.panic .overflow)

/-- **The position at a counter is claimed only while** fewer pushes were accepted
than the counter counts, and fewer pops than there are positions to give a slot
back for. -/
structure Within (s : State τ T pow w) (a : τ × Action T) : Prop where
  push : ∀ val idx, s.call a.1 = some (pushCas val idx) → idx = s.inner.tail →
    s.inner.tail.toNat < 2 ^ w - 1
  pop : ∀ idx, s.call a.1 = some (popCas idx) → a.2 = .step false → idx = s.inner.head →
    s.inner.head.toNat < 2 ^ w - 2 ^ pow

/-- A call that claims a position has room to. -/
def Call.Claims (q : Inner T pow w) (a : Action T) : Call T w → Prop
  | pushCas _ idx => idx = q.tail → q.tail.toNat < 2 ^ w - 1
  | popCas idx => a = .step false → idx = q.head → q.head.toNat < 2 ^ w - 2 ^ pow
  | _ => True

instance [DecidableEq T] (q : Inner T pow w) (a : Action T) (c : Call T w) :
    Decidable (c.Claims q a) := by
  cases c <;> unfold Call.Claims <;> infer_instance

instance [DecidableEq T] (s : State τ T pow w) (a : τ × Action T) : Decidable (Within s a) :=
  decidable_of_iff (∀ c ∈ s.call a.1, c.Claims s.inner a.2)
    ⟨fun h => ⟨fun _ _ hc => h _ hc, fun _ hc => h _ hc⟩, fun h c hc => by
      cases c with
      | pushCas val idx => exact h.push val idx hc
      | popCas idx => exact h.pop idx hc
      | _ => trivial⟩

/-- **The counters and slots of a queue in use**: a sequence number that is not one
for which the slot is free is one that a push has published. -/
structure Ordered (q : Inner T pow w) : Prop where
  head_le : q.head.toNat ≤ q.tail.toNat
  head_fit : q.head.toNat ≤ 2 ^ w - 2 ^ pow
  seq : ∀ pos, (q.slot pos).seq.toNat % 2 ^ pow = pos.toNat % 2 ^ pow
    ∨ (q.slot pos).seq.toNat ≤ q.tail.toNat

/-- What a call has in hand: a position no further than the counter, and before it
once it is claimed. -/
def CallOk (q : Inner T pow w) : Call T w → Prop
  | pushLoadTail _ | popLoadHead => True
  | pushLoadSeq _ idx | pushCas _ idx => idx.toNat ≤ q.tail.toNat
  | pushWrite _ idx | pushStoreSeq idx => idx.toNat < q.tail.toNat
  | popLoadSeq idx => idx.toNat ≤ q.head.toNat
  | popCas idx => idx.toNat ≤ q.head.toNat ∧ idx.toNat < q.tail.toNat
  | popRead idx | popStoreSeq idx _ => idx.toNat < q.head.toNat

/-- **The invariant.** -/
structure Inv (s : State τ T pow w) : Prop where
  ordered : Ordered s.inner
  callOk : ∀ t c, s.call t = some c → CallOk s.inner c

section Interleavings

variable {q q' : Inner T pow w} {c : Call T w} {r : Call T w ⊕ Outcome T} {spurious : Bool}

/-- The counters only grow. -/
theorem CallOk.mono (h : CallOk q c) (htail : q.tail.toNat ≤ q'.tail.toNat)
    (hhead : q.head.toNat ≤ q'.head.toNat) : CallOk q' c := by
  cases c with
  | pushLoadTail | popLoadHead => trivial
  | pushLoadSeq | pushCas => exact Nat.le_trans h htail
  | pushWrite | pushStoreSeq => exact Nat.lt_of_lt_of_le h htail
  | popLoadSeq => exact Nat.le_trans h hhead
  | popCas => exact ⟨h.1.trans hhead, h.2.trans_le htail⟩
  | popRead | popStoreSeq => exact Nat.lt_of_lt_of_le h hhead

/-- The slot of a position after that of another was changed. -/
theorem slot_setSlot (q : Inner T pow w) (pos pos' : BitVec w) (slot : Slot T w) :
    (q.setSlot pos slot).slot pos'
      = if pos'.toNat % 2 ^ pow = pos.toNat % 2 ^ pow then slot else q.slot pos' := by
  unfold Inner.slot Inner.setSlot
  split_ifs with heq
  · rw [Ring.get, Ring.mask_eq_mask_iff.mpr heq]
    exact Function.update_self ..
  · exact Ring.get_set_of_ne _ _ fun h => heq (Ring.mask_eq_mask_iff.mp h)

/-- A slot given a sequence number. -/
theorem Ordered.setSlot (h : Ordered q) {pos : BitVec w} {slot : Slot T w}
    (hseq : slot.seq.toNat % 2 ^ pow = pos.toNat % 2 ^ pow ∨ slot.seq.toNat ≤ q.tail.toNat) :
    Ordered (q.setSlot pos slot) where
  head_le := h.head_le
  head_fit := h.head_fit
  seq pos' := by
    rw [slot_setSlot]
    split_ifs with heq
    · rw [heq]
      exact hseq
    · exact h.seq pos'

/-- **A published slot is before the tail.** -/
theorem Ordered.lt_tail (h : Ordered q) (hone : 1 ≤ pow) {idx : BitVec w}
    (hseq : (q.slot idx).seq.toNat = idx.toNat + 1) : idx.toNat < q.tail.toNat := by
  have htwo : 2 ≤ 2 ^ pow := Nat.le_self_pow (by omega) 2
  rcases h.seq idx with hfree | hle
  · rw [hseq] at hfree
    have := Nat.sub_mod_eq_zero_of_mod_eq hfree
    rw [Nat.add_sub_cancel_left, Nat.mod_eq_of_lt (by omega)] at this
    omega
  · omega

/-- A sum that did not panic. -/
theorem exists_of_lift_add {α : Type} {a b : BitVec w} {f : BitVec w → Raw α} {x : α}
    (h : (do let next ← Raw.lift (Counter.add true a b); f next : Raw α) = .ok x) :
    ∃ next, next.toNat = a.toNat + b.toNat ∧ f next = .ok x := by
  cases hadd : Counter.add true a b with
  | error e =>
    rw [hadd] at h
    cases h
  | ok next =>
    rw [hadd] at h
    exact ⟨next, Counter.toNat_of_add_eq_ok hadd, h⟩

/-- **What a step keeps.** -/
structure Kept (q q' : Inner T pow w) (r : Call T w ⊕ Outcome T) : Prop where
  ordered : Ordered q'
  tail_le : q.tail.toNat ≤ q'.tail.toNat
  head_le : q.head.toNat ≤ q'.head.toNat
  callOk : ∀ c, r = .inl c → CallOk q' c

/-- A step that leaves the queue alone. -/
theorem Ordered.kept (h : Ordered q) (hr : ∀ c, r = .inl c → CallOk q c) : Kept q q r :=
  ⟨h, le_rfl, le_rfl, hr⟩

/-- **A step of a call keeps the counters and slots in order.** -/
theorem exec_kept (hone : 1 ≤ pow) (hpow : pow < w) (hq : Ordered q) (hc : CallOk q c)
    (hclaim : ∀ idx, c = popCas idx → spurious = false → idx = q.head →
      q.head.toNat < 2 ^ w - 2 ^ pow)
    (h : exec true q spurious c = .ok (q', r)) : Kept q q' r := by
  have hw : 0 < w := by omega
  cases c with
  -- a counter just read is not ahead of itself
  | pushLoadTail val | popLoadHead =>
    obtain ⟨rfl, rfl⟩ := Prod.mk.inj (Except.ok.inj h)
    exact hq.kept fun c hc => by obtain rfl := Sum.inl.inj hc; exact le_rfl
  | pushLoadSeq val idx =>
    simp only [exec] at h
    split_ifs at h <;> obtain ⟨rfl, rfl⟩ := Prod.mk.inj (Except.ok.inj h)
    · exact hq.kept fun c' hc' => by obtain rfl := Sum.inl.inj hc'; exact hc
    · exact hq.kept fun c' hc' => nomatch hc'
    · exact hq.kept fun c' hc' => by obtain rfl := Sum.inl.inj hc'; trivial
  | pushCas val idx =>
    -- the addition did not panic, so the tail moves up by one
    obtain ⟨next, hnext, h⟩ := exists_of_lift_add h
    rw [BitVec.toNat_one hw] at hnext
    split_ifs at h with hcas <;> obtain ⟨rfl, rfl⟩ := Prod.mk.inj (Except.ok.inj h)
    · obtain ⟨rfl, -⟩ := hcas
      have hle : q.tail.toNat ≤ next.toNat := by omega
      refine ⟨⟨hq.head_le.trans hle, hq.head_fit, fun pos => (hq.seq pos).imp id fun hseq =>
        hseq.trans hle⟩, hle, le_rfl, fun c' hc' => ?_⟩
      obtain rfl := Sum.inl.inj hc'
      show q.tail.toNat < next.toNat
      omega
    · exact hq.kept fun c' hc' => by obtain rfl := Sum.inl.inj hc'; exact le_rfl
  | pushWrite val idx =>
    obtain ⟨rfl, rfl⟩ := Prod.mk.inj (Except.ok.inj h)
    exact ⟨hq.setSlot (hq.seq idx), le_rfl, le_rfl,
      fun c' hc' => by obtain rfl := Sum.inl.inj hc'; exact hc⟩
  | pushStoreSeq idx =>
    obtain ⟨next, hnext, h⟩ := exists_of_lift_add h
    rw [BitVec.toNat_one hw] at hnext
    obtain ⟨rfl, rfl⟩ := Prod.mk.inj (Except.ok.inj h)
    -- published with the position after the claimed one, which the tail has passed
    refine ⟨hq.setSlot (Or.inr ?_), le_rfl, le_rfl, fun c' hc' => nomatch hc'⟩
    have hlt : idx.toNat < q.tail.toNat := hc
    show next.toNat ≤ q.tail.toNat
    omega
  | popLoadSeq idx =>
    obtain ⟨next, hnext, h⟩ := exists_of_lift_add h
    rw [BitVec.toNat_one hw] at hnext
    dsimp only at h
    split_ifs at h with hzero <;> obtain ⟨rfl, rfl⟩ := Prod.mk.inj (Except.ok.inj h)
    · -- the slot is published, and so before the tail
      have hseq : (q.slot idx).seq = next := by
        rw [← Counter.sub_eq_zero_iff, ← BitVec.toInt_inj, hzero, BitVec.toInt_zero]
      refine hq.kept fun c' hc' => ?_
      obtain rfl := Sum.inl.inj hc'
      exact ⟨hc, hq.lt_tail hone (by rw [hseq, hnext])⟩
    · exact hq.kept fun c' hc' => nomatch hc'
    · exact hq.kept fun c' hc' => by obtain rfl := Sum.inl.inj hc'; trivial
  | popCas idx =>
    obtain ⟨next, hnext, h⟩ := exists_of_lift_add h
    rw [BitVec.toNat_one hw] at hnext
    obtain ⟨hidx, hlt⟩ : idx.toNat ≤ q.head.toNat ∧ idx.toNat < q.tail.toNat := hc
    split_ifs at h with hcas <;> obtain ⟨rfl, rfl⟩ := Prod.mk.inj (Except.ok.inj h)
    · -- the head moves up, not past the tail and not past where it may be
      obtain ⟨rfl, hspurious⟩ := hcas
      have hfit := hclaim q.head rfl hspurious rfl
      refine ⟨⟨?_, ?_, hq.seq⟩, le_rfl, ?_, fun c' hc' => ?_⟩
      · show next.toNat ≤ q.tail.toNat
        omega
      · show next.toNat ≤ 2 ^ w - 2 ^ pow
        omega
      · show q.head.toNat ≤ next.toNat
        omega
      · obtain rfl := Sum.inl.inj hc'
        show q.head.toNat < next.toNat
        omega
    · exact hq.kept fun c' hc' => by obtain rfl := Sum.inl.inj hc'; exact le_rfl
  | popRead idx =>
    simp only [exec] at h
    cases hdata : (q.slot idx).data with
    | none =>
      rw [hdata] at h
      cases h
    | some data =>
      rw [hdata] at h
      obtain ⟨rfl, rfl⟩ := Prod.mk.inj (Except.ok.inj h)
      exact ⟨hq.setSlot (hq.seq idx), le_rfl, le_rfl,
        fun c' hc' => by obtain rfl := Sum.inl.inj hc'; exact hc⟩
  | popStoreSeq idx data =>
    obtain ⟨next, hnext, h⟩ := exists_of_lift_add h
    obtain ⟨rfl, rfl⟩ := Prod.mk.inj (Except.ok.inj h)
    have hpows : 2 ^ pow < 2 ^ w := Nat.pow_lt_pow_right (by omega) hpow
    rw [Inner.len, BitVec.toNat_ofNat, Nat.mod_eq_of_lt hpows] at hnext
    -- free for the next lap, and so for the same slot
    refine ⟨hq.setSlot (Or.inl ?_), le_rfl, le_rfl, fun c' hc' => nomatch hc'⟩
    show next.toNat % 2 ^ pow = idx.toNat % 2 ^ pow
    rw [hnext, Nat.add_mod_right]

/-- At the start, a slot is free for the position of its index. -/
theorem ordered_empty (hpow : pow < w) : Ordered (Inner.empty pow w : Inner T pow w) where
  head_le := le_rfl
  head_fit := by
    show (0#w).toNat ≤ _
    rw [BitVec.toNat_ofNat, Nat.zero_mod]
    exact Nat.zero_le _
  seq pos := by
    have hpows : 2 ^ pow < 2 ^ w := Nat.pow_lt_pow_right (by omega) hpow
    have hmod := Nat.mod_lt pos.toNat (Nat.two_pow_pos pow)
    refine Or.inl ?_
    show (BitVec.ofNat w (pos.toNat &&& (2 ^ pow - 1))).toNat % 2 ^ pow = pos.toNat % 2 ^ pow
    rw [Nat.and_two_pow_sub_one_eq_mod, BitVec.toNat_ofNat, Nat.mod_eq_of_lt (hmod.trans hpows),
      Nat.mod_mod]

/-- **No addition panics** where the position at the tail is not at its end. -/
theorem exec_ne_overflow (hone : 1 ≤ pow) (hpow : pow < w) (hq : Ordered q) (hc : CallOk q c)
    (hclaim : ∀ val idx, c = pushCas val idx → idx = q.tail → q.tail.toNat < 2 ^ w - 1) :
    exec true q spurious c ≠ .error (.panic .overflow) := by
  have hw : 0 < w := by omega
  have htwo : 2 ≤ 2 ^ pow := Nat.le_self_pow (by omega) 2
  have hpows : 2 ^ pow < 2 ^ w := Nat.pow_lt_pow_right (by omega) hpow
  have hfit := hq.head_fit
  have htail := q.tail.isLt
  intro h
  cases c with
  | pushLoadTail | popLoadHead | pushWrite => cases h
  | pushLoadSeq val idx =>
    simp only [exec] at h
    split_ifs at h
  -- only here the index may be the last one, if it still is the tail
  | pushCas val idx =>
    have hle : idx.toNat ≤ q.tail.toNat := hc
    have hlt : idx.toNat < 2 ^ w - 1 := by
      by_cases heq : idx = q.tail
      · rw [heq]
        exact hclaim val idx rfl heq
      · have hne : idx.toNat ≠ q.tail.toNat := fun hne => heq (BitVec.eq_of_toNat_eq hne)
        omega
    rw [exec, Counter.add_one_eq_ok hw fun _ => hlt, Raw.lift_ok, Raw.ok_bind] at h
    split_ifs at h
  | pushStoreSeq idx =>
    have hlt : idx.toNat < q.tail.toNat := hc
    rw [exec, Counter.add_one_eq_ok hw fun _ => by omega] at h
    cases h
  | popLoadSeq idx =>
    have hle : idx.toNat ≤ q.head.toNat := hc
    rw [exec, Counter.add_one_eq_ok hw fun _ => by omega, Raw.lift_ok, Raw.ok_bind] at h
    dsimp only at h
    split_ifs at h
  | popCas idx =>
    have hle : idx.toNat ≤ q.head.toNat := hc.1
    rw [exec, Counter.add_one_eq_ok hw fun _ => by omega, Raw.lift_ok, Raw.ok_bind] at h
    split_ifs at h
  | popRead idx =>
    simp only [exec] at h
    split at h <;> cases h
  -- the head leaves room for a lap
  | popStoreSeq idx data =>
    have hlt : idx.toNat < q.head.toNat := hc
    rw [exec, Counter.add_eq_ok fun _ => by
      rw [Inner.len, BitVec.toNat_ofNat, Nat.mod_eq_of_lt hpows]
      omega] at h
    cases h

/-- The loop of `drop` over positions before the end of the counter. -/
theorem dropLoop_ne_overflow (hw : 0 < w) (n : ℕ) {idx : BitVec w}
    (hn : idx.toNat + n ≤ 2 ^ w - 1) :
    q.dropLoop true n idx ≠ .error (.panic .overflow) := by
  induction n generalizing idx q with
  | zero => exact fun h => nomatch h
  | succ n ih =>
    have hnext : (idx + 1#w).toNat + n ≤ 2 ^ w - 1 := by
      rw [BitVec.toNat_add, BitVec.toNat_one hw, Nat.mod_eq_of_lt (by omega)]
      omega
    rw [Inner.dropLoop, Counter.add_one_eq_ok hw fun _ => by omega, Raw.lift_ok, Raw.ok_bind]
    split_ifs
    · cases (q.slot idx).data with
      | none => exact fun h => nomatch h
      | some data =>
        intro h
        have hrest := ih (q := q.setSlot idx { q.slot idx with data := none }) hnext
        dsimp only at h hrest
        cases hloop : (q.setSlot idx { q.slot idx with data := none }).dropLoop true n
            (idx + 1#w) with
        | error e =>
          rw [hloop] at h hrest
          exact hrest (congrArg Except.error (Except.error.inj h))
        | ok p =>
          rw [hloop] at h
          cases h
    · exact ih hnext

/-- **Neither do those of `drop`.** -/
theorem Ordered.drop_ne_overflow (hw : 0 < w) (h : Ordered q) (needsDrop : Bool) :
    q.drop true needsDrop ≠ .error (.panic .overflow) := by
  unfold Inner.drop
  split_ifs
  · exact fun h => nomatch h
  · refine dropLoop_ne_overflow hw _ ?_
    have hle := h.head_le
    have hlt := q.tail.isLt
    rw [BitVec.toNat_sub_of_le (BitVec.le_def.mpr hle)]
    omega

section Reachable

variable [DecidableEq τ] {s s' : State τ T pow w} {a : τ × Action T}

/-- **The invariant holds** in every state that is reached while the counters last. -/
theorem inv_of_reachable (hone : 1 ≤ pow) (hpow : pow < w)
    (hs : (system τ T pow w).ReachableWhile Within s) : Inv s := by
  refine hs.invariant ⟨ordered_empty hpow, fun _ _ hc => nomatch hc⟩ ?_
  rintro s ⟨t, a⟩ s' - hinv hwithin hnext
  simp only [system] at hnext
  split at hnext
  · rename_i op hidle
    obtain rfl := Option.some.inj hnext
    refine ⟨hinv.ordered, fun t' c hc => ?_⟩
    dsimp only at hc
    by_cases ht : t' = t
    · rw [ht, Function.update_self] at hc
      obtain rfl := Option.some.inj hc
      cases op <;> trivial
    · rw [Function.update_of_ne ht] at hc
      exact hinv.callOk t' c hc
  · rename_i c spurious hcall
    split at hnext
    · rename_i q r hexec
      obtain rfl := Option.some.inj hnext
      have hkept := exec_kept hone hpow hinv.ordered (hinv.callOk t c hcall)
        (fun idx hcas hspurious => hwithin.pop idx (hcas ▸ hcall) (hspurious ▸ rfl)) hexec
      refine ⟨hkept.ordered, fun t' c' hc' => ?_⟩
      dsimp only at hc'
      by_cases ht : t' = t
      · rw [ht, Function.update_self] at hc'
        cases r with
        | inl c'' =>
          obtain rfl := Option.some.inj hc'
          exact hkept.callOk _ rfl
        | inr o => cases hc'
      · rw [Function.update_of_ne ht] at hc'
        exact (hinv.callOk t' c' hc').mono hkept.tail_le hkept.head_le
    · cases hnext
  · cases hnext

/-- **No step panics at an addition**, and neither would `drop`, while the counters
last. -/
theorem not_overflows (hone : 1 ≤ pow) (hpow : pow < w)
    (hs : (system τ T pow w).ReachableWhile Within s) (hwithin : Within s a) : ¬ Overflows s a := by
  have hinv := inv_of_reachable hone hpow hs
  rintro ⟨c, spurious, hcall, -, hexec⟩
  exact exec_ne_overflow hone hpow hinv.ordered (hinv.callOk _ c hcall)
    (fun val idx hcas => hwithin.push val idx (hcas ▸ hcall)) hexec

end Reachable

end Interleavings

end MpmcWord

/-! ## Both queues -/

namespace Counter

open Fifo (Op Outcome)

variable {pow w : ℕ}

section Runs

variable {T : Type}

/-- Calls on the queue for one producer, from the start. -/
theorem runCalls_spsc (hpow : pow < w) (checks : Bool) (ops : List (Op T)) :
    SpscWord.runCalls checks (.empty pow w) ops
      = if checks = true ∧ 2 ^ w - 1 < Fifo.accepted (Fifo.run (2 ^ pow) [] ops).2 then
        .error (.panic .overflow)
      else .ok (Fifo.run (2 ^ pow) [] ops).2 := by
  have hrun := SpscWord.stored_empty.runCalls hpow (fun _ : checks = true => Nat.zero_le _) ops
  have htail : (Spsc.Queue.empty pow : Spsc.Queue T pow).inner.tail = 0 := rfl
  rwa [SpscWord.wrap_empty, htail, Nat.zero_add] at hrun

/-- And on the other. -/
theorem runCalls_mpmc (hone : 1 ≤ pow) (hpow : pow + 1 < w) (checks : Bool)
    (calls : List (Op T × ℕ)) :
    MpmcWord.runCalls checks (.empty pow w) calls
      = if checks = true
          ∧ (2 ^ w - 1 < Fifo.accepted (Fifo.run (2 ^ pow) [] (calls.map Prod.fst)).2
            ∨ 2 ^ w - 2 ^ pow < Fifo.taken (Fifo.run (2 ^ pow) [] (calls.map Prod.fst)).2) then
        .error (.panic .overflow)
      else .ok (Fifo.run (2 ^ pow) [] (calls.map Prod.fst)).2 := by
  have hrun := MpmcWord.runCalls_eq hone hpow Mpmc.stored_empty
    (fun _ : checks = true => Nat.zero_le _) (fun _ => Nat.zero_le _) calls
  have htail : (Mpmc.Inner.empty pow : Mpmc.Inner T pow).tail = 0 := rfl
  have hhead : (Mpmc.Inner.empty pow : Mpmc.Inner T pow).head = 0 := rfl
  simpa only [MpmcWord.wrap_empty, htail, hhead, Nat.zero_add] using hrun

end Runs

/-- **A run is one of the bounded queue while the counters last.** With overflow
checks a step of the queue for one producer panics at an addition exactly when it
stores the tail and that is at its end; no step of the other queue does, and
neither would its `drop`, in a run in which positions are claimed only while the
counters last. Calls one after another return what those of the bounded queue
return, unless in a build with the checks more are accepted. -/
theorem bounded_while_within (τ T : Type) [DecidableEq τ] (hone : 1 ≤ pow) (hpow : pow + 1 < w) :
    (∀ s, (SpscWord.system T pow w).Reachable s → ∀ a,
      SpscWord.Overflows s a ↔ ¬ SpscWord.Within s a)
    ∧ (∀ s, (MpmcWord.system τ T pow w).ReachableWhile MpmcWord.Within s →
      (∀ a, MpmcWord.Within s a → ¬ MpmcWord.Overflows s a)
        ∧ ∀ needsDrop, s.inner.drop true needsDrop ≠ .error (.panic .overflow))
    ∧ (∀ (checks : Bool) (ops : List (Op T)),
      SpscWord.runCalls checks (.empty pow w) ops
        = if checks = true ∧ 2 ^ w - 1 < Fifo.accepted (Fifo.run (2 ^ pow) [] ops).2 then
          .error (.panic .overflow)
        else .ok (Fifo.run (2 ^ pow) [] ops).2)
    ∧ ∀ (checks : Bool) (calls : List (Op T × ℕ)),
      MpmcWord.runCalls checks (.empty pow w) calls
        = if checks = true
            ∧ (2 ^ w - 1 < Fifo.accepted (Fifo.run (2 ^ pow) [] (calls.map Prod.fst)).2
              ∨ 2 ^ w - 2 ^ pow < Fifo.taken (Fifo.run (2 ^ pow) [] (calls.map Prod.fst)).2) then
          .error (.panic .overflow)
        else .ok (Fifo.run (2 ^ pow) [] (calls.map Prod.fst)).2 := by
  have hlt : pow < w := by omega
  refine ⟨fun s hs a => SpscWord.overflows_iff (by omega) hs a, fun s hs => ⟨fun a hwithin =>
    MpmcWord.not_overflows hone hlt hs hwithin, ?_⟩, fun checks ops => ?_, fun checks calls => ?_⟩
  · exact (MpmcWord.inv_of_reachable hone hlt hs).ordered.drop_ne_overflow (by omega)
  · exact runCalls_spsc hlt checks ops
  · exact runCalls_mpmc hone hpow checks calls

/-- A value through the queue for one producer, with a push of so many steps. -/
def through (steps : ℕ) : List (SpscWord.Action ℕ) :=
  .call (.push 7) :: List.replicate steps (.step .producer)
    ++ .call .pop :: List.replicate 4 (.step .consumer)

/-- Fifteen values through the queue, and a push that has written to its slot. -/
def fifteen : List (SpscWord.Action ℕ) :=
  through 3 ++ through 3 ++ (List.replicate 6 (through 4 ++ through 3)).flatten ++ through 4
    ++ [.call (.push 8), .step .producer, .step .producer]

/-- Two pushes that load the same tail, of which one claims the slot, and a pop that
finds nothing in it yet. -/
def racing : List (Option Bool × MpmcWord.Action ℕ) :=
  [(some true, .call (.push 1)), (some false, .call (.push 2)), (some true, .step false),
    (some false, .step false), (some true, .step false), (some false, .step false),
    (some true, .step false), (none, .call .pop), (none, .step false), (none, .step false),
    (some false, .step false)]

/-- A queue of two slots with counters of 4 bits: the sixteenth push panics where it
stores the tail, threads that race for a slot do not and leave a queue that can be
dropped, and calls that find the queue full and empty. -/
theorem bounded_while_within_four :
    (∃ s, (SpscWord.system ℕ 1 4).run (SpscWord.system ℕ 1 4).init fifteen = some s
      ∧ SpscWord.Overflows s (.step .producer) ∧ ¬ SpscWord.Overflows s (.step .consumer))
    ∧ (∃ s, (MpmcWord.system (Option Bool) ℕ 1 4).run
          (MpmcWord.system (Option Bool) ℕ 1 4).init racing = some s
        ∧ ¬ MpmcWord.Overflows s (some true, .step false)
        ∧ s.inner.drop true true ≠ .error (.panic .overflow))
    ∧ SpscWord.runCalls true (.empty 1 4) [.push 1, .push 2, .push 3, .pop, .pop, .pop]
        = .ok [.pushed, .pushed, .full 3, .popped 1, .popped 2, .empty]
    ∧ MpmcWord.runCalls true (.empty 1 4) [(.push 1, 2), (.push 2, 0), (.push 3, 0), (.pop, 1)]
        = .ok [.pushed, .pushed, .full 3, .popped 1] := by
  have h := @bounded_while_within 1 4 (Option Bool) ℕ _ (by decide) (by decide)
  refine ⟨?_, ?_, (h.2.2.1 true _).trans (if_neg (by decide)),
    (h.2.2.2 true _).trans (if_neg (by decide))⟩
  · have hend : ((SpscWord.system ℕ 1 4).run (SpscWord.system ℕ 1 4).init fifteen).map
        (fun s => (s.call .producer, s.call .consumer, s.queue.inner.tail))
        = some (some (.pushStoreTail 15#4), none, 15#4) := by decide +kernel
    obtain ⟨s, hs, hend⟩ := Option.map_eq_some_iff.mp hend
    obtain ⟨hproducer, hend⟩ := Prod.mk.inj hend
    obtain ⟨hconsumer, htail⟩ := Prod.mk.inj hend
    refine ⟨s, hs, (h.1 s (.of_run hs) _).mpr fun hwithin => ?_,
      (h.1 s (.of_run hs) _).not.mpr (not_not.mpr fun t ht => ?_)⟩
    · have hlt := hwithin _ hproducer
      rw [htail] at hlt
      exact absurd hlt (by decide)
    · cases hconsumer.symm.trans ht
  · obtain ⟨s, hs⟩ := Option.isSome_iff_exists.mp (show ((MpmcWord.system (Option Bool) ℕ 1 4).run
      (MpmcWord.system (Option Bool) ℕ 1 4).init racing).isSome = true by decide +kernel)
    have hcall : ∀ s ∈ (MpmcWord.system (Option Bool) ℕ 1 4).run
        (MpmcWord.system (Option Bool) ℕ 1 4).init racing,
        MpmcWord.Within s (some true, .step false) := by decide +kernel
    obtain ⟨hsteps, hdrop⟩ := h.2.1 s (.of_run .init (by decide +kernel) hs)
    exact ⟨s, hs, hsteps _ (hcall s hs), hdrop true⟩

/-! ## The end of a counter of 32 bits -/

/-- A push and a pop, `n` times. -/
def pairs (n : ℕ) : List (Op ℕ) := (List.replicate n [.push 7, .pop]).flatten

/-- Every one of the pushes is accepted. -/
theorem accepted_pairs (n : ℕ) : Fifo.accepted (Fifo.run (2 ^ 1) [] (pairs n)).2 = n := by
  induction n with
  | zero => rfl
  | succ n ih =>
    have hsplit : pairs (n + 1) = .push 7 :: .pop :: pairs n := by
      simp [pairs, List.replicate_succ]
    rw [hsplit]
    show Fifo.accepted (.pushed :: .popped 7 :: (Fifo.run (2 ^ 1) [] (pairs n)).2) = n + 1
    rw [Fifo.accepted_cons, Fifo.accepted_cons, ih]
    rfl

/-- **The end of counters of 32 bits.** The queue for one producer takes `2 ^ 32 - 1`
values, and the next push panics. On the other queue the pop of the last of these
panics already, where it adds the length of the buffer to its position. -/
theorem runCalls_pairs_overflow :
    SpscWord.runCalls true (.empty 1 32) (pairs (2 ^ 32)) = .error (.panic .overflow)
      ∧ MpmcWord.runCalls true (.empty 1 32) ((pairs (2 ^ 32)).map fun op => (op, 0))
        = .error (.panic .overflow) := by
  have hmap : ((pairs (2 ^ 32)).map fun op => (op, 0)).map Prod.fst = pairs (2 ^ 32) := by
    rw [List.map_map]
    exact List.map_id _
  constructor
  · rw [runCalls_spsc (by decide), accepted_pairs, if_pos ⟨rfl, by decide⟩]
  · rw [runCalls_mpmc (by decide) (by decide), hmap, accepted_pairs,
      if_pos ⟨rfl, Or.inl (by decide)⟩]

end Counter
