import Algors.Queue.Counter
import Algors.Queue.Spsc

/-!
# The single-producer single-consumer queue with counters of a word

`Algors.Queue.Spsc` with counters of `w` bits: the differences wrap, and the two
additions, `t + 1` and `h + 1`, panic at the end of the counter in a build with
overflow checks.

Without the checks a run of calls, one after another, is one of the bounded
queue for as long as it likes: `Queue.wrap` is what the words are of a queue
with counters that do not wrap. With them the run ends at the push that would be
the `2 ^ w`-th to be accepted. The head is never ahead of the tail, so a pop does
not come to the end of its counter before.
-/

namespace SpscWord

open Fifo (Op Outcome Side)

variable {T : Type} {pow w : ℕ}

/-! ## The queue

The data of the queue without a bound on its counters, with words for these. -/

/-- `Inner`. -/
structure Inner (T : Type) (pow w : ℕ) where
  head : BitVec w
  tail : BitVec w
  buf : Fin (2 ^ pow) → Option T

/-- `Producer` and `Consumer`. -/
structure Queue (T : Type) (pow w : ℕ) where
  inner : Inner T pow w
  headCache : BitVec w
  tailCache : BitVec w

namespace Queue

/-- What `new_spsc` builds. -/
def empty (pow w : ℕ) : Queue T pow w := ⟨⟨0#w, 0#w, fun _ => none⟩, 0#w, 0#w⟩

/-- `Inner::len`. -/
def len (_self : Queue T pow w) : BitVec w := BitVec.ofNat w (2 ^ pow)

/-- The slot of a position. -/
def slot (self : Queue T pow w) (pos : BitVec w) : Option T := Ring.get self.inner.buf pos.toNat

/-- The queue with the slot of a position changed. -/
def setSlot (self : Queue T pow w) (pos : BitVec w) (slot : Option T) : Queue T pow w :=
  { self with inner.buf := Ring.set self.inner.buf pos.toNat slot }

end Queue

/-! ## The steps of a call

The same steps, with each difference taken as the code takes it, and each addition where it
could panic. -/

/-- What a call has left to do: the calls of `Spsc.Call`, on words. -/
inductive Call (T : Type) (w : ℕ) where
  | pushLoadTail (val : T)
  | pushLoadHead (val : T) (t : BitVec w)
  | pushWrite (val : T) (t : BitVec w)
  | pushStoreTail (t : BitVec w)
  | popLoadHead
  | popLoadTail (h : BitVec w)
  | popRead (h : BitVec w)
  | popStoreHead (h : BitVec w) (val : T)
deriving DecidableEq

open Call

/-- The first step of a call. -/
def invoke : Op T → Call T w
  | .push val => pushLoadTail val
  | .pop => popLoadHead

/-- **One step of a call**, in a build with overflow checks or without. -/
def exec (checks : Bool) (q : Queue T pow w) :
    Call T w → Raw (Queue T pow w × (Call T w ⊕ Outcome T))
  | pushLoadTail val =>
    let t := q.inner.tail
    if t - q.headCache = q.len then .ok (q, .inl (pushLoadHead val t))
    else .ok (q, .inl (pushWrite val t))
  | pushLoadHead val t =>
    let q := { q with headCache := q.inner.head }
    if t - q.headCache = q.len then .ok (q, .inr (.full val))
    else .ok (q, .inl (pushWrite val t))
  | pushWrite val t => .ok (q.setSlot t (some val), .inl (pushStoreTail t))
  | pushStoreTail t => do
    let tail ← Raw.lift (Counter.add checks t 1#w)
    .ok ({ q with inner.tail := tail }, .inr .pushed)
  | popLoadHead =>
    let h := q.inner.head
    if q.tailCache - h = 0#w then .ok (q, .inl (popLoadTail h))
    else .ok (q, .inl (popRead h))
  | popLoadTail h =>
    let q := { q with tailCache := q.inner.tail }
    if q.tailCache - h = 0#w then .ok (q, .inr .empty)
    else .ok (q, .inl (popRead h))
  | popRead h =>
    match q.slot h with
    | some val => .ok (q.setSlot h none, .inl (popStoreHead h val))
    | none => .error .undefined
  | popStoreHead h val => do
    let head ← Raw.lift (Counter.add checks h 1#w)
    .ok ({ q with inner.head := head }, .inr (.popped val))

/-! ## One call after another

A call on words does what it does on the queue with counters that do not wrap, as seen through
`wrap`. So a run of calls is one of the bounded queue, with the checks only up to the push whose
new tail would have no word. -/

/-- **A call run to its end.** -/
def finish (checks : Bool) : ℕ → Queue T pow w → Call T w → Raw (Queue T pow w × Outcome T)
  | 0, _, _ => .error (.panic .diverges)
  | fuel + 1, q, c => do
    match ← exec checks q c with
    | (q, .inr o) => .ok (q, o)
    | (q, .inl c) => finish checks fuel q c

/-- **Calls one after another**, and what they return. -/
def runCalls (checks : Bool) : Queue T pow w → List (Op T) → Raw (List (Outcome T))
  | _, [] => .ok []
  | q, op :: ops => do
    let (q, o) ← finish checks 4 q (invoke op)
    let os ← runCalls checks q ops
    .ok (o :: os)

/-- **The words of a queue** whose counters do not wrap. -/
def wrap (w : ℕ) (q : Spsc.Queue T pow) : Queue T pow w :=
  ⟨⟨BitVec.ofNat w q.inner.head, BitVec.ofNat w q.inner.tail, q.inner.buf⟩,
    BitVec.ofNat w q.headCache, BitVec.ofNat w q.tailCache⟩

/-- **The queue with these elements stored**, and no call under way. -/
structure Stored (q : Spsc.Queue T pow) (stored : List T) : Prop where
  tail_eq : q.inner.tail = q.inner.head + stored.length
  length_le : stored.length ≤ 2 ^ pow
  slots : ∀ i (h : i < stored.length), q.slot (q.inner.head + i) = some stored[i]
  headCache_le : q.headCache ≤ q.inner.head
  tail_le : q.inner.tail ≤ q.headCache + 2 ^ pow
  le_tailCache : q.inner.head ≤ q.tailCache
  tailCache_le : q.tailCache ≤ q.inner.tail

theorem stored_empty : Stored (.empty pow : Spsc.Queue T pow) [] where
  tail_eq := rfl
  length_le := Nat.zero_le _
  slots i h := absurd h (Nat.not_lt_zero i)
  headCache_le := le_rfl
  tail_le := Nat.zero_le _
  le_tailCache := le_rfl
  tailCache_le := le_rfl

section Sequential

variable {q : Spsc.Queue T pow} {stored : List T} {checks : Bool}

theorem wrap_empty : wrap w (.empty pow : Spsc.Queue T pow) = .empty pow w := rfl

theorem slot_wrap (hpow : pow ≤ w) (pos : ℕ) :
    (wrap w q).slot (BitVec.ofNat w pos) = q.slot pos := by
  rw [Queue.slot, Ring.get, Counter.mask_toNat_ofNat hpow]
  rfl

theorem setSlot_wrap (hpow : pow ≤ w) (pos : ℕ) (slot : Option T) :
    (wrap w q).setSlot (BitVec.ofNat w pos) slot = wrap w (q.setSlot pos slot) := by
  rw [Queue.setSlot, Ring.set, Counter.mask_toNat_ofNat hpow]
  rfl

/-- The queue with its cache of the head reloaded, if the cache says that it is
full. -/
def reloadedHead (q : Spsc.Queue T pow) : Spsc.Queue T pow :=
  if q.inner.tail = q.headCache + 2 ^ pow then { q with headCache := q.inner.head } else q

/-- And with its cache of the tail reloaded, if that says that it is empty. -/
def reloadedTail (q : Spsc.Queue T pow) : Spsc.Queue T pow :=
  if q.tailCache = q.inner.head then { q with tailCache := q.inner.tail } else q

/-- The queue with a value pushed. -/
def pushed (q : Spsc.Queue T pow) (val : T) : Spsc.Queue T pow :=
  let q' := (reloadedHead q).setSlot q.inner.tail (some val)
  { q' with inner.tail := q.inner.tail + 1 }

/-- The queue with the oldest value popped. -/
def popped (q : Spsc.Queue T pow) : Spsc.Queue T pow :=
  let q' := (reloadedTail q).setSlot q.inner.head none
  { q' with inner.head := q.inner.head + 1 }

@[simp] theorem inner_reloadedHead : (reloadedHead q).inner = q.inner := by
  unfold reloadedHead
  split_ifs <;> rfl

@[simp] theorem inner_reloadedTail : (reloadedTail q).inner = q.inner := by
  unfold reloadedTail
  split_ifs <;> rfl

namespace Stored

variable (h : Stored q stored)

include h

/-- After the reload the cache of the head tells whether there is room. -/
theorem reloadedHead : Stored (SpscWord.reloadedHead q) stored := by
  have hroom : q.inner.tail ≤ q.inner.head + 2 ^ pow :=
    h.tail_eq.trans_le (Nat.add_le_add_left h.length_le _)
  unfold SpscWord.reloadedHead
  split_ifs
  · exact { h with headCache_le := le_rfl, tail_le := hroom }
  · exact h

theorem reloadedTail : Stored (SpscWord.reloadedTail q) stored := by
  have hle : q.inner.head ≤ q.inner.tail := (Nat.le_add_right _ _).trans_eq h.tail_eq.symm
  unfold SpscWord.reloadedTail
  split_ifs
  · exact { h with le_tailCache := hle, tailCache_le := le_rfl }
  · exact h

theorem pushed (hlt : stored.length < 2 ^ pow) (val : T) :
    Stored (SpscWord.pushed q val) (stored ++ [val]) := by
  have hr := h.reloadedHead
  have htail := h.tail_eq
  have hroom : q.inner.tail + 1 ≤ (SpscWord.reloadedHead q).headCache + 2 ^ pow := by
    unfold SpscWord.reloadedHead
    split_ifs with hfull
    · show q.inner.tail + 1 ≤ q.inner.head + 2 ^ pow
      omega
    · have := h.tail_le
      omega
  refine ⟨?_, ?_, fun i hi => ?_, ?_, hroom, ?_, ?_⟩
  · show q.inner.tail + 1 = (SpscWord.reloadedHead q).inner.head + (stored ++ [val]).length
    rw [inner_reloadedHead, List.length_append, List.length_singleton, htail, Nat.add_assoc]
  · rw [List.length_append]
    exact hlt
  · show Ring.get (Ring.set (SpscWord.reloadedHead q).inner.buf q.inner.tail (some val))
      ((SpscWord.reloadedHead q).inner.head + i) = _
    rw [inner_reloadedHead]
    rw [List.length_append, List.length_singleton] at hi
    by_cases heq : i = stored.length
    · subst heq
      rw [← htail, Ring.get_set_self, List.getElem_concat_length rfl]
    · rw [Ring.get_set_of_ne _ _ (Ring.mask_ne_mask (by omega) (by omega)),
        List.getElem_append_left (by omega)]
      exact h.slots i (by omega)
  · exact hr.headCache_le
  · exact hr.le_tailCache
  · show (SpscWord.reloadedHead q).tailCache ≤ q.inner.tail + 1
    have := hr.tailCache_le
    rw [inner_reloadedHead] at this
    omega

omit h in
theorem popped {val : T} {rest : List T} (h : Stored q (val :: rest)) :
    Stored (SpscWord.popped q) rest := by
  have hr := h.reloadedTail
  have htail := h.tail_eq
  have hlen := h.length_le
  rw [List.length_cons] at htail hlen
  have hcache : q.inner.head + 1 ≤ (SpscWord.reloadedTail q).tailCache := by
    unfold SpscWord.reloadedTail
    split_ifs with hempty
    · show q.inner.head + 1 ≤ q.inner.tail
      omega
    · have := h.le_tailCache
      omega
  refine ⟨?_, by omega, fun i hi => ?_, ?_, ?_, hcache, ?_⟩
  · show (SpscWord.reloadedTail q).inner.tail = q.inner.head + 1 + rest.length
    rw [inner_reloadedTail]
    omega
  · show Ring.get (Ring.set (SpscWord.reloadedTail q).inner.buf q.inner.head none)
      (q.inner.head + 1 + i) = _
    rw [inner_reloadedTail,
      Ring.get_set_of_ne _ _ (Ring.mask_ne_mask (by omega) (by omega)).symm, Nat.add_assoc,
      Nat.add_comm 1]
    exact h.slots (i + 1) (Nat.succ_lt_succ hi)
  · show (SpscWord.reloadedTail q).headCache ≤ q.inner.head + 1
    have := hr.headCache_le
    rw [inner_reloadedTail] at this
    omega
  · exact hr.tail_le
  · exact hr.tailCache_le

end Stored

/-- The first comparison of a push is that of the numbers. -/
theorem sub_headCache_iff (hpow : pow < w) {cache : ℕ}
    (hle : cache ≤ q.inner.tail) (hroom : q.inner.tail ≤ cache + 2 ^ pow) :
    BitVec.ofNat w q.inner.tail - BitVec.ofNat w cache = BitVec.ofNat w (2 ^ pow)
      ↔ q.inner.tail = cache + 2 ^ pow := by
  have hlt : 2 ^ pow < 2 ^ w := Nat.pow_lt_pow_right (by omega) hpow
  exact Counter.ofNat_sub_eq_iff hle (by omega) hlt

/-- And of a pop. -/
theorem sub_head_iff (hpow : pow < w) {head cache : ℕ} (hle : head ≤ cache)
    (hroom : cache ≤ head + 2 ^ pow) :
    BitVec.ofNat w cache - BitVec.ofNat w head = 0#w ↔ cache = head := by
  have hlt : 2 ^ pow < 2 ^ w := Nat.pow_lt_pow_right (by omega) hpow
  exact Counter.ofNat_sub_eq_iff hle (by omega) (Nat.two_pow_pos w)

variable (h : Stored q stored) (hpow : pow < w)

include h hpow

/-- A push begins with the tail in hand, and goes on to write if the cache of the
head tells of room. -/
theorem exec_pushLoadTail (val : T) :
    exec checks (wrap w q) (pushLoadTail val) = .ok (wrap w q, .inl
      (if q.inner.tail = q.headCache + 2 ^ pow then pushLoadHead val (BitVec.ofNat w q.inner.tail)
        else pushWrite val (BitVec.ofNat w q.inner.tail))) := by
  have hle : q.headCache ≤ q.inner.tail := h.headCache_le.trans (by rw [h.tail_eq]; omega)
  have hiff := sub_headCache_iff hpow hle h.tail_le
  by_cases hfull : q.inner.tail = q.headCache + 2 ^ pow
  · rw [if_pos hfull]
    exact if_pos (hiff.mpr hfull)
  · rw [if_neg hfull]
    exact if_neg fun heq => hfull (hiff.mp heq)

/-- And if the head itself does. -/
theorem exec_pushLoadHead (val : T) :
    exec checks (wrap w q) (pushLoadHead val (BitVec.ofNat w q.inner.tail))
      = .ok (wrap w { q with headCache := q.inner.head },
        if stored.length = 2 ^ pow then .inr (.full val)
        else .inl (pushWrite val (BitVec.ofNat w q.inner.tail))) := by
  have htail := h.tail_eq
  have hlen := h.length_le
  have hle : q.inner.head ≤ q.inner.tail := by omega
  have hiff := sub_headCache_iff (q := q) hpow hle (by omega)
  by_cases hfull : stored.length = 2 ^ pow
  · rw [if_pos hfull]
    exact if_pos (hiff.mpr (by omega))
  · rw [if_neg hfull]
    exact if_neg fun heq => hfull (by have := hiff.mp heq; omega)

/-- **A push that finds room** writes its value, and adds to the tail. -/
theorem finish_push (hlt : stored.length < 2 ^ pow) (val : T) :
    finish checks 4 (wrap w q) (invoke (.push val)) = (do
      let tail ← Raw.lift (Counter.add checks (BitVec.ofNat w q.inner.tail) 1#w)
      let q' := wrap w ((reloadedHead q).setSlot q.inner.tail (some val))
      .ok ({ q' with inner.tail := tail }, .pushed)) := by
  rw [finish, invoke, exec_pushLoadTail h hpow, Raw.ok_bind]
  dsimp only
  unfold reloadedHead
  split_ifs with hfull
  · rw [finish, exec_pushLoadHead h hpow, Raw.ok_bind, if_neg hlt.ne]
    dsimp only
    rw [finish, exec, Raw.ok_bind, setSlot_wrap hpow.le]
    dsimp only
    rw [finish, exec]
    cases Counter.add checks (BitVec.ofNat w q.inner.tail) 1#w <;> rfl
  · rw [finish, exec, Raw.ok_bind, setSlot_wrap hpow.le]
    dsimp only
    rw [finish, exec]
    cases Counter.add checks (BitVec.ofNat w q.inner.tail) 1#w <;> rfl

/-- A push that finds none gives its value back. -/
theorem finish_full (hfull : stored.length = 2 ^ pow) (val : T) :
    finish checks 4 (wrap w q) (invoke (.push val))
      = .ok (wrap w (reloadedHead q), .full val) := by
  have hcache : q.inner.tail = q.headCache + 2 ^ pow := by
    have htail := h.tail_eq
    have hle := h.headCache_le
    have := h.tail_le
    omega
  rw [finish, invoke, exec_pushLoadTail h hpow, Raw.ok_bind, if_pos hcache]
  dsimp only
  rw [finish, exec_pushLoadHead h hpow, Raw.ok_bind, if_pos hfull, reloadedHead, if_pos hcache]

/-- A pop begins with the head in hand. -/
theorem exec_popLoadHead :
    exec checks (wrap w q) popLoadHead = .ok (wrap w q, .inl
      (if q.tailCache = q.inner.head then popLoadTail (BitVec.ofNat w q.inner.head)
        else popRead (BitVec.ofNat w q.inner.head))) := by
  have hroom : q.tailCache ≤ q.inner.head + 2 ^ pow :=
    h.tailCache_le.trans (h.tail_eq.trans_le (Nat.add_le_add_left h.length_le _))
  have hiff := sub_head_iff hpow h.le_tailCache hroom
  by_cases hempty : q.tailCache = q.inner.head
  · rw [if_pos hempty]
    exact if_pos (hiff.mpr hempty)
  · rw [if_neg hempty]
    exact if_neg fun heq => hempty (hiff.mp heq)

/-- And finds nothing if nothing is stored. -/
theorem exec_popLoadTail :
    exec checks (wrap w q) (popLoadTail (BitVec.ofNat w q.inner.head))
      = .ok (wrap w { q with tailCache := q.inner.tail },
        if stored = [] then .inr .empty else .inl (popRead (BitVec.ofNat w q.inner.head))) := by
  have htail := h.tail_eq
  have hlen := h.length_le
  have hiff := sub_head_iff hpow (show q.inner.head ≤ q.inner.tail by omega) (by omega)
  by_cases hempty : stored = []
  · rw [if_pos hempty]
    rw [hempty, List.length_nil] at htail
    exact if_pos (hiff.mpr htail)
  · rw [if_neg hempty]
    have hpos := List.length_pos_iff.mpr hempty
    exact if_neg fun heq => by
      have := hiff.mp heq
      omega

/-- A pop of nothing. -/
theorem finish_empty (hempty : stored = []) :
    finish checks 4 (wrap w q) (invoke .pop) = .ok (wrap w (reloadedTail q), .empty) := by
  have hcache : q.tailCache = q.inner.head := by
    have htail := h.tail_eq
    rw [hempty, List.length_nil] at htail
    have hle := h.le_tailCache
    have := h.tailCache_le
    omega
  rw [finish, invoke, exec_popLoadHead h hpow, Raw.ok_bind, if_pos hcache]
  dsimp only
  rw [finish, exec_popLoadTail h hpow, Raw.ok_bind, if_pos hempty, reloadedTail, if_pos hcache]

omit h in
/-- **A pop that finds a value** takes it, and adds to the head. -/
theorem finish_pop {val : T} {rest : List T} (h : Stored q (val :: rest)) :
    finish checks 4 (wrap w q) (invoke .pop) = (do
      let head ← Raw.lift (Counter.add checks (BitVec.ofNat w q.inner.head) 1#w)
      let q' := wrap w ((reloadedTail q).setSlot q.inner.head none)
      .ok ({ q' with inner.head := head }, .popped val)) := by
  have hslot : ∀ q' : Spsc.Queue T pow, q'.inner = q.inner →
      (wrap w q').slot (BitVec.ofNat w q.inner.head) = some val := fun q' hq' => by
    rw [slot_wrap hpow.le, Spsc.Queue.slot, hq']
    exact h.slots 0 (Nat.succ_pos _)
  rw [finish, invoke, exec_popLoadHead h hpow, Raw.ok_bind]
  dsimp only
  unfold reloadedTail
  split_ifs with hempty
  · rw [finish, exec_popLoadTail h hpow, Raw.ok_bind, if_neg (List.cons_ne_nil _ _)]
    dsimp only
    rw [finish, exec, hslot { q with tailCache := q.inner.tail } rfl]
    dsimp only
    rw [Raw.ok_bind, setSlot_wrap hpow.le]
    dsimp only
    rw [finish, exec]
    cases Counter.add checks (BitVec.ofNat w q.inner.head) 1#w <;> rfl
  · rw [finish, exec, hslot q rfl]
    dsimp only
    rw [Raw.ok_bind, setSlot_wrap hpow.le]
    dsimp only
    rw [finish, exec]
    cases Counter.add checks (BitVec.ofNat w q.inner.head) 1#w <;> rfl

omit h in
/-- **A call does what that of the bounded queue does**, or it is a push that
would be accepted and comes to the end of the tail. -/
theorem Stored.finish (h : Stored q stored) (hfit : checks = true → q.inner.tail ≤ 2 ^ w - 1)
    (op : Op T) :
    let next := Fifo.apply (2 ^ pow) stored op
    ∃ q', Stored q' next.1
      ∧ q'.inner.tail = q.inner.tail + (if next.2.isPushed then 1 else 0)
      ∧ SpscWord.finish checks 4 (wrap w q) (invoke op)
        = if checks = true ∧ q.inner.tail = 2 ^ w - 1 ∧ next.2.isPushed = true then
            .error (.panic .overflow)
          else .ok (wrap w q', next.2) := by
  have hw : 0 < w := by omega
  have htwo := Nat.two_pow_pos w
  cases op with
  | push val =>
    by_cases hlt : stored.length < 2 ^ pow
    · -- accepted, unless the next tail has no word
      have happly : Fifo.apply (2 ^ pow) stored (.push val) = (stored ++ [val], .pushed) :=
        if_pos hlt
      rw [happly]
      refine ⟨SpscWord.pushed q val, h.pushed hlt val, rfl, ?_⟩
      rw [finish_push h hpow hlt]
      by_cases hover : checks = true ∧ q.inner.tail = 2 ^ w - 1
      · rw [if_pos ⟨hover.1, hover.2, rfl⟩, hover.1, Counter.add_one_eq_overflow hw]
        · rfl
        · rw [BitVec.toNat_ofNat, Nat.mod_eq_of_lt (by omega), hover.2]
      · rw [if_neg fun hc => hover ⟨hc.1, hc.2.1⟩, Counter.add_one_eq_ok hw, ← BitVec.ofNat_add]
        · rfl
        · intro hc
          have hle := hfit hc
          have hne : q.inner.tail ≠ 2 ^ w - 1 := fun heq => hover ⟨hc, heq⟩
          rw [BitVec.toNat_ofNat, Nat.mod_eq_of_lt (by omega)]
          omega
    · have happly : Fifo.apply (2 ^ pow) stored (.push val) = (stored, .full val) := if_neg hlt
      have hfull : stored.length = 2 ^ pow := Nat.le_antisymm h.length_le (Nat.le_of_not_lt hlt)
      rw [happly]
      refine ⟨SpscWord.reloadedHead q, h.reloadedHead, by rw [inner_reloadedHead]; rfl, ?_⟩
      rw [finish_full h hpow hfull, if_neg fun hc => Bool.false_ne_true hc.2.2]
  | pop =>
    cases stored with
    | nil =>
      refine ⟨SpscWord.reloadedTail q, h.reloadedTail, by rw [inner_reloadedTail]; rfl, ?_⟩
      rw [finish_empty h hpow rfl, if_neg fun hc => Bool.false_ne_true hc.2.2]
      rfl
    | cons val rest =>
      -- popped: the next head is no further than the tail, which has a word
      have htaileq : (SpscWord.popped q).inner.tail = q.inner.tail := by
        show (SpscWord.reloadedTail q).inner.tail = q.inner.tail
        rw [inner_reloadedTail]
      refine ⟨SpscWord.popped q, h.popped, htaileq, ?_⟩
      rw [finish_pop hpow h, if_neg fun hc => Bool.false_ne_true hc.2.2, Counter.add_one_eq_ok hw,
        ← BitVec.ofNat_add]
      · rfl
      · intro hc
        have hle := hfit hc
        have htail := h.tail_eq
        rw [List.length_cons] at htail
        rw [BitVec.toNat_ofNat, Nat.mod_eq_of_lt (by omega)]
        omega

omit h in
/-- **A run of calls is one of the bounded queue**, or more pushes would be
accepted than the counter counts. -/
theorem Stored.runCalls (h : Stored q stored) (hfit : checks = true → q.inner.tail ≤ 2 ^ w - 1)
    (ops : List (Op T)) :
    SpscWord.runCalls checks (wrap w q) ops
      = if checks = true
          ∧ 2 ^ w - 1 < q.inner.tail + Fifo.accepted (Fifo.run (2 ^ pow) stored ops).2 then
        .error (.panic .overflow)
      else .ok (Fifo.run (2 ^ pow) stored ops).2 := by
  induction ops generalizing q stored with
  | nil =>
    refine (if_neg fun hc => ?_).symm
    have := hfit hc.1
    have : Fifo.accepted ([] : List (Outcome T)) = 0 := rfl
    simp only [Fifo.run] at hc
    omega
  | cons op ops ih =>
    obtain ⟨q', hstored, htail, hfinish⟩ := h.finish hpow hfit op
    simp only [SpscWord.runCalls, hfinish, Fifo.run, Fifo.accepted_cons]
    by_cases hover : checks = true ∧ q.inner.tail = 2 ^ w - 1
        ∧ (Fifo.apply (2 ^ pow) stored op).2.isPushed = true
    · rw [if_pos hover, if_pos ⟨hover.1, by rw [if_pos hover.2.2]; omega⟩]
      rfl
    · have hfit' : checks = true → q'.inner.tail ≤ 2 ^ w - 1 := fun hc => by
        have hle := hfit hc
        rw [htail]
        split_ifs with hpushed
        · have hne : q.inner.tail ≠ 2 ^ w - 1 := fun heq => hover ⟨hc, heq, hpushed⟩
          omega
        · exact hle
      rw [if_neg hover, Raw.ok_bind, ih hstored hfit', htail, Nat.add_assoc,
        Nat.add_comm (Fifo.accepted _)]
      split_ifs <;> rfl

end Sequential

/-! ## All interleavings

With a call of each side under way, a counter is still moved by its own side only, and a step
panics if and only if it is the one that would move the tail past its end. -/

/-- The queue with its two sides. -/
structure State (T : Type) (pow w : ℕ) where
  queue : Queue T pow w
  call : Side → Option (Call T w)

/-- What a side may do. -/
inductive Action (T : Type) where
  | call (op : Op T)
  | step (side : Side)
deriving DecidableEq

/-- **All interleavings** of the calls of the two sides, in a build with overflow
checks. A call that panics has no successor. -/
def system (T : Type) (pow w : ℕ) : System (State T pow w) (Action T) where
  init := ⟨.empty pow w, fun _ => none⟩
  next s
    | .call op =>
      match s.call op.side with
      | none => some { s with call := Function.update s.call op.side (some (invoke op)) }
      | some _ => none
    | .step side =>
      match s.call side with
      | none => none
      | some c =>
        match exec true s.queue c with
        | .ok (q, r) =>
          some ⟨q, Function.update s.call side (r.elim some fun _ => none)⟩
        | .error _ => none

/-- The step of a side panics at an addition. -/
def Overflows (s : State T pow w) : Action T → Prop
  | .call _ => False
  | .step side =>
    ∃ c, s.call side = some c ∧ exec true s.queue c = .error (.panic .overflow)

/-- **A tail is stored only while fewer pushes were accepted** than the counter
counts. -/
def Within (s : State T pow w) : Action T → Prop
  | .call _ => True
  | .step side =>
    ∀ t, s.call side = some (pushStoreTail t) → s.queue.inner.tail.toNat < 2 ^ w - 1

/-- **The counters of a queue in use**: the cache of the tail lies between the
head and the tail. -/
structure Ordered (q : Queue T pow w) : Prop where
  head_le : q.inner.head.toNat ≤ q.tailCache.toNat
  tailCache_le : q.tailCache.toNat ≤ q.inner.tail.toNat

/-- What a call has in hand is the counter of its side; a pop reads only where the
cache of the tail is ahead. -/
def CallOk (q : Queue T pow w) : Side → Call T w → Prop
  | .producer, pushLoadTail _ => True
  | .producer, pushLoadHead _ t | .producer, pushWrite _ t | .producer, pushStoreTail t =>
    t = q.inner.tail
  | .consumer, popLoadHead => True
  | .consumer, popLoadTail h => h = q.inner.head
  | .consumer, popRead h | .consumer, popStoreHead h _ => h = q.inner.head ∧ h ≠ q.tailCache
  | _, _ => False

/-- **The invariant.** -/
structure Inv (s : State T pow w) : Prop where
  ordered : Ordered s.queue
  callOk : ∀ side c, s.call side = some c → CallOk s.queue side c

section Interleavings

variable {q q' : Queue T pow w} {c c' : Call T w} {r : Call T w ⊕ Outcome T}
  {s s' : State T pow w} {a : Action T}

/-- A counter that is stored one further. -/
theorem exists_of_lift_add {α : Type} {pos : BitVec w} {f : BitVec w → α} {x : α}
    (h : (do let next ← Raw.lift (Counter.add true pos 1#w); .ok (f next) : Raw α) = .ok x) :
    ∃ next, next.toNat = pos.toNat + (1#w).toNat ∧ f next = x := by
  cases hadd : Counter.add true pos 1#w with
  | error e =>
    rw [hadd] at h
    cases h
  | ok next =>
    rw [hadd] at h
    exact ⟨next, Counter.toNat_of_add_eq_ok hadd, Except.ok.inj h⟩

/-- What the call of the producer has in hand concerns the tail only. -/
theorem CallOk.producer_congr (h : CallOk q .producer c)
    (htail : q'.inner.tail = q.inner.tail) : CallOk q' .producer c := by
  cases c with
  | pushLoadTail => trivial
  | pushLoadHead | pushWrite | pushStoreTail => exact Eq.trans h htail.symm
  | popLoadHead | popLoadTail | popRead | popStoreHead => exact h.elim

/-- And that of the consumer the head and the cache of the tail. -/
theorem CallOk.consumer_congr (h : CallOk q .consumer c)
    (hhead : q'.inner.head = q.inner.head) (hcache : q'.tailCache = q.tailCache) :
    CallOk q' .consumer c := by
  cases c with
  | popLoadHead => trivial
  | popLoadTail => exact Eq.trans h hhead.symm
  | popRead | popStoreHead => exact ⟨h.1.trans hhead.symm, fun heq => h.2 (heq.trans hcache)⟩
  | pushLoadTail | pushLoadHead | pushWrite | pushStoreTail => exact h.elim

/-- **A step of the producer.** -/
theorem exec_producer (hq : Ordered q) (hc : CallOk q .producer c)
    (h : exec true q c = .ok (q', r)) :
    Ordered q' ∧ (∀ c', r = .inl c' → CallOk q' .producer c')
      ∧ ∀ c', CallOk q .consumer c' → CallOk q' .consumer c' := by
  cases c with
  | pushLoadTail val =>
    simp only [exec] at h
    split_ifs at h <;> obtain ⟨rfl, rfl⟩ := Prod.mk.inj (Except.ok.inj h)
    · exact ⟨hq, fun c' hc' => by obtain rfl := Sum.inl.inj hc'; rfl, fun _ => id⟩
    · exact ⟨hq, fun c' hc' => by obtain rfl := Sum.inl.inj hc'; rfl, fun _ => id⟩
  | pushLoadHead val t =>
    simp only [exec] at h
    split_ifs at h <;> obtain ⟨rfl, rfl⟩ := Prod.mk.inj (Except.ok.inj h)
    · exact ⟨⟨hq.head_le, hq.tailCache_le⟩, (fun _ hc' => nomatch hc'),
        fun _ hc' => hc'.consumer_congr rfl rfl⟩
    · exact ⟨⟨hq.head_le, hq.tailCache_le⟩,
        fun c' hc' => by obtain rfl := Sum.inl.inj hc'; exact hc,
        fun _ hc' => hc'.consumer_congr rfl rfl⟩
  | pushWrite val t =>
    obtain ⟨rfl, rfl⟩ := Prod.mk.inj (Except.ok.inj h)
    exact ⟨⟨hq.head_le, hq.tailCache_le⟩,
      fun c' hc' => by obtain rfl := Sum.inl.inj hc'; exact hc,
      fun _ hc' => hc'.consumer_congr rfl rfl⟩
  | pushStoreTail t =>
    obtain ⟨next, hnext, hp⟩ := exists_of_lift_add h
    obtain ⟨rfl, rfl⟩ := Prod.mk.inj hp
    obtain rfl : t = q.inner.tail := hc
    refine ⟨⟨hq.head_le, ?_⟩, (fun _ hc' => nomatch hc'), fun _ hc' => hc'.consumer_congr rfl rfl⟩
    show q.tailCache.toNat ≤ next.toNat
    exact hq.tailCache_le.trans (by omega)
  | popLoadHead | popLoadTail | popRead | popStoreHead => exact hc.elim

/-- **A step of the consumer.** -/
theorem exec_consumer (hq : Ordered q) (hc : CallOk q .consumer c)
    (h : exec true q c = .ok (q', r)) :
    Ordered q' ∧ (∀ c', r = .inl c' → CallOk q' .consumer c')
      ∧ ∀ c', CallOk q .producer c' → CallOk q' .producer c' := by
  have hle : q.inner.head.toNat ≤ q.inner.tail.toNat := hq.head_le.trans hq.tailCache_le
  cases c with
  | popLoadHead =>
    simp only [exec] at h
    split_ifs at h with hzero <;> obtain ⟨rfl, rfl⟩ := Prod.mk.inj (Except.ok.inj h)
    · exact ⟨hq, fun c' hc' => by obtain rfl := Sum.inl.inj hc'; rfl, fun _ => id⟩
    · refine ⟨hq, fun c' hc' => ?_, fun _ => id⟩
      obtain rfl := Sum.inl.inj hc'
      exact ⟨rfl, fun heq => hzero (Counter.sub_eq_zero_iff.mpr heq.symm)⟩
  | popLoadTail head =>
    obtain rfl : head = q.inner.head := hc
    simp only [exec] at h
    split_ifs at h with hzero <;> obtain ⟨rfl, rfl⟩ := Prod.mk.inj (Except.ok.inj h)
    · exact ⟨⟨hle, le_rfl⟩, (fun _ hc' => nomatch hc'), fun _ hc' => hc'.producer_congr rfl⟩
    · refine ⟨⟨hle, le_rfl⟩, fun c' hc' => ?_, fun _ hc' => hc'.producer_congr rfl⟩
      obtain rfl := Sum.inl.inj hc'
      exact ⟨rfl, fun heq => hzero (Counter.sub_eq_zero_iff.mpr heq.symm)⟩
  | popRead head =>
    simp only [exec] at h
    cases hslot : q.slot head with
    | none =>
      rw [hslot] at h
      cases h
    | some val =>
      rw [hslot] at h
      obtain ⟨rfl, rfl⟩ := Prod.mk.inj (Except.ok.inj h)
      exact ⟨⟨hq.head_le, hq.tailCache_le⟩,
        fun c' hc' => by obtain rfl := Sum.inl.inj hc'; exact hc,
        fun _ hc' => hc'.producer_congr rfl⟩
  | popStoreHead head val =>
    obtain ⟨next, hnext, hp⟩ := exists_of_lift_add h
    obtain ⟨rfl, rfl⟩ := Prod.mk.inj hp
    obtain ⟨rfl, hne⟩ : head = q.inner.head ∧ head ≠ q.tailCache := hc
    refine ⟨⟨?_, hq.tailCache_le⟩, (fun _ hc' => nomatch hc'), fun _ hc' => hc'.producer_congr rfl⟩
    show next.toNat ≤ q.tailCache.toNat
    have hlt : q.inner.head.toNat ≠ q.tailCache.toNat := fun heq => hne (BitVec.eq_of_toNat_eq heq)
    have hone : (1#w).toNat ≤ 1 := by
      rw [BitVec.toNat_ofNat]
      exact Nat.mod_le 1 _
    have := hq.head_le
    omega
  | pushLoadTail | pushLoadHead | pushWrite | pushStoreTail => exact hc.elim

/-- **The invariant holds in every reachable state.** -/
theorem inv_of_reachable (hs : (system T pow w).Reachable s) : Inv s := by
  refine hs.invariant ⟨⟨le_rfl, le_rfl⟩, fun _ _ hc => nomatch hc⟩ ?_
  rintro s a s' - hinv - hnext
  cases a with
  | call op =>
    simp only [system] at hnext
    split at hnext
    · obtain rfl := Option.some.inj hnext
      refine ⟨hinv.ordered, fun side c hc => ?_⟩
      dsimp only at hc
      by_cases hside : side = op.side
      · subst hside
        rw [Function.update_self] at hc
        obtain rfl := Option.some.inj hc
        cases op <;> trivial
      · rw [Function.update_of_ne hside] at hc
        exact hinv.callOk side c hc
    · cases hnext
  | step side =>
    simp only [system] at hnext
    split at hnext
    · cases hnext
    · rename_i c hc
      split at hnext
      · rename_i q r hexec
        obtain rfl := Option.some.inj hnext
        have hstep : Ordered q ∧ (∀ c', r = .inl c' → CallOk q side c')
            ∧ ∀ c', CallOk s.queue side.other c' → CallOk q side.other c' := by
          cases side with
          | producer => exact exec_producer hinv.ordered (hinv.callOk _ c hc) hexec
          | consumer => exact exec_consumer hinv.ordered (hinv.callOk _ c hc) hexec
        refine ⟨hstep.1, fun side' c' hc' => ?_⟩
        dsimp only at hc'
        rcases side'.eq_or_eq_other side with rfl | rfl
        · rw [Function.update_self] at hc'
          cases r with
          | inl c'' =>
            obtain rfl := Option.some.inj hc'
            exact hstep.2.1 _ rfl
          | inr o => cases hc'
        · rw [Function.update_of_ne (Ne.symm side.ne_other)] at hc'
          exact hstep.2.2 c' (hinv.callOk _ c' hc')
      · cases hnext

/-- A step that panics at an addition adds to a counter at its end. -/
theorem exec_overflow (hw : 0 < w) (h : exec true q c = .error (.panic .overflow)) :
    (∃ t, c = pushStoreTail t ∧ ¬ t.toNat < 2 ^ w - 1)
      ∨ ∃ head val, c = popStoreHead head val ∧ ¬ head.toNat < 2 ^ w - 1 := by
  cases c with
  | pushStoreTail t =>
    refine Or.inl ⟨t, rfl, fun hlt => ?_⟩
    rw [exec, Counter.add_one_eq_ok hw fun _ => hlt] at h
    cases h
  | popStoreHead head val =>
    refine Or.inr ⟨head, val, rfl, fun hlt => ?_⟩
    rw [exec, Counter.add_one_eq_ok hw fun _ => hlt] at h
    cases h
  | popRead head =>
    simp only [exec] at h
    split at h <;> cases h
  | pushLoadTail | pushLoadHead | popLoadHead | popLoadTail =>
    simp only [exec] at h
    split_ifs at h
  | pushWrite => cases h

/-- **A step panics at an addition exactly when** it stores the tail and that is at
its end. -/
theorem overflows_iff (hw : 0 < w) (hs : (system T pow w).Reachable s) (a : Action T) :
    Overflows s a ↔ ¬ Within s a := by
  have hinv := inv_of_reachable hs
  cases a with
  | call op => exact iff_of_false id (not_not_intro trivial)
  | step side =>
    constructor
    · rintro ⟨c, hc, hexec⟩ hwithin
      have hok := hinv.callOk side c hc
      rcases exec_overflow hw hexec with ⟨t, rfl, hend⟩ | ⟨head, val, rfl, hend⟩
      · cases side with
        | producer =>
          obtain rfl : t = s.queue.inner.tail := hok
          exact hend (hwithin _ hc)
        | consumer => exact hok
      · cases side with
        | producer => exact hok
        | consumer =>
          -- the cache of the tail is ahead of the head
          obtain ⟨rfl, hne⟩ : head = s.queue.inner.head ∧ head ≠ s.queue.tailCache := hok
          have hlt : s.queue.inner.head.toNat ≠ s.queue.tailCache.toNat := fun heq =>
            hne (BitVec.eq_of_toNat_eq heq)
          have hle := hinv.ordered.head_le
          have := s.queue.tailCache.isLt
          omega
    · intro hnot
      simp only [Within, not_forall] at hnot
      obtain ⟨t, hc, hend⟩ := hnot
      have hok := hinv.callOk side _ hc
      cases side with
      | producer =>
        obtain rfl : t = s.queue.inner.tail := hok
        have hlt := s.queue.inner.tail.isLt
        refine ⟨_, hc, ?_⟩
        rw [exec, Counter.add_one_eq_overflow hw (by omega)]
        rfl
      | consumer => exact hok.elim

end Interleavings

end SpscWord
