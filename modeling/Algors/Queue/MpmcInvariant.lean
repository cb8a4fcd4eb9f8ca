import Algors.Queue.Mpmc

/-!
# The invariant of the queue

At any time the positions from the head up to a lap further are in the window,
one for each slot. A position in the window below the tail is published, with
the value that was pushed there, and one from the tail on is free, unless a
thread holds it: a producer between its claim and its store of the sequence
number, or a consumer between these, which holds the position a lap further
that it is about to free. `Inv` says this, says what every thread in a call
may rely on, and keeps the books of the claims.

Two facts carry it. The indices in hand are stale but never ahead, and an
index that still is the counter was found with the right sequence number. And
a sequence number tells a free position from a published one and from one that
is held: this takes two slots, for with one the number of the published
position `k` is that of the free position `k + 1`.
-/

namespace Mpmc

variable {T τ : Type} {pow : ℕ} {w : Width pow}

open Call
open Fifo (Outcome)

/-! ## Claims in the history

Which thread claimed a position, and with which value, is read off the history. What was claimed
stays claimed. -/

/-- The positions claimed by producers, the latest first. -/
def pushPositions (h : List (τ × Event T)) : List ℕ :=
  h.filterMap fun e => match e.2 with
    | .claimedPush pos _ => some pos
    | _ => none

/-- The positions claimed by consumers, the latest first. -/
def popPositions (h : List (τ × Event T)) : List ℕ :=
  h.filterMap fun e => match e.2 with
    | .claimedPop pos => some pos
    | _ => none

/-- The positions whose values were returned, the latest first. -/
def returnedPositions (h : List (τ × Event T)) : List ℕ :=
  h.filterMap fun e => match e.2 with
    | .returnedPop pos _ => some pos
    | _ => none

/-- **The value pushed at a position**, by the call that claimed it. -/
def Claimed (h : List (τ × Event T)) (pos : ℕ) (val : T) : Prop :=
  ∃ t, (t, .claimedPush pos val) ∈ h

theorem Claimed.append {h : List (τ × Event T)} {pos : ℕ} {val : T} (hc : Claimed h pos val)
    (es : List (τ × Event T)) : Claimed (es ++ h) pos val := by
  obtain ⟨t, ht⟩ := hc
  exact ⟨t, List.mem_append_right es ht⟩

/-! ## The invariant

What holds of the counters, of every slot in the window, and of every call under way. -/

/-- **The position of the window a call holds**, in a queue of length `len`: a
producer the one it claimed, a consumer the next one of the slot it claimed. -/
def Call.holds (len : ℕ) : Call T → Option ℕ
  | pushWrite _ idx => some idx
  | pushStoreSeq idx => some idx
  | popRead idx => some (idx + len)
  | popStoreSeq idx _ => some (idx + len)
  | _ => none

/-- **What a call may rely on.** -/
def CallOk (q : Inner T pow) (h : List (τ × Event T)) : Call T → Prop
  | pushLoadTail _ => True
  | pushLoadSeq _ idx => idx ≤ q.tail
  | pushCas _ idx => idx ≤ q.tail ∧ (idx = q.tail → (q.slot idx).seq = idx)
  | pushWrite val idx => q.head ≤ idx ∧ idx < q.tail ∧ q.slot idx = ⟨idx, none⟩ ∧ Claimed h idx val
  | pushStoreSeq idx => q.head ≤ idx ∧ idx < q.tail
      ∧ ∃ val, q.slot idx = ⟨idx, some val⟩ ∧ Claimed h idx val
  | popLoadHead => True
  | popLoadSeq idx => idx ≤ q.head
  | popCas idx => idx ≤ q.head ∧ (idx = q.head → (q.slot idx).seq = idx + 1)
  | popRead idx => idx < q.head ∧ q.tail ≤ idx + 2 ^ pow
      ∧ (∃ val, q.slot idx = ⟨idx + 1, some val⟩ ∧ Claimed h idx val) ∧ idx ∉ returnedPositions h
  | popStoreSeq idx data => idx < q.head ∧ q.tail ≤ idx + 2 ^ pow
      ∧ (q.slot idx = ⟨idx + 1, none⟩ ∧ Claimed h idx data) ∧ idx ∉ returnedPositions h

/-- The slot of a position of the window that no thread holds: published below
the tail, and free from there on. -/
def SlotOk (q : Inner T pow) (h : List (τ × Event T)) (pos : ℕ) : Prop :=
  (pos < q.tail ∧ ∃ val, q.slot pos = ⟨pos + 1, some val⟩ ∧ Claimed h pos val)
    ∨ (q.tail ≤ pos ∧ q.slot pos = ⟨pos, none⟩)

/-- A thread is in a call that holds the position. -/
def State.Holds (s : State τ T pow) (t : τ) (pos : ℕ) : Prop :=
  ∃ c, s.call t = some c ∧ c.holds (2 ^ pow) = some pos

/-- **The books of the claims**: each position below the tail was claimed by
one producer, each below the head by one consumer, and what was returned for a
position is what was pushed there, once. -/
structure Books (head tail : ℕ) (h : List (τ × Event T)) : Prop where
  pushClaims : pushPositions h = (List.range tail).reverse
  popClaims : popPositions h = (List.range head).reverse
  nodup : (returnedPositions h).Nodup
  lt_head : ∀ pos ∈ returnedPositions h, pos < head
  claimed : ∀ t pos val, (t, .returnedPop pos val) ∈ h → Claimed h pos val

/-- **The invariant.** -/
structure Inv (s : State τ T pow) : Prop where
  head_le : s.inner.head ≤ s.inner.tail
  tail_le : s.inner.tail ≤ s.inner.head + 2 ^ pow
  callOk : ∀ t c, s.call t = some c → CallOk s.inner s.history c
  window : ∀ pos, s.inner.head ≤ pos → pos < s.inner.head + 2 ^ pow →
    (∃ t, s.Holds t pos) ∨ SlotOk s.inner s.history pos
  unique : ∀ t t' pos, s.Holds t pos → s.Holds t' pos → t = t'
  books : Books s.inner.head s.inner.tail s.history

/-! ## Frames

What a change of the queue leaves as it was, for the calls of the other
threads. -/

variable {q : Inner T pow} {h : List (τ × Event T)}

/-- A held position is in the window. -/
theorem CallOk.window {c : Call T} (hc : CallOk q h c) (hhead : q.head ≤ q.tail)
    (htail : q.tail ≤ q.head + 2 ^ pow) {pos : ℕ} (hpos : c.holds (2 ^ pow) = some pos) :
    q.head ≤ pos ∧ pos < q.head + 2 ^ pow := by
  cases c with
  | pushWrite val idx | pushStoreSeq idx =>
    obtain rfl := Option.some.inj hpos
    obtain ⟨h₁, h₂, _⟩ := hc
    omega
  | popRead idx | popStoreSeq idx data =>
    obtain rfl := Option.some.inj hpos
    obtain ⟨h₁, h₂, _⟩ := hc
    omega
  | _ => cases hpos

/-- The sequence number of a held position is that of the holder's claim:
neither that of a free position nor that of a published one. -/
theorem CallOk.seq {c : Call T} (hc : CallOk q h c) {pos : ℕ}
    (hpos : c.holds (2 ^ pow) = some pos) :
    (pos < q.tail ∧ (q.slot pos).seq = pos)
      ∨ (q.tail ≤ pos ∧ (q.slot pos).seq + 2 ^ pow = pos + 1) := by
  cases c with
  | pushWrite val idx =>
    obtain rfl := Option.some.inj hpos
    obtain ⟨_, hlt, hslot, _⟩ := hc
    exact Or.inl ⟨hlt, by rw [hslot]⟩
  | pushStoreSeq idx =>
    obtain rfl := Option.some.inj hpos
    obtain ⟨_, hlt, val, hslot, _⟩ := hc
    exact Or.inl ⟨hlt, by rw [hslot]⟩
  | popRead idx =>
    obtain rfl := Option.some.inj hpos
    obtain ⟨_, hle, ⟨val, hslot, _⟩, _⟩ := hc
    exact Or.inr ⟨hle, by rw [slot_add_len, hslot]; dsimp only; omega⟩
  | popStoreSeq idx data =>
    obtain rfl := Option.some.inj hpos
    obtain ⟨_, hle, ⟨hslot, _⟩, _⟩ := hc
    exact Or.inr ⟨hle, by rw [slot_add_len, hslot]; dsimp only; omega⟩
  | _ => cases hpos

/-- More history does no harm, unless it returns the position. -/
theorem CallOk.history {c : Call T} {h' : List (τ × Event T)} (hc : CallOk q h c)
    (hclaimed : ∀ pos val, Claimed h pos val → Claimed h' pos val)
    (hreturned : ∀ idx, c.holds (2 ^ pow) = some (idx + 2 ^ pow) → idx ∉ returnedPositions h →
      idx ∉ returnedPositions h') : CallOk q h' c := by
  cases c with
  | pushWrite val idx => exact ⟨hc.1, hc.2.1, hc.2.2.1, hclaimed _ _ hc.2.2.2⟩
  | pushStoreSeq idx =>
    obtain ⟨h₁, h₂, val, hslot, hval⟩ := hc
    exact ⟨h₁, h₂, val, hslot, hclaimed _ _ hval⟩
  | popRead idx =>
    obtain ⟨h₁, h₂, ⟨val, hslot, hval⟩, hret⟩ := hc
    exact ⟨h₁, h₂, ⟨val, hslot, hclaimed _ _ hval⟩, hreturned idx rfl hret⟩
  | popStoreSeq idx data =>
    obtain ⟨h₁, h₂, ⟨hslot, hval⟩, hret⟩ := hc
    exact ⟨h₁, h₂, ⟨hslot, hclaimed _ _ hval⟩, hreturned idx rfl hret⟩
  | _ => exact hc

/-- **Claiming the tail** leaves the other calls right. -/
theorem CallOk.claimTail {c : Call T} (hc : CallOk q h c) (hpow : 1 ≤ pow)
    (hseq : (q.slot q.tail).seq = q.tail) : CallOk { q with tail := q.tail + 1 } h c := by
  have hlen : 2 ≤ 2 ^ pow := Nat.le_self_pow (by omega) 2
  have hpop : ∀ idx, q.tail ≤ idx + 2 ^ pow → (q.slot idx).seq = idx + 1 →
      q.tail + 1 ≤ idx + 2 ^ pow := by
    intro idx hle hidx
    by_contra hlt
    have htail : q.tail = idx + 2 ^ pow := by omega
    rw [htail, slot_add_len, hidx] at hseq
    omega
  cases c with
  | pushLoadSeq val idx => exact Nat.le_succ_of_le hc
  | pushCas val idx =>
    refine ⟨Nat.le_succ_of_le hc.1, fun heq => ?_⟩
    have := hc.1
    dsimp only at heq
    omega
  | pushWrite val idx => exact ⟨hc.1, Nat.lt_succ_of_lt hc.2.1, hc.2.2⟩
  | pushStoreSeq idx => exact ⟨hc.1, Nat.lt_succ_of_lt hc.2.1, hc.2.2⟩
  | popRead idx =>
    obtain ⟨h₁, h₂, ⟨val, hslot, hval⟩, hret⟩ := hc
    exact ⟨h₁, hpop idx h₂ (by rw [hslot]), ⟨val, hslot, hval⟩, hret⟩
  | popStoreSeq idx data =>
    obtain ⟨h₁, h₂, ⟨hslot, hval⟩, hret⟩ := hc
    exact ⟨h₁, hpop idx h₂ (by rw [hslot]), ⟨hslot, hval⟩, hret⟩
  | _ => exact hc

/-- **Claiming the head** leaves the other calls right. -/
theorem CallOk.claimHead {c : Call T} (hc : CallOk q h c)
    (hseq : (q.slot q.head).seq = q.head + 1) : CallOk { q with head := q.head + 1 } h c := by
  have hpush : ∀ idx, q.head ≤ idx → (q.slot idx).seq = idx → q.head + 1 ≤ idx := by
    intro idx hle hidx
    by_contra hlt
    have hhead : idx = q.head := by omega
    rw [hhead, hseq] at hidx
    omega
  cases c with
  | popLoadSeq idx => exact Nat.le_succ_of_le hc
  | popCas idx =>
    refine ⟨Nat.le_succ_of_le hc.1, fun heq => ?_⟩
    have := hc.1
    dsimp only at heq
    omega
  | pushWrite val idx =>
    obtain ⟨h₁, h₂, hslot, hval⟩ := hc
    exact ⟨hpush idx h₁ (by rw [hslot]), h₂, hslot, hval⟩
  | pushStoreSeq idx =>
    obtain ⟨h₁, h₂, val, hslot, hval⟩ := hc
    exact ⟨hpush idx h₁ (by rw [hslot]), h₂, val, hslot, hval⟩
  | popRead idx => exact ⟨Nat.lt_succ_of_lt hc.1, hc.2⟩
  | popStoreSeq idx data => exact ⟨Nat.lt_succ_of_lt hc.1, hc.2⟩
  | _ => exact hc

/-- **Changing the slot of a held position** leaves the calls right that do not
hold it. -/
theorem CallOk.setSlot {c : Call T} (hc : CallOk q h c) (hhead : q.head ≤ q.tail)
    (htail : q.tail ≤ q.head + 2 ^ pow) {pos : ℕ} (hpos : q.head ≤ pos ∧ pos < q.head + 2 ^ pow)
    (hseq : (pos < q.tail ∧ (q.slot pos).seq = pos)
      ∨ (q.tail ≤ pos ∧ (q.slot pos).seq + 2 ^ pow = pos + 1)) (hpow : 1 ≤ pow)
    (hne : c.holds (2 ^ pow) ≠ some pos) (slot : Slot T) :
    CallOk (q.setSlot pos slot) h c := by
  have hlen : 2 ≤ 2 ^ pow := Nat.le_self_pow (by omega) 2
  have hother : ∀ p, q.head ≤ p ∧ p < q.head + 2 ^ pow → p ≠ pos →
      (q.setSlot pos slot).slot p = q.slot p := fun p hp hppos =>
    q.slot_setSlot_of_ne slot (Ring.mask_ne_of_window hp hpos hppos)
  cases c with
  | pushCas val idx =>
    refine ⟨hc.1, fun heq => ?_⟩
    have hidx := hc.2 heq
    replace heq : idx = q.tail := heq
    -- the tail is in the window, or a lap from the head
    rcases Nat.lt_or_ge q.tail (q.head + 2 ^ pow) with hlt | hge
    · rw [hother idx ⟨by omega, by omega⟩ ?_, hidx]
      rintro rfl
      omega
    · have hlap : idx = q.head + 2 ^ pow := by omega
      rw [hlap, slot_add_len] at hidx ⊢
      rw [hother q.head ⟨le_rfl, by omega⟩ ?_, hidx]
      rintro rfl
      omega
  | popCas idx =>
    refine ⟨hc.1, fun heq => ?_⟩
    have hidx := hc.2 heq
    replace heq : idx = q.head := heq
    rw [hother idx ⟨by omega, by omega⟩ ?_, hidx]
    rintro rfl
    omega
  | pushWrite val idx =>
    obtain ⟨h₁, h₂, hslot, hval⟩ := hc
    refine ⟨h₁, h₂, ?_, hval⟩
    rw [hother idx ⟨h₁, by omega⟩ fun heq => hne (by rw [heq]; rfl), hslot]
  | pushStoreSeq idx =>
    obtain ⟨h₁, h₂, val, hslot, hval⟩ := hc
    refine ⟨h₁, h₂, val, ?_, hval⟩
    rw [hother idx ⟨h₁, by omega⟩ fun heq => hne (by rw [heq]; rfl), hslot]
  | popRead idx =>
    obtain ⟨h₁, h₂, ⟨val, hslot, hval⟩, hret⟩ := hc
    refine ⟨h₁, h₂, ⟨val, ?_, hval⟩, hret⟩
    rw [← slot_add_len, hother (idx + 2 ^ pow) ⟨by omega, by omega⟩
      (fun heq => hne (by rw [← heq]; rfl)), slot_add_len, hslot]
  | popStoreSeq idx data =>
    obtain ⟨h₁, h₂, ⟨hslot, hval⟩, hret⟩ := hc
    refine ⟨h₁, h₂, ⟨?_, hval⟩, hret⟩
    rw [← slot_add_len, hother (idx + 2 ^ pow) ⟨by omega, by omega⟩
      (fun heq => hne (by rw [← heq]; rfl)), slot_add_len, hslot]
  | _ => exact hc

theorem SlotOk.history {pos : ℕ} {h' : List (τ × Event T)} (hs : SlotOk q h pos)
    (hclaimed : ∀ pos val, Claimed h pos val → Claimed h' pos val) : SlotOk q h' pos :=
  hs.imp (fun ⟨hlt, val, hslot, hval⟩ => ⟨hlt, val, hslot, hclaimed _ _ hval⟩) id

theorem SlotOk.claimTail {pos : ℕ} (hs : SlotOk q h pos) (hne : pos ≠ q.tail) :
    SlotOk { q with tail := q.tail + 1 } h pos :=
  hs.imp (fun ⟨hlt, hval⟩ => ⟨Nat.lt_succ_of_lt hlt, hval⟩)
    fun ⟨hle, hslot⟩ => ⟨Nat.lt_of_le_of_ne hle (Ne.symm hne), hslot⟩

theorem SlotOk.setSlot {pos pos' : ℕ} (hs : SlotOk q h pos)
    (hne : (mask pos : Fin (2 ^ pow)) ≠ mask pos') (slot : Slot T) :
    SlotOk (q.setSlot pos' slot) h pos := by
  unfold SlotOk
  rw [q.slot_setSlot_of_ne slot hne]
  exact hs

namespace Inv

variable {s : State τ T pow}

/-- A held position is in the window, with the sequence number of its
holder's claim. -/
theorem of_holds (h : Inv s) {t : τ} {pos : ℕ} (ht : s.Holds t pos) :
    (s.inner.head ≤ pos ∧ pos < s.inner.head + 2 ^ pow)
      ∧ ((pos < s.inner.tail ∧ (s.inner.slot pos).seq = pos)
        ∨ (s.inner.tail ≤ pos ∧ (s.inner.slot pos).seq + 2 ^ pow = pos + 1)) := by
  obtain ⟨c, hc, hpos⟩ := ht
  have hok := h.callOk t c hc
  exact ⟨hok.window h.head_le h.tail_le hpos, hok.seq hpos⟩

/-- **The tail's sequence number tells that its position is free.** -/
theorem tail_free (h : Inv s) (hpow : 1 ≤ pow)
    (hseq : (s.inner.slot s.inner.tail).seq = s.inner.tail) :
    s.inner.tail < s.inner.head + 2 ^ pow ∧ s.inner.slot s.inner.tail = ⟨s.inner.tail, none⟩
      ∧ ∀ t, ¬ s.Holds t s.inner.tail := by
  have hlen : 2 ≤ 2 ^ pow := Nat.le_self_pow (by omega) 2
  have hnot : ∀ t, ¬ s.Holds t s.inner.tail := by
    intro t ht
    obtain ⟨_, hcase⟩ := h.of_holds ht
    omega
  have hlt : s.inner.tail < s.inner.head + 2 ^ pow := by
    by_contra hge
    have hle := h.tail_le
    have hlap : s.inner.tail = s.inner.head + 2 ^ pow := by omega
    rw [hlap, slot_add_len] at hseq
    rcases h.window s.inner.head le_rfl (by omega) with ⟨t, ht⟩ | ⟨_, val, hslot, _⟩ | ⟨hle', _⟩
    · obtain ⟨_, hcase⟩ := h.of_holds ht
      omega
    · rw [hslot] at hseq
      dsimp only at hseq
      omega
    · omega
  refine ⟨hlt, ?_, hnot⟩
  rcases h.window s.inner.tail h.head_le hlt with ⟨t, ht⟩ | ⟨hlt', _⟩ | ⟨_, hslot⟩
  · exact absurd ht (hnot t)
  · exact absurd hlt' (lt_irrefl _)
  · exact hslot

/-- **The head's sequence number tells that its position is published.** -/
theorem head_published (h : Inv s) (hseq : (s.inner.slot s.inner.head).seq = s.inner.head + 1) :
    s.inner.head < s.inner.tail
      ∧ ∃ val, s.inner.slot s.inner.head = ⟨s.inner.head + 1, some val⟩
        ∧ Claimed s.history s.inner.head val := by
  have hlen : 0 < 2 ^ pow := Nat.two_pow_pos pow
  rcases h.window s.inner.head le_rfl (by omega) with ⟨t, ht⟩ | ⟨hlt, hval⟩ | ⟨_, hslot⟩
  · obtain ⟨_, hcase⟩ := h.of_holds ht
    omega
  · exact ⟨hlt, hval⟩
  · rw [hslot] at hseq
    dsimp only at hseq
    omega

variable [DecidableEq τ]

/-- What the threads hold after thread `t` went on to `n`. -/
theorem holds_update {s : State τ T pow} {q : Inner T pow} {n : Option (Call T)}
    {h : List (τ × Event T)} {t t' : τ} {pos : ℕ} :
    State.Holds ⟨q, Function.update s.call t n, h⟩ t' pos
      ↔ (t' = t ∧ ∃ c, n = some c ∧ c.holds (2 ^ pow) = some pos) ∨ (t' ≠ t ∧ s.Holds t' pos) := by
  unfold State.Holds
  by_cases ht : t' = t
  · subst ht
    simp
  · simp [ht]

/-- **The invariant after a change of the queue and of one thread**, from what
the change has to bring. -/
theorem update (h : Inv s) (t : τ) (q : Inner T pow) (n : Option (Call T))
    (es : List (τ × Event T)) (hhead : q.head ≤ q.tail) (htail : q.tail ≤ q.head + 2 ^ pow)
    (hothers : ∀ t' c, t' ≠ t → s.call t' = some c → CallOk q (es ++ s.history) c)
    (hself : ∀ c, n = some c → CallOk q (es ++ s.history) c)
    (hwindow : ∀ pos, q.head ≤ pos → pos < q.head + 2 ^ pow →
      (∃ c, n = some c ∧ c.holds (2 ^ pow) = some pos) ∨ (∃ t', t' ≠ t ∧ s.Holds t' pos)
        ∨ SlotOk q (es ++ s.history) pos)
    (hunique : ∀ c pos t', n = some c → c.holds (2 ^ pow) = some pos → t' ≠ t → ¬ s.Holds t' pos)
    (hbooks : Books q.head q.tail (es ++ s.history)) :
    Inv ⟨q, Function.update s.call t n, es ++ s.history⟩ where
  head_le := hhead
  tail_le := htail
  callOk t' c hc := by
    by_cases ht : t' = t
    · subst ht
      exact hself c (by simpa using hc)
    · exact hothers t' c ht (by simpa [ht] using hc)
  window pos hle hlt := by
    simp only [holds_update]
    rcases hwindow pos hle hlt with hc | ⟨t', ht, hold⟩ | hok
    · exact Or.inl ⟨t, Or.inl ⟨rfl, hc⟩⟩
    · exact Or.inl ⟨t', Or.inr ⟨ht, hold⟩⟩
    · exact Or.inr hok
  unique t₁ t₂ pos h₁ h₂ := by
    rw [holds_update] at h₁ h₂
    rcases h₁ with ⟨rfl, c, hn, hc⟩ | ⟨hne₁, h₁⟩ <;> rcases h₂ with ⟨rfl, c', hn', hc'⟩ | ⟨hne₂, h₂⟩
    · rfl
    · exact absurd h₂ (hunique c pos t₂ hn hc hne₂)
    · exact absurd h₁ (hunique c' pos t₁ hn' hc' hne₁)
    · exact h.unique t₁ t₂ pos h₁ h₂
  books := hbooks

end Inv

/-! ## The books

The claims in the history are the positions that the counters have passed, each once. -/

section Books

variable {head tail : ℕ} {t : τ}

/-- The events that enter no book. -/
def Event.quiet : Event T → Bool
  | .claimedPush _ _ | .claimedPop _ | .returnedPop _ _ => false
  | _ => true

theorem Books.quiet (hb : Books head tail h) {e : Event T} (he : e.quiet = true) :
    Books head tail ((t, e) :: h) := by
  have hpush : pushPositions ((t, e) :: h) = pushPositions h := by
    cases e <;> first | rfl | cases he
  have hpop : popPositions ((t, e) :: h) = popPositions h := by
    cases e <;> first | rfl | cases he
  have hret : returnedPositions ((t, e) :: h) = returnedPositions h := by
    cases e <;> first | rfl | cases he
  refine ⟨hpush.trans hb.pushClaims, hpop.trans hb.popClaims, hret ▸ hb.nodup, hret ▸ hb.lt_head,
    fun t' pos val hmem => ?_⟩
  rcases List.mem_cons.mp hmem with heq | hmem
  · obtain ⟨_, rfl⟩ := Prod.mk.inj heq
    cases he
  · exact (hb.claimed t' pos val hmem).append [(t, e)]

theorem Books.claimPush (hb : Books head tail h) (val : T) :
    Books head (tail + 1) ((t, .claimedPush tail val) :: h) where
  pushClaims := by
    show tail :: pushPositions h = _
    rw [hb.pushClaims, List.range_succ, List.reverse_append]
    rfl
  popClaims := hb.popClaims
  nodup := hb.nodup
  lt_head := hb.lt_head
  claimed t' pos val' hmem := by
    rcases List.mem_cons.mp hmem with heq | hmem
    · cases heq
    · exact (hb.claimed t' pos val' hmem).append [_]

theorem Books.claimPop (hb : Books head tail h) :
    Books (head + 1) tail ((t, .claimedPop head) :: h) where
  pushClaims := hb.pushClaims
  popClaims := by
    show head :: popPositions h = _
    rw [hb.popClaims, List.range_succ, List.reverse_append]
    rfl
  nodup := hb.nodup
  lt_head pos hpos := Nat.lt_succ_of_lt (hb.lt_head pos hpos)
  claimed t' pos val' hmem := by
    rcases List.mem_cons.mp hmem with heq | hmem
    · cases heq
    · exact (hb.claimed t' pos val' hmem).append [_]

theorem Books.returnPop (hb : Books head tail h) {pos : ℕ} {val : T} (hlt : pos < head)
    (hnot : pos ∉ returnedPositions h) (hval : Claimed h pos val) :
    Books head tail ((t, .returnedPop pos val) :: h) where
  pushClaims := hb.pushClaims
  popClaims := hb.popClaims
  nodup := List.nodup_cons.mpr ⟨hnot, hb.nodup⟩
  lt_head pos' hpos' := by
    rcases List.mem_cons.mp hpos' with rfl | hpos'
    · exact hlt
    · exact hb.lt_head pos' hpos'
  claimed t' pos' val' hmem := by
    rcases List.mem_cons.mp hmem with heq | hmem
    · obtain ⟨_, he⟩ := Prod.mk.inj heq
      obtain ⟨rfl, rfl⟩ := Event.returnedPop.inj he
      exact hval.append [_]
    · exact (hb.claimed t' pos' val' hmem).append [_]

end Books

/-! ## Every step keeps the invariant

A step of a thread is within its own call, moves a counter by one, or writes to the one slot
that the thread holds. The last two are the cases with an argument: a claim makes the thread
the holder of a position nobody else holds, and a write by the holder concerns no other. -/

namespace Inv

variable [DecidableEq τ] {s : State τ T pow} {t : τ}

/-- The events recorded for one step of a thread. -/
def eventsOf (t : τ) (e : Option (Event T)) : List (τ × Event T) :=
  (e.map fun e => (t, e)).toList

omit [DecidableEq τ] in
theorem books_quiet {head tail : ℕ} {h : List (τ × Event T)} (hb : Books head tail h)
    {e : Option (Event T)} (he : ∀ e', e = some e' → e'.quiet = true) :
    Books head tail (eventsOf t e ++ h) := by
  cases e with
  | none => exact hb
  | some e => exact hb.quiet (he e rfl)

omit [DecidableEq τ] in
theorem returnedPositions_eq {h : List (τ × Event T)} {e : Option (Event T)}
    (he : ∀ pos val, e ≠ some (.returnedPop pos val)) :
    returnedPositions (eventsOf t e ++ h) = returnedPositions h := by
  cases e with
  | none => rfl
  | some e => cases e <;> first | rfl | exact absurd rfl (he _ _)

omit [DecidableEq τ] in
/-- Unless it returns a position, an event leaves the calls right. -/
theorem callOk_events {q : Inner T pow} {h : List (τ × Event T)} {c : Call T} (hc : CallOk q h c)
    {e : Option (Event T)} (he : ∀ pos val, e ≠ some (.returnedPop pos val)) :
    CallOk q (eventsOf t e ++ h) c :=
  hc.history (fun _ _ hval => hval.append _) fun _ _ hret => by rwa [returnedPositions_eq he]

/-- The calls a thread makes and the steps that claim nothing and hold
nothing. -/
theorem quiet (h : Inv s) (n : Option (Call T)) (e : Option (Event T))
    (hhold : ∀ pos, ¬ s.Holds t pos)
    (hn : ∀ c, n = some c → c.holds (2 ^ pow) = none ∧ CallOk s.inner s.history c)
    (he : ∀ e', e = some e' → e'.quiet = true) :
    Inv ⟨s.inner, Function.update s.call t n, eventsOf t e ++ s.history⟩ := by
  have hret : ∀ pos val, e ≠ some (.returnedPop pos val) := fun pos val heq => by
    cases he _ heq
  refine h.update t s.inner n _ h.head_le h.tail_le
    (fun t' c _ hc => callOk_events (h.callOk t' c hc) hret)
    (fun c hc => callOk_events (hn c hc).2 hret) (fun pos hle hlt => ?_)
    (fun c pos t' hc hpos => ?_) (books_quiet h.books he)
  · rcases h.window pos hle hlt with ⟨t', ht'⟩ | hok
    · refine Or.inr (Or.inl ⟨t', ?_, ht'⟩)
      rintro rfl
      exact hhold pos ht'
    · exact Or.inr (Or.inr (hok.history fun _ _ hval => hval.append _))
  · rw [(hn c hc).1] at hpos
    cases hpos

/-- **A producer claims the tail.** -/
theorem claimPush (h : Inv s) (hpow : 1 ≤ pow) {val : T}
    (hc : s.call t = some (pushCas val s.inner.tail)) :
    Inv ⟨{ s.inner with tail := s.inner.tail + 1 },
      Function.update s.call t (some (pushWrite val s.inner.tail)),
      (t, .claimedPush s.inner.tail val) :: s.history⟩ := by
  have hseq := (h.callOk t _ hc).2 rfl
  obtain ⟨hlt, hslot, hnot⟩ := h.tail_free hpow hseq
  have hclaimed : Claimed ((t, .claimedPush s.inner.tail val) :: s.history) s.inner.tail val :=
    ⟨t, List.mem_cons_self⟩
  refine h.update t _ _ [(t, .claimedPush s.inner.tail val)] (Nat.le_succ_of_le h.head_le) hlt
    (fun t' c _ hc' => ?_) (fun c hc' => ?_) (fun pos hle hlt' => ?_)
    (fun c pos t' hc' hpos _ => ?_) (h.books.claimPush val)
  · exact callOk_events (e := some _) ((h.callOk t' c hc').claimTail hpow hseq) (by simp)
  · obtain rfl := Option.some.inj hc'
    exact ⟨h.head_le, Nat.lt_succ_self _, hslot, hclaimed⟩
  · by_cases hpos : pos = s.inner.tail
    · exact Or.inl ⟨_, rfl, by rw [hpos]; rfl⟩
    · rcases h.window pos hle hlt' with ⟨t', ht'⟩ | hok
      · refine Or.inr (Or.inl ⟨t', ?_, ht'⟩)
        rintro rfl
        obtain ⟨c, hc', hpos'⟩ := ht'
        rw [hc] at hc'
        obtain rfl := Option.some.inj hc'
        cases hpos'
      · exact Or.inr (Or.inr ((hok.claimTail hpos).history fun _ _ hval => hval.append [_]))
  · obtain rfl := Option.some.inj hc'
    obtain rfl := Option.some.inj hpos
    exact hnot t'

/-- **A consumer claims the head.** -/
theorem claimPop (h : Inv s) (hc : s.call t = some (popCas s.inner.head)) :
    Inv ⟨{ s.inner with head := s.inner.head + 1 },
      Function.update s.call t (some (popRead s.inner.head)),
      (t, .claimedPop s.inner.head) :: s.history⟩ := by
  have hseq := (h.callOk t _ hc).2 rfl
  obtain ⟨hlt, val, hslot, hval⟩ := h.head_published hseq
  have htail := h.tail_le
  refine h.update t _ _ [(t, .claimedPop s.inner.head)] hlt (by dsimp only; omega)
    (fun t' c _ hc' => ?_) (fun c hc' => ?_) (fun pos hle hlt' => ?_)
    (fun c pos t' hc' hpos _ => ?_) h.books.claimPop
  · exact callOk_events (e := some _) ((h.callOk t' c hc').claimHead hseq) (by simp)
  · obtain rfl := Option.some.inj hc'
    refine ⟨Nat.lt_succ_self _, by dsimp only; omega, ⟨val, hslot, hval.append [_]⟩, ?_⟩
    exact fun hmem => absurd (h.books.lt_head _ hmem) (lt_irrefl _)
  · dsimp only at hle hlt'
    by_cases hpos : pos = s.inner.head + 2 ^ pow
    · exact Or.inl ⟨_, rfl, by rw [hpos]; rfl⟩
    · rcases h.window pos (by omega) (by omega) with ⟨t', ht'⟩ | hok
      · refine Or.inr (Or.inl ⟨t', ?_, ht'⟩)
        rintro rfl
        obtain ⟨c, hc', hpos'⟩ := ht'
        rw [hc] at hc'
        obtain rfl := Option.some.inj hc'
        cases hpos'
      · exact Or.inr (Or.inr (hok.history fun _ _ hval => hval.append [_]))
  · obtain rfl := Option.some.inj hc'
    obtain rfl := Option.some.inj hpos
    intro hold
    have := (h.of_holds hold).1
    omega

/-- **A thread changes the slot it holds**, and goes on holding it or gives it
up in the state it has to be in. -/
theorem setSlot (h : Inv s) (hpow : 1 ≤ pow) {pos : ℕ} (hold : s.Holds t pos) (slot : Slot T)
    (n : Option (Call T)) (e : Option (Event T))
    (hself : ∀ c, n = some c → c.holds (2 ^ pow) = some pos
      ∧ CallOk (s.inner.setSlot pos slot) (eventsOf t e ++ s.history) c)
    (hgive : n = none → SlotOk (s.inner.setSlot pos slot) (eventsOf t e ++ s.history) pos)
    (hreturn : ∀ idx, idx + 2 ^ pow ≠ pos → idx ∉ returnedPositions s.history →
      idx ∉ returnedPositions (eventsOf t e ++ s.history))
    (hbooks : Books s.inner.head s.inner.tail (eventsOf t e ++ s.history)) :
    Inv ⟨s.inner.setSlot pos slot, Function.update s.call t n, eventsOf t e ++ s.history⟩ := by
  obtain ⟨hwin, hseq⟩ := h.of_holds hold
  refine h.update t (s.inner.setSlot pos slot) n _ h.head_le h.tail_le (fun t' c ht' hc => ?_)
    (fun c hc => (hself c hc).2) (fun pos' hle hlt => ?_)
    (fun c pos' t' hc hpos ht' hold' => ?_) hbooks
  · have hne : c.holds (2 ^ pow) ≠ some pos := fun heq => ht' (h.unique t' t pos ⟨c, hc, heq⟩ hold)
    refine ((h.callOk t' c hc).setSlot h.head_le h.tail_le hwin hseq hpow hne slot).history
      (fun _ _ hval => hval.append _) fun idx hidx => hreturn idx fun heq => hne (heq ▸ hidx)
  · by_cases hpos : pos' = pos
    · subst hpos
      cases hn : n with
      | none => exact Or.inr (Or.inr (hgive hn))
      | some c => exact Or.inl ⟨c, rfl, (hself c hn).1⟩
    · rcases h.window pos' hle hlt with ⟨t', ht'⟩ | hok
      · refine Or.inr (Or.inl ⟨t', ?_, ht'⟩)
        rintro rfl
        obtain ⟨c, hc, hp⟩ := hold
        obtain ⟨c', hc', hp'⟩ := ht'
        rw [hc] at hc'
        obtain rfl := Option.some.inj hc'
        exact hpos (Option.some.inj (hp'.symm.trans hp))
      · have hne := Ring.mask_ne_of_window ⟨hle, hlt⟩ hwin hpos
        exact Or.inr (Or.inr ((hok.setSlot hne slot).history fun _ _ hval => hval.append _))
  · rw [(hself c hc).1] at hpos
    obtain rfl := Option.some.inj hpos
    exact ht' (h.unique t' t pos hold' hold)

omit [DecidableEq τ] in
theorem not_holds {c : Call T} (hc : s.call t = some c) (hnone : c.holds (2 ^ pow) = none)
    (pos : ℕ) : ¬ s.Holds t pos := by
  rintro ⟨c', hc', hpos⟩
  obtain rfl := Option.some.inj (hc.symm.trans hc')
  rw [hnone] at hpos
  cases hpos

/-- **A step of a call keeps the invariant.** -/
theorem advance (h : Inv s) (hpow : 1 ≤ pow) {c : Call T} {q : Inner T pow}
    {r : Call T ⊕ Outcome T} (hc : s.call t = some c) (hstep : ExecStep w s.inner c q r) :
    Inv (s.advance t c q r) := by
  have hok := h.callOk t c hc
  -- a step of a call that holds nothing yet, and gets nothing by it
  have hloose : c.holds (2 ^ pow) = none → q = s.inner →
      (∀ c', r = .inl c' → c'.holds (2 ^ pow) = none ∧ CallOk s.inner s.history c') →
      (∀ e, Event.of c r = some e → e.quiet = true) → Inv (s.advance t c q r) := by
    rintro hnone rfl hr he
    refine h.quiet _ _ (not_holds hc hnone) (fun c' hc' => hr c' ?_) he
    cases r with
    | inl c => rw [Option.some.inj hc']
    | inr o => cases hc'
  cases hstep with
  | pushLoadTail val =>
    exact hloose rfl rfl (fun c' hc' => Sum.inl.inj hc' ▸ ⟨rfl, le_rfl⟩) fun e he => by cases he
  | pushReady val idx hseq =>
    exact hloose rfl rfl (fun c' hc' => Sum.inl.inj hc' ▸ ⟨rfl, hok, fun _ => hseq⟩)
      fun e he => by cases he
  | pushFull val idx hseq =>
    exact hloose rfl rfl (fun c' hc' => by cases hc') fun e he => Option.some.inj he ▸ rfl
  | pushStale val idx hseq =>
    exact hloose rfl rfl (fun c' hc' => Sum.inl.inj hc' ▸ ⟨rfl, trivial⟩) fun e he => by cases he
  | pushClaim val => exact h.claimPush hpow hc
  | pushCasFail val idx =>
    exact hloose rfl rfl (fun c' hc' => Sum.inl.inj hc' ▸ ⟨rfl, le_rfl⟩) fun e he => by cases he
  -- the holder of a position writes its slot, or gives it up published
  | pushWrite val idx =>
    obtain ⟨hle, hlt, hslot, hval⟩ := hok
    refine h.setSlot hpow ⟨_, hc, rfl⟩ _ _ none (fun c' hc' => ?_) (fun hn => by cases hn)
      (fun _ _ hret => hret) h.books
    obtain rfl := Option.some.inj hc'
    exact ⟨rfl, hle, hlt, val, by simp [hslot], hval⟩
  | pushStoreSeq idx =>
    obtain ⟨hle, hlt, val, hslot, hval⟩ := hok
    refine h.setSlot hpow ⟨_, hc, rfl⟩ _ _ (some _) (fun c' hc' => by cases hc') (fun _ => ?_)
      (fun _ _ hret => hret) (h.books.quiet rfl)
    exact Or.inl ⟨hlt, val, by simp [hslot], hval.append _⟩
  | popLoadHead =>
    exact hloose rfl rfl (fun c' hc' => Sum.inl.inj hc' ▸ ⟨rfl, le_rfl⟩) fun e he => by cases he
  | popReady idx hseq =>
    exact hloose rfl rfl (fun c' hc' => Sum.inl.inj hc' ▸ ⟨rfl, hok, fun _ => hseq⟩)
      fun e he => by cases he
  | popEmpty idx hseq =>
    exact hloose rfl rfl (fun c' hc' => by cases hc') fun e he => Option.some.inj he ▸ rfl
  | popStale idx hseq =>
    exact hloose rfl rfl (fun c' hc' => Sum.inl.inj hc' ▸ ⟨rfl, trivial⟩) fun e he => by cases he
  | popClaim => exact h.claimPop hc
  | popCasFail idx =>
    exact hloose rfl rfl (fun c' hc' => Sum.inl.inj hc' ▸ ⟨rfl, le_rfl⟩) fun e he => by cases he
  -- a consumer holds the position a lap further, which has the same slot
  | popRead idx data hdata =>
    obtain ⟨hlt, hle, ⟨val, hslot, hval⟩, hret⟩ := hok
    rw [hslot] at hdata
    obtain rfl := Option.some.inj hdata
    rw [← setSlot_add_len]
    refine h.setSlot hpow ⟨_, hc, rfl⟩ _ _ none (fun c' hc' => ?_) (fun hn => by cases hn)
      (fun _ _ hret => hret) h.books
    obtain rfl := Option.some.inj hc'
    refine ⟨rfl, hlt, hle, ⟨?_, hval⟩, hret⟩
    rw [setSlot_add_len, Inner.slot_setSlot_self, hslot]
  | popStoreSeq idx data =>
    obtain ⟨hlt, hle, ⟨hslot, hval⟩, hret⟩ := hok
    rw [← setSlot_add_len]
    refine h.setSlot hpow ⟨_, hc, rfl⟩ _ _ (some _) (fun c' hc' => by cases hc') (fun _ => ?_)
      (fun idx' hne hret' => ?_) (h.books.returnPop hlt hret hval)
    · exact Or.inr ⟨hle, by simp [hslot]⟩
    · refine List.not_mem_cons_of_ne_of_not_mem ?_ hret'
      rintro rfl
      exact hne rfl

end Inv

variable [DecidableEq τ]

/-- The invariant holds at the start, where every position is free. -/
theorem inv_init : Inv (system τ T w).init where
  head_le := le_rfl
  tail_le := Nat.zero_le _
  callOk t c hc := by cases hc
  window pos _ hlt := by
    refine Or.inr (Or.inr ⟨Nat.zero_le _, slot_empty ?_⟩)
    simpa [system, Inner.empty] using hlt
  unique t t' pos ht _ := by
    obtain ⟨c, hc, _⟩ := ht
    cases hc
  books :=
    { pushClaims := rfl
      popClaims := rfl
      nodup := List.nodup_nil
      lt_head := fun pos hpos => by cases hpos
      claimed := fun t pos val hmem => by cases hmem }

/-- **The invariant holds in every reachable state**, from two slots on. -/
theorem inv_of_reachable (hpow : 1 ≤ pow) {s : State τ T pow}
    (hs : (system τ T w).Reachable s) : Inv s := by
  refine System.ReachableWhile.invariant hs ?_ ?_
  · exact inv_init
  · rintro s ⟨t, a⟩ s' _ hs _ hnext
    rcases system_next_cases hnext with ⟨hnone, op, rfl⟩ | ⟨c, q, r, hc, hstep, rfl⟩
    · refine hs.quiet (some (invoke op)) (some (.called op)) ?_ ?_ ?_
      · rintro pos ⟨c, hc, _⟩
        rw [hnone] at hc
        cases hc
      · rintro c' ⟨⟩
        cases op <;> exact ⟨rfl, trivial⟩
      · rintro e' ⟨⟩
        rfl
    · exact hs.advance hpow hc hstep

end Mpmc
