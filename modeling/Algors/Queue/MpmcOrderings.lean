import Algors.Queue.MpmcWeak

/-!
# The orderings of the multi-producer multi-consumer queue suffice

What the threads do is right with the queue *as it is*: the counters and
sequence numbers that were stored last, and the data of the slots. `Inv` of
`Algors.Queue.MpmcInvariant` is kept, although a load may give an old value and
the steps are not those of that queue. An index loaded is not ahead of the
counter whichever store was read, and the exchange succeeds only on the latest
store; and a sequence number read at the tail or at the head that allows the
exchange is the latest, as none is greater.

The memory has, for the slot of every position, either a thread that knows that
all accesses to the slot are over, or a latest store of the sequence number
that carries this knowledge. The acquire load takes the knowledge, before the
exchange which gives the right to use it, and the release store gives it on.
-/

namespace Mpmc.Weak

variable {T τ : Type} {pow : ℕ} {w : Width pow}

open WeakMemory (Mem View MemOrder Message Cell)
open Fifo (Op Outcome)
open Call

/-! ## What the sequence numbers tell

The sequence number of a slot only grows. So a load that gives one which is as large as it can
be gives the latest, whatever else the memory would have let it give. -/

section Current

variable {s : Mpmc.State τ T pow} (h : Mpmc.Inv s)

include h

/-- The sequence number of the slot of the tail is not ahead of it. -/
theorem seq_tail_le : (s.inner.slot s.inner.tail).seq ≤ s.inner.tail := by
  have hlen := Nat.two_pow_pos pow
  have hle := h.head_le
  have hlap := h.tail_le
  rcases Nat.lt_or_ge s.inner.tail (s.inner.head + 2 ^ pow) with hlt | hge
  · rcases h.window s.inner.tail hle hlt with ⟨t, ht⟩ | ⟨hlt', -⟩ | ⟨-, hslot⟩
    · obtain ⟨-, hcase⟩ := h.of_holds ht
      omega
    · exact absurd hlt' (lt_irrefl _)
    · rw [hslot]
  · obtain heq : s.inner.tail = s.inner.head + 2 ^ pow := by omega
    rw [heq, slot_add_len]
    rcases h.window s.inner.head le_rfl (by omega) with ⟨t, ht⟩ | ⟨-, val, hslot, -⟩ | ⟨hle', -⟩
    · obtain ⟨-, hcase⟩ := h.of_holds ht
      omega
    · rw [hslot]
      dsimp only
      omega
    · omega

/-- That of the slot of the head is not ahead of a published one. -/
theorem seq_head_le : (s.inner.slot s.inner.head).seq ≤ s.inner.head + 1 := by
  have hlen := Nat.two_pow_pos pow
  rcases h.window s.inner.head le_rfl (by omega) with ⟨t, ht⟩ | ⟨-, val, hslot, -⟩ | ⟨-, hslot⟩
  · obtain ⟨-, hcase⟩ := h.of_holds ht
    omega
  · rw [hslot]
  · rw [hslot]
    exact Nat.le_succ _

/-- No thread holds a published head. -/
theorem not_holds_head (hseq : (s.inner.slot s.inner.head).seq = s.inner.head + 1) (t : τ) :
    ¬ s.Holds t s.inner.head := by
  intro ht
  have hlen := Nat.two_pow_pos pow
  obtain ⟨-, hcase⟩ := h.of_holds ht
  omega

end Current

/-- **The position whose slot a call has**: the one it holds, or would hold if
its exchange succeeded now. -/
def slotOf (q : Mpmc.Inner T pow) : Call T → Option ℕ
  | pushCas _ idx => if idx = q.tail then some idx else none
  | popCas idx => if idx = q.head then some idx else none
  | c => c.holds (2 ^ pow)

/-- A lap further, the slot is the same. -/
theorem mask_add_len (pos : ℕ) : (mask (pos + 2 ^ pow) : Fin (2 ^ pow)) = mask pos :=
  Ring.mask_add_len pos

theorem buf_setSlot_self (q : Mpmc.Inner T pow) (pos : ℕ) (slot : Slot T) :
    (q.setSlot pos slot).buf (mask pos) = slot := Function.update_self ..

theorem buf_setSlot_of_ne (q : Mpmc.Inner T pow) {pos : ℕ} {i : Fin (2 ^ pow)} (hne : i ≠ mask pos)
    (slot : Slot T) : (q.setSlot pos slot).buf i = q.buf i := Function.update_of_ne hne ..

theorem slotOf_setSlot (q : Mpmc.Inner T pow) (pos : ℕ) (slot : Slot T) (c : Call T) :
    slotOf (q.setSlot pos slot) c = slotOf q c := by
  cases c <;> rfl

theorem slotOf_of_holds {q : Mpmc.Inner T pow} {c : Call T} {pos : ℕ}
    (h : c.holds (2 ^ pow) = some pos) : slotOf q c = some pos := by
  cases c <;> first | exact h | cases h

/-- **A position a call has is in the window**, and no other thread holds it. -/
theorem window_of_slotOf {s : Mpmc.State τ T pow} (h : Mpmc.Inv s) (hpow : 1 ≤ pow) {t : τ}
    {c : Call T} (hc : s.call t = some c) {pos : ℕ} (hpos : slotOf s.inner c = some pos) :
    (s.inner.head ≤ pos ∧ pos < s.inner.head + 2 ^ pow) ∧ ∀ t', s.Holds t' pos → t' = t := by
  have hlen := Nat.two_pow_pos pow
  have hok := h.callOk t c hc
  have hheld : c.holds (2 ^ pow) = some pos → (s.inner.head ≤ pos ∧ pos < s.inner.head + 2 ^ pow)
      ∧ ∀ t', s.Holds t' pos → t' = t := fun hold =>
    ⟨hok.window h.head_le h.tail_le hold, fun t' ht' => h.unique t' t pos ht' ⟨c, hc, hold⟩⟩
  cases c with
  | pushCas val idx =>
    simp only [slotOf] at hpos
    split_ifs at hpos with heq
    obtain rfl := Option.some.inj hpos
    have hseq := hok.2 heq
    rw [heq] at hseq ⊢
    obtain ⟨hlt, -, hnot⟩ := h.tail_free hpow hseq
    exact ⟨⟨h.head_le, hlt⟩, fun t' ht' => absurd ht' (hnot t')⟩
  | popCas idx =>
    simp only [slotOf] at hpos
    split_ifs at hpos with heq
    obtain rfl := Option.some.inj hpos
    have hseq := hok.2 heq
    rw [heq] at hseq ⊢
    exact ⟨⟨le_rfl, by omega⟩, fun t' ht' => absurd ht' (not_holds_head h hseq t')⟩
  | _ => exact hheld hpos

/-! ## What the memory has for the threads

For every position in the window: who knows that the accesses to its slot are over, a thread that
holds it or the latest store of its sequence number. -/

/-- **The memory of the queue**: what a load of the latest stores and a look at
the cells would give is the queue `q`; a thread has the slot of the position
that it holds, or would hold; and the slot of a position that no thread holds
is handed on by its sequence number. -/
structure MemOk (m : Inner τ T pow) (q : Mpmc.Inner T pow) (call : τ → Option (Call T)) :
    Prop where
  closed : m.Closed
  data : ∀ i, (m.cell i).val = (q.buf i).data
  tail : m.Counts .tail q.tail
  head : m.Counts .head q.head
  seq : ∀ i, m.Increasing (.seq i) (q.buf i).seq
  has : ∀ t c pos, call t = some c → slotOf q c = some pos →
    m.Has (m.view t) (.seq (mask pos)) (mask pos) (q.slot pos).seq
  free : ∀ pos, q.head ≤ pos → pos < q.head + 2 ^ pow →
    (∀ t c, call t = some c → c.holds (2 ^ pow) ≠ some pos) →
      m.HandsOn (.seq (mask pos)) (mask pos) (q.slot pos).seq

theorem memOk_start : MemOk (Inner.empty pow : Inner τ T pow) (.empty pow) fun _ => none where
  closed := Mem.closed_start _
  data _ := rfl
  tail := Mem.Counts.start rfl
  head := Mem.Counts.start rfl
  seq i := Mem.increasing_start _
  has t c pos hc := by cases hc
  free pos _ _ _ msg _ _ := by
    simp [Cell.Known, Cell.Written, Cell.Unread, Inner.empty, Mem.start]

namespace MemOk

variable {m m' : Inner τ T pow} {q : Mpmc.Inner T pow} {call : τ → Option (Call T)} {t : τ}

/-- **More is known**: the views grow. -/
theorem grow (h : MemOk m q call) (hclosed : m'.Closed) (hstores : m'.stores = m.stores)
    (hcell : m'.cell = m.cell) (hview : ∀ t, m.view t ≤ m'.view t) : MemOk m' q call where
  closed := hclosed
  data i := by
    rw [hcell]
    exact h.data i
  tail := h.tail.of_eq (congrFun hstores _)
  head := h.head.of_eq (congrFun hstores _)
  seq i := (h.seq i).of_eq (congrFun hstores _)
  has t c pos hc hpos := (h.has t c pos hc hpos).mono (hview t) (fun msg hmem => by rwa [hstores])
    (congrFun hcell _)
  free pos hle hlt hfree := (h.free pos hle hlt hfree).of_eq (congrFun hstores _) (congrFun hcell _)

variable [DecidableEq τ]

/-- A thread that holds nothing goes on without holding anything. -/
theorem setCall (h : MemOk m q call) (hnone : ∀ c pos, call t = some c →
    c.holds (2 ^ pow) ≠ some pos) {n : Option (Call T)}
    (hslot : ∀ c pos, n = some c → slotOf q c = some pos →
      m.Has (m.view t) (.seq (mask pos)) (mask pos) (q.slot pos).seq) :
    MemOk m q (Function.update call t n) :=
  { h with
    has := fun u c pos hc hpos => by
      by_cases hut : u = t
      · subst hut
        rw [Function.update_self] at hc
        exact hslot c pos hc hpos
      · rw [Function.update_of_ne hut] at hc
        exact h.has u c pos hc hpos
    free := fun pos hle hlt hfree => h.free pos hle hlt fun u c hc => by
      by_cases hut : u = t
      · subst hut
        exact hnone c pos hc
      · exact hfree u c (by rw [Function.update_of_ne hut]; exact hc) }

/-- **A producer claims the tail**, where it has its slot. -/
theorem claimTail (h : MemOk m q call) {val : T} {found stamp : ℕ} {spurious : Bool}
    {idx : ℕ} (hc : call t = some (pushCas val idx))
    (hidx : ∀ u val idx, call u = some (pushCas val idx) → idx ≤ q.tail)
    (hcas : m.exchange t .tail idx (idx + 1) stamp spurious = some (m', .ok found)) :
    idx = q.tail ∧ MemOk m' { q with tail := q.tail + 1 }
      (Function.update call t (some (pushWrite val q.tail))) := by
  have hclosed := h.closed.exchange hcas
  obtain ⟨rfl, htail⟩ := h.tail.exchange hcas
  refine ⟨rfl, ?_⟩
  obtain ⟨hcell, hstores, hview, -⟩ := Mem.exchange_frame hcas
  have hhead : m'.stores .head = m.stores .head := hstores _ nofun
  have hseq : ∀ i, m'.stores (.seq i) = m.stores (.seq i) := fun i => hstores _ nofun
  refine ⟨hclosed, fun i => by rw [hcell]; exact h.data i, htail, h.head.of_eq hhead,
    fun i => (h.seq i).of_eq (hseq i), fun u c pos hcall hpos => ?_, fun pos hle hlt hfree => ?_⟩
  · have hold : ∃ c, call u = some c ∧ slotOf q c = some pos := by
      by_cases hut : u = t
      · subst hut
        rw [Function.update_self] at hcall
        obtain rfl := Option.some.inj hcall
        obtain rfl := Option.some.inj hpos
        exact ⟨_, hc, if_pos rfl⟩
      · rw [Function.update_of_ne hut] at hcall
        refine ⟨c, hcall, ?_⟩
        cases c with
        | pushCas val' idx' =>
          have := hidx u val' idx' hcall
          simp only [slotOf] at hpos
          split_ifs at hpos with heq
          omega
        | _ => exact hpos
    obtain ⟨c', hc', hpos'⟩ := hold
    exact (h.has u c' pos hc' hpos').mono (hview u) (fun msg hmem => by rwa [hseq])
      (congrFun hcell _)
  · refine (h.free pos hle hlt fun u c hc' heq => ?_).of_eq (hseq _) (congrFun hcell _)
    by_cases hut : u = t
    · subst hut
      rw [hc] at hc'
      obtain rfl := Option.some.inj hc'
      cases heq
    · exact hfree u c (by rw [Function.update_of_ne hut]; exact hc') heq

/-- **A consumer claims the head**, likewise; it holds the next position of the
slot. -/
theorem claimHead (h : MemOk m q call) {found stamp : ℕ} {spurious : Bool} {idx : ℕ}
    (hc : call t = some (popCas idx))
    (hidx : ∀ u idx, call u = some (popCas idx) → idx ≤ q.head)
    (hcas : m.exchange t .head idx (idx + 1) stamp spurious = some (m', .ok found)) :
    idx = q.head ∧ MemOk m' { q with head := q.head + 1 }
      (Function.update call t (some (popRead q.head))) := by
  have hclosed := h.closed.exchange hcas
  obtain ⟨rfl, hhead⟩ := h.head.exchange hcas
  refine ⟨rfl, ?_⟩
  obtain ⟨hcell, hstores, hview, -⟩ := Mem.exchange_frame hcas
  have htail : m'.stores .tail = m.stores .tail := hstores _ nofun
  have hseq : ∀ i, m'.stores (.seq i) = m.stores (.seq i) := fun i => hstores _ nofun
  refine ⟨hclosed, fun i => by rw [hcell]; exact h.data i, h.tail.of_eq htail, hhead,
    fun i => (h.seq i).of_eq (hseq i), fun u c pos hcall hpos => ?_, fun pos hle hlt hfree => ?_⟩
  · -- the thread has had the slot in view since it loaded its number
    have hold : ∃ c pos', call u = some c ∧ slotOf q c = some pos'
        ∧ (mask pos' : Fin (2 ^ pow)) = mask pos := by
      by_cases hut : u = t
      · subst hut
        rw [Function.update_self] at hcall
        obtain rfl := Option.some.inj hcall
        obtain rfl := Option.some.inj hpos
        exact ⟨_, q.head, hc, if_pos rfl, (mask_add_len _).symm⟩
      · rw [Function.update_of_ne hut] at hcall
        refine ⟨c, pos, hcall, ?_, rfl⟩
        cases c with
        | popCas idx' =>
          have := hidx u idx' hcall
          simp only [slotOf] at hpos
          split_ifs at hpos with heq
          omega
        | _ => exact hpos
    obtain ⟨c', pos', hc', hpos', hmask⟩ := hold
    have hhas := h.has u c' pos' hc' hpos'
    have hslot : q.slot pos' = q.slot pos := congrArg q.buf hmask
    rw [hmask, hslot] at hhas
    exact hhas.mono (hview u) (fun msg hmem => by rwa [hseq]) (congrFun hcell _)
  · -- the one position that is new in the window is the one held
    dsimp only at hle hlt
    have hne : pos ≠ q.head + 2 ^ pow := by
      rintro rfl
      exact hfree t _ (Function.update_self ..) rfl
    refine (h.free pos (by omega) (by omega) fun u c hc' heq => ?_).of_eq (hseq _)
      (congrFun hcell _)
    by_cases hut : u = t
    · subst hut
      rw [hc] at hc'
      obtain rfl := Option.some.inj hc'
      cases heq
    · exact hfree u c (by rw [Function.update_of_ne hut]; exact hc') heq

/-- **A thread accesses the slot it holds**, and goes on holding it: it has the
slot still, and the others have other ones. -/
theorem access (h : MemOk m q call) {pos : ℕ} {c : Call T} {slot : Slot T}
    (hclosed : m'.Closed) (hstores : m'.stores = m.stores)
    (hcell : ∀ i, i ≠ mask pos → m'.cell i = m.cell i)
    (hdata : (m'.cell (mask pos)).val = slot.data) (hseq : slot.seq = (q.slot pos).seq)
    (hview : ∀ u, m.view u ≤ m'.view u)
    (hhas : m'.Has (m'.view t) (.seq (mask pos)) (mask pos) (q.slot pos).seq)
    {c₀ : Call T} (hc₀ : call t = some c₀) (hpos : c₀.holds (2 ^ pow) = some pos)
    (hc : c.holds (2 ^ pow) = some pos)
    (hothers : ∀ u c pos', u ≠ t → call u = some c → slotOf q c = some pos' →
      (mask pos' : Fin (2 ^ pow)) ≠ mask pos)
    (hfree : ∀ pos', q.head ≤ pos' → pos' < q.head + 2 ^ pow → pos' ≠ pos →
      (mask pos' : Fin (2 ^ pow)) ≠ mask pos) :
    MemOk m' (q.setSlot pos slot) (Function.update call t (some c)) := by
  have hseq' : ∀ i, ((q.setSlot pos slot).buf i).seq = (q.buf i).seq := fun i => by
    by_cases heq : i = mask pos
    · subst heq
      rw [buf_setSlot_self, hseq]
      rfl
    · rw [buf_setSlot_of_ne q heq]
  refine ⟨hclosed, fun i => ?_, h.tail.of_eq (congrFun hstores _),
    h.head.of_eq (congrFun hstores _), fun i => hseq' i ▸ (h.seq i).of_eq (congrFun hstores _),
    fun u c' pos' hcall hpos' => ?_, fun pos' hle hlt hunheld => ?_⟩
  · by_cases heq : i = mask pos
    · subst heq
      rw [hdata, buf_setSlot_self]
    · rw [hcell i heq, buf_setSlot_of_ne q heq]
      exact h.data i
  · -- what a thread knows of its slot: its own, or another one
    rw [Mpmc.Inner.slot, Ring.get, hseq']
    by_cases hut : u = t
    · subst hut
      rw [Function.update_self] at hcall
      obtain rfl := Option.some.inj hcall
      obtain rfl : pos = pos' := Option.some.inj ((slotOf_of_holds hc).symm.trans hpos')
      exact hhas
    · rw [Function.update_of_ne hut] at hcall
      rw [slotOf_setSlot] at hpos'
      exact (h.has u c' pos' hcall hpos').mono (hview u) (fun msg hmem => by rwa [hstores])
        (hcell _ (hothers u c' pos' hut hcall hpos'))
  · -- what a store carries, of the positions that nobody holds
    have hne : pos' ≠ pos := by
      rintro rfl
      exact hunheld t c (Function.update_self ..) hc
    rw [Mpmc.Inner.slot, Ring.get, hseq']
    refine (h.free pos' hle hlt fun u c' hc' heq => ?_).of_eq (congrFun hstores _)
      (hcell _ (hfree pos' hle hlt hne))
    by_cases hut : u = t
    · subst hut
      obtain rfl := Option.some.inj (hc₀.symm.trans hc')
      exact hne (Option.some.inj (heq.symm.trans hpos))
    · exact hunheld u c' (by rw [Function.update_of_ne hut]; exact hc') heq

/-- **A thread gives up the slot it holds** and hands it on. -/
theorem publish (h : MemOk m q call) {pos stamp val : ℕ} {c : Call T}
    (hc : call t = some c) (hpos : c.holds (2 ^ pow) = some pos) (hlt : (q.slot pos).seq < val)
    (hstore : m.store t (.seq (mask pos)) val .release stamp = some m')
    (hothers : ∀ u c pos', u ≠ t → call u = some c → slotOf q c = some pos' →
      (mask pos' : Fin (2 ^ pow)) ≠ mask pos)
    (hfree : ∀ pos', q.head ≤ pos' → pos' < q.head + 2 ^ pow → pos' ≠ pos →
      (mask pos' : Fin (2 ^ pow)) ≠ mask pos) :
    MemOk m' (q.setSlot pos { q.slot pos with seq := val }) (Function.update call t none) := by
  have hhas := h.has t c pos hc (slotOf_of_holds hpos)
  obtain ⟨hinc, -⟩ := (h.seq (mask pos)).store hhas.seen hlt hstore
  have hhands := hhas.release (h.seq (mask pos)) hlt hstore
  obtain ⟨hcell, hstores, hview⟩ := Mem.store_frame hstore
  have hseq : ∀ i, i ≠ mask pos → m'.stores (.seq i) = m.stores (.seq i) := fun i hne =>
    hstores _ fun heq => hne (Loc.seq.inj heq)
  refine ⟨h.closed.store hstore, fun i => ?_, h.tail.of_eq (hstores _ nofun),
    h.head.of_eq (hstores _ nofun), fun i => ?_, fun u c' pos' hcall hpos' => ?_,
    fun pos' hle hlt hunheld => ?_⟩
  · rw [hcell, h.data]
    by_cases heq : i = mask pos
    · subst heq
      rw [buf_setSlot_self]
      rfl
    · rw [buf_setSlot_of_ne q heq]
  · by_cases heq : i = mask pos
    · subst heq
      rw [buf_setSlot_self]
      exact hinc
    · rw [buf_setSlot_of_ne q heq]
      exact (h.seq i).of_eq (hseq i heq)
  · -- the other threads have other slots
    have hut : u ≠ t := by
      rintro rfl
      rw [Function.update_self] at hcall
      cases hcall
    rw [Function.update_of_ne hut] at hcall
    rw [slotOf_setSlot] at hpos'
    have hne := hothers u c' pos' hut hcall hpos'
    rw [Mpmc.Inner.slot, Ring.get, buf_setSlot_of_ne q hne]
    exact (h.has u c' pos' hcall hpos').mono (hview u) (fun msg hmem => by rwa [hseq _ hne])
      (congrFun hcell _)
  · -- the slot that was held is in the hands of the new store
    by_cases heq : pos' = pos
    · subst heq
      rw [Mpmc.Inner.slot, Ring.get, buf_setSlot_self]
      exact hhands
    · have hne := hfree pos' hle hlt heq
      rw [Mpmc.Inner.slot, Ring.get, buf_setSlot_of_ne q hne]
      refine (h.free pos' hle hlt fun u c' hc' hheld => ?_).of_eq (hseq _ hne) (congrFun hcell _)
      by_cases hut : u = t
      · subst hut
        obtain rfl := Option.some.inj (hc.symm.trans hc')
        exact heq (Option.some.inj (hheld.symm.trans hpos))
      · exact hunheld u c' (by rw [Function.update_of_ne hut]; exact hc') hheld

end MemOk

/-! ## The invariant

The invariant of the queue as it is, and with it what the memory has. A step of a thread changes
one location and the view of one thread, and the rest is by frames. -/

/-- The queue `q` with the threads as they are. -/
def State.current (s : State τ T pow) (q : Mpmc.Inner T pow) : Mpmc.State τ T pow :=
  ⟨q, s.call, s.history⟩

/-- **The invariant**: the threads are right with the queue as it is, the memory
has that queue, and who was told that a call has returned has seen its store.
The first store of a sequence number is one that every thread has seen. -/
structure Holds (s : State τ T pow) (q : Mpmc.Inner T pow) : Prop where
  inv : Mpmc.Inv (s.current q)
  traced : Traced (s.current q)
  memOk : MemOk s.inner q s.call
  first : ∀ i, s.inner.Seen ⊥ (.seq i) i
  toldPush : ∀ t pos, .returnedPush pos ∈ s.told t →
    s.inner.Seen (s.inner.view t) (.seq (mask pos)) (pos + 1)
  toldPop : ∀ t pos val, .returnedPop pos val ∈ s.told t →
    s.inner.Seen (s.inner.view t) (.seq (mask pos)) (pos + 2 ^ pow)

/-- The events that claim nothing and return from no claim. -/
def silent : Event T → Bool
  | .called _ | .returnedFull _ | .returnedEmpty => true
  | _ => false

theorem quiet_of_silent {e : Event T} (h : silent e = true) : e.quiet = true := by
  cases e <;> first | rfl | cases h

/-- A call that holds nothing writes nothing and reads nothing. -/
theorem writing_of_holds {c : Call T} (h : c.holds (2 ^ pow) = none) :
    c.writing = none ∧ c.reading = none := by
  cases c <;> first | exact ⟨rfl, rfl⟩ | cases h

variable [DecidableEq τ]

/-- **What is silent** leaves no trace. -/
theorem traced_quiet {s : Mpmc.State τ T pow} (h : Traced s) {t : τ}
    (hold : ∀ c, s.call t = some c → c.holds (2 ^ pow) = none) {n : Option (Call T)}
    (hn : ∀ c, n = some c → c.holds (2 ^ pow) = none) {e : Option (Event T)}
    (he : ∀ e', e = some e' → silent e' = true) :
    Traced ⟨s.inner, Function.update s.call t n, Inv.eventsOf t e ++ s.history⟩ := by
  have hmem : ∀ u e', silent e' = false →
      ((u, e') ∈ Inv.eventsOf t e ++ s.history ↔ (u, e') ∈ s.history) := by
    intro u e' he'
    rw [List.mem_append]
    refine ⟨fun h => h.resolve_left fun hin => ?_, Or.inr⟩
    cases e with
    | none => cases hin
    | some e =>
      obtain ⟨-, rfl⟩ := Prod.mk.inj (List.mem_singleton.mp hin)
      rw [he _ rfl] at he'
      cases he'
  have hsame : ∀ (f : Call T → Option ℕ), (∀ c : Call T, c.holds (2 ^ pow) = none → f c = none) →
      ∀ u pos, (∃ c, Function.update s.call t n u = some c ∧ f c = some pos)
        ↔ ∃ c, s.call u = some c ∧ f c = some pos := by
    intro f hf u pos
    by_cases hut : u = t
    · subst hut
      rw [Function.update_self]
      constructor
      · rintro ⟨c, hc, hpos⟩
        rw [hf c (hn c hc)] at hpos
        cases hpos
      · rintro ⟨c, hc, hpos⟩
        rw [hf c (hold c hc)] at hpos
        cases hpos
    · rw [Function.update_of_ne hut]
  refine ⟨fun u pos => ?_, fun u pos => ?_⟩
  · rw [hmem u (.returnedPush pos) rfl]
    exact (exists_congr fun val => hmem u (.claimedPush pos val) rfl).trans ((h.push u pos).trans
      (or_congr_left (hsame Call.writing (fun c hc => (writing_of_holds hc).1) u pos).symm))
  · rw [hmem u (.claimedPop pos) rfl]
    exact (h.pop u pos).trans (or_congr (hsame Call.reading (fun c hc => (writing_of_holds hc).2)
      u pos).symm (exists_congr fun val => (hmem u (.returnedPop pos val) rfl).symm))

/-- What a thread is told is what it was told before or what happens to it. -/
theorem mem_told_record {s : State τ T pow} {t u : τ} {e : Option (Event T)} {e' : Event T}
    (h : e' ∈ (s.record t e).told u) : (u = t ∧ e = some e') ∨ e' ∈ s.told u := by
  change e' ∈ Function.update s.told t (e.toList ++ s.told t) u at h
  by_cases hut : u = t
  · subst hut
    rw [Function.update_self] at h
    cases e with
    | none => exact Or.inr h
    | some e =>
      rcases List.mem_cons.mp h with rfl | hold
      · exact Or.inl ⟨rfl, rfl⟩
      · exact Or.inr hold
  · rw [Function.update_of_ne hut] at h
    exact Or.inr h

/-- After a thread has learnt what another one has done, what a thread is told
was told to one that knows no more than it does. -/
theorem mem_told_join {s : State τ T pow} {t u t' : τ} {e : Event T}
    (h : e ∈ (s.join t u).told t') :
    ∃ u', s.inner.view u' ≤ (s.inner.join t u).view t' ∧ e ∈ s.told u' := by
  change e ∈ Function.update s.told t (s.told u ++ s.told t) t' at h
  by_cases heq : t' = t
  · subst heq
    rw [Function.update_self] at h
    rcases List.mem_append.mp h with hu | hold
    · refine ⟨u, ?_, hu⟩
      rw [Mem.view_see_self]
      exact le_sup_right
    · exact ⟨t', s.inner.le_view_see t' t' _, hold⟩
  · rw [Function.update_of_ne heq] at h
    exact ⟨t', s.inner.le_view_see t t' _, h⟩

namespace Holds

variable {s : State τ T pow} {q : Mpmc.Inner T pow} {t : τ}

/-- **A step that claims nothing and returns from no claim**, of a thread that
holds nothing. -/
theorem quiet (h : Holds s q) (hold : ∀ c, s.call t = some c → c.holds (2 ^ pow) = none)
    {m' : Inner τ T pow} (hclosed : m'.Closed) (hstores : m'.stores = s.inner.stores)
    (hcell : m'.cell = s.inner.cell) (hview : ∀ u, s.inner.view u ≤ m'.view u)
    {n : Option (Call T)}
    (hn : ∀ c, n = some c → c.holds (2 ^ pow) = none ∧ CallOk q s.history c)
    (hslot : ∀ c pos, n = some c → slotOf q c = some pos →
      m'.Has (m'.view t) (.seq (mask pos)) (mask pos) (q.slot pos).seq)
    {e : Option (Event T)} (he : ∀ e', e = some e' → silent e' = true) :
    Holds { s.record t e with inner := m', call := Function.update s.call t n } q where
  inv := h.inv.quiet n e
    (by
      rintro pos ⟨c, hc, hpos⟩
      rw [hold c hc] at hpos
      cases hpos) hn fun e' he' => quiet_of_silent (he e' he')
  traced := traced_quiet h.traced hold (fun c hc => (hn c hc).1) he
  memOk := (h.memOk.grow hclosed hstores hcell hview).setCall (fun c pos hc hpos => by
    rw [hold c hc] at hpos
    cases hpos) hslot
  first i := (h.first i).mono le_rfl le_rfl fun msg hmem => by rwa [hstores]
  toldPush u pos hmem := by
    have hold := (mem_told_record hmem).resolve_left fun ⟨_, heq⟩ => by cases he _ heq
    exact (h.toldPush u pos hold).mono (hview u _) le_rfl fun msg hmem => by rwa [hstores]
  toldPop u pos val hmem := by
    have hold := (mem_told_record hmem).resolve_left fun ⟨_, heq⟩ => by cases he _ heq
    exact (h.toldPop u pos val hold).mono (hview u _) le_rfl fun msg hmem => by rwa [hstores]

/-- **A step of a thread that has a slot**, as it is with the queue as it is. -/
theorem held (h : Holds s q) (hpow : 1 ≤ pow) {c : Call T} (hc : s.call t = some c)
    {q' : Mpmc.Inner T pow} {r : Call T ⊕ Outcome T} (hstep : Mpmc.ExecStep w q c q' r)
    {m' : Inner τ T pow} (hmem : MemOk m' q' (Function.update s.call t (r.elim some fun _ => none)))
    (hstores : ∀ i, ∀ msg ∈ s.inner.stores (.seq i), msg ∈ m'.stores (.seq i))
    (hview : ∀ u, s.inner.view u ≤ m'.view u)
    (hpush : ∀ pos, Event.of c r = some (.returnedPush pos) →
      m'.Seen (m'.view t) (.seq (mask pos)) (pos + 1))
    (hpop : ∀ pos val, Event.of c r = some (.returnedPop pos val) →
      m'.Seen (m'.view t) (.seq (mask pos)) (pos + 2 ^ pow)) :
    Holds (s.advance t c m' r) q' where
  inv := h.inv.advance hpow hc hstep
  traced := h.traced.advance hc hstep
  memOk := hmem
  first i := (h.first i).mono le_rfl le_rfl (hstores i)
  toldPush u pos hmem := by
    rcases mem_told_record hmem with ⟨rfl, heq⟩ | hold
    · exact hpush pos heq
    · exact (h.toldPush u pos hold).mono (hview u _) le_rfl (hstores _)
  toldPop u pos val hmem := by
    rcases mem_told_record hmem with ⟨rfl, heq⟩ | hold
    · exact hpop pos val heq
    · exact (h.toldPop u pos val hold).mono (hview u _) le_rfl (hstores _)

omit [DecidableEq τ] in
/-- The slots of the other threads, and of the positions nobody holds, are not
that of a held position. -/
theorem mask_ne (h : Holds s q) (hpow : 1 ≤ pow) {c : Call T} (hc : s.call t = some c) {pos : ℕ}
    (hpos : c.holds (2 ^ pow) = some pos) :
    (∀ u c' pos', u ≠ t → s.call u = some c' → slotOf q c' = some pos' →
        (mask pos' : Fin (2 ^ pow)) ≠ mask pos)
      ∧ ∀ pos', q.head ≤ pos' → pos' < q.head + 2 ^ pow → pos' ≠ pos →
        (mask pos' : Fin (2 ^ pow)) ≠ mask pos := by
  have hwin := (window_of_slotOf h.inv hpow hc (slotOf_of_holds hpos)).1
  refine ⟨fun u c' pos' hut hc' hpos' => ?_, fun pos' hle hlt hne =>
    Ring.mask_ne_of_window ⟨hle, hlt⟩ hwin hne⟩
  obtain ⟨hwin', hholder⟩ := window_of_slotOf h.inv hpow hc' hpos'
  refine Ring.mask_ne_of_window hwin' hwin ?_
  rintro rfl
  exact hut (hholder t ⟨c, hc, hpos⟩).symm

/-- **A step that only looks**, after which a thread that holds nothing goes on
without holding anything. -/
theorem looked (h : Holds s q) {c : Call T} (hc : s.call t = some c)
    (hnone : c.holds (2 ^ pow) = none) {m' : Inner τ T pow} (hclosed : m'.Closed)
    (hstores : m'.stores = s.inner.stores) (hcell : m'.cell = s.inner.cell)
    (hview : ∀ u, s.inner.view u ≤ m'.view u) {r : Call T ⊕ Outcome T}
    (hr : ∀ c', r = .inl c' → c'.holds (2 ^ pow) = none ∧ CallOk q s.history c')
    (hslot : ∀ c' pos, r = .inl c' → slotOf q c' = some pos →
      m'.Has (m'.view t) (.seq (mask pos)) (mask pos) (q.slot pos).seq)
    (he : ∀ e, Event.of c r = some e → silent e = true) : Holds (s.advance t c m' r) q := by
  have hinl : ∀ c', r.elim some (fun _ => none) = some c' → r = .inl c' := fun c' hc' => by
    cases r with
    | inl c => exact congrArg _ (Option.some.inj hc')
    | inr o => cases hc'
  refine h.quiet (fun c' hc' => ?_) hclosed hstores hcell hview
    (fun c' hc' => hr c' (hinl c' hc')) (fun c' pos hc' => hslot c' pos (hinl c' hc')) he
  obtain rfl := Option.some.inj (hc.symm.trans hc')
  exact hnone

/-- **A load**, after which the call goes on. -/
theorem loaded (h : Holds s q) {c c' : Call T} (hc : s.call t = some c)
    (hnone : c.holds (2 ^ pow) = none) {m' : Inner τ T pow} {l : Loc pow} {order : MemOrder}
    {stamp val : ℕ} (hload : s.inner.load t l order stamp = some (m', val))
    (hnone' : c'.holds (2 ^ pow) = none) (hok : CallOk q s.history c')
    (hslot : ∀ pos, slotOf q c' = some pos →
      m'.Has (m'.view t) (.seq (mask pos)) (mask pos) (q.slot pos).seq)
    (he : Event.of c (.inl c') = none) : Holds (s.advance t c m' (.inl c')) q := by
  obtain ⟨hstores, hcell, hview⟩ := Mem.load_frame hload
  refine h.looked hc hnone (h.memOk.closed.load hload) hstores hcell hview (fun d hd => ?_)
    (fun d pos hd hpos => ?_) fun e he' => ?_
  · obtain rfl := Sum.inl.inj hd
    exact ⟨hnone', hok⟩
  · obtain rfl := Sum.inl.inj hd
    exact hslot pos hpos
  · cases he.symm.trans he'

/-- **A load**, after which the call gives up. -/
theorem gaveUp (h : Holds s q) {c : Call T} (hc : s.call t = some c)
    (hnone : c.holds (2 ^ pow) = none) {m' : Inner τ T pow} {l : Loc pow} {order : MemOrder}
    {stamp val : ℕ} (hload : s.inner.load t l order stamp = some (m', val)) {o : Outcome T}
    {e : Event T} (he : Event.of c (.inr o) = some e) (hsilent : silent e = true) :
    Holds (s.advance t c m' (.inr o)) q := by
  obtain ⟨hstores, hcell, hview⟩ := Mem.load_frame hload
  refine h.looked hc hnone (h.memOk.closed.load hload) hstores hcell hview (fun d hd => ?_)
    (fun d pos hd => ?_) fun e' he' => ?_
  · cases hd
  · cases hd
  · obtain rfl := Option.some.inj (he.symm.trans he')
    exact hsilent

/-- **An exchange that fails**, after which the call goes on with the value it
found. -/
theorem failed (h : Holds s q) {c c' : Call T} (hc : s.call t = some c)
    (hnone : c.holds (2 ^ pow) = none) {m' : Inner τ T pow} {l : Loc pow}
    {current new stamp found : ℕ} {spurious : Bool}
    (hcas : s.inner.exchange t l current new stamp spurious = some (m', .error found))
    (hnone' : c'.holds (2 ^ pow) = none) (hok : CallOk q s.history c')
    (hslot : slotOf q c' = none) (he : Event.of c (.inl c') = none) :
    Holds (s.advance t c m' (.inl c')) q := by
  obtain ⟨hcell, -, hview, hstores⟩ := Mem.exchange_frame hcas
  refine h.looked hc hnone (h.memOk.closed.exchange hcas) (hstores _ rfl) hcell hview
    (fun d hd => ?_) (fun d pos hd hpos => ?_) fun e he' => ?_
  · obtain rfl := Sum.inl.inj hd
    exact ⟨hnone', hok⟩
  · obtain rfl := Sum.inl.inj hd
    cases hslot.symm.trans hpos
  · cases he.symm.trans he'

/-- **A producer that finds the tail free** has its slot. -/
theorem readyPush (h : Holds s q) (hpow : 1 ≤ pow) {m' : Inner τ T pow} {stamp : ℕ}
    (hload : s.inner.load t (.seq (mask q.tail)) .acquire stamp = some (m', q.tail)) :
    (q.slot q.tail).seq = q.tail
      ∧ m'.Has (m'.view t) (.seq (mask q.tail)) (mask q.tail) (q.slot q.tail).seq := by
  have hle : (q.slot q.tail).seq ≤ q.tail := seq_tail_le h.inv
  have hseq : (q.slot q.tail).seq = q.tail :=
    Nat.le_antisymm hle ((h.memOk.seq (mask q.tail)).load_bounds hload).1
  obtain ⟨hlt, -, hnot⟩ := h.inv.tail_free hpow hseq
  have hhands := h.memOk.free q.tail h.inv.head_le hlt fun u c hc hpos => hnot u ⟨c, hc, hpos⟩
  rw [hseq] at hhands ⊢
  exact ⟨rfl, hhands.acquire hload⟩

/-- **A consumer that finds the head published** has its slot. -/
theorem readyPop (h : Holds s q) {m' : Inner τ T pow} {stamp : ℕ}
    (hload : s.inner.load t (.seq (mask q.head)) .acquire stamp = some (m', q.head + 1)) :
    (q.slot q.head).seq = q.head + 1
      ∧ m'.Has (m'.view t) (.seq (mask q.head)) (mask q.head) (q.slot q.head).seq := by
  have hlen := Nat.two_pow_pos pow
  have hle : (q.slot q.head).seq ≤ q.head + 1 := seq_head_le h.inv
  have hseq : (q.slot q.head).seq = q.head + 1 :=
    Nat.le_antisymm hle ((h.memOk.seq (mask q.head)).load_bounds hload).1
  have hhands := h.memOk.free q.head le_rfl (by omega) fun u c hc hpos =>
    not_holds_head h.inv hseq u ⟨c, hc, hpos⟩
  rw [hseq] at hhands ⊢
  exact ⟨rfl, hhands.acquire hload⟩

/-- **A step of a call keeps the invariant.** -/
theorem step (h : Holds s q) (hpow : 1 ≤ pow) {c : Call T} (hc : s.call t = some c)
    {m' : Inner τ T pow} {r : Call T ⊕ Outcome T} (hstep : ExecStep w s.inner t c m' r) :
    ∃ q', Holds (s.advance t c m' r) q' := by
  have hok : CallOk q s.history c := h.inv.callOk t c hc
  have hclosed := h.memOk.closed
  cases hstep with
  | pushLoadTail val tail stamp _ hload =>
    exact ⟨q, h.loaded hc rfl hload rfl (h.memOk.tail.load_le hload) nofun rfl⟩
  | pushReady val idx stamp _ hload =>
    -- an old index is no harm: the exchange will fail on it
    refine ⟨q, h.loaded hc rfl hload rfl ⟨hok, ?_⟩ (fun pos hpos => ?_) rfl⟩
    · rintro rfl
      exact (h.readyPush hpow hload).1
    · simp only [slotOf] at hpos
      split_ifs at hpos with heq
      obtain rfl := Option.some.inj hpos
      subst heq
      exact (h.readyPush hpow hload).2
  | pushFull val idx seq stamp _ hload hlt => exact ⟨q, h.gaveUp hc rfl hload rfl rfl⟩
  | pushStale val idx seq stamp _ hload hlt =>
    -- nothing is known of the tail, so that it is loaded again
    exact ⟨q, h.loaded hc rfl hload rfl trivial nofun rfl⟩
  | pushCasFail val idx newIdx stamp spurious _ hcas =>
    exact ⟨q, h.failed hc rfl hcas rfl (h.memOk.tail.exchange_le hcas) rfl rfl⟩
  -- the exchange acted on the latest store, and the claim takes what is known of the slot
  | pushClaim val idx stamp found spurious _ hcas =>
    obtain ⟨rfl, hmem⟩ := h.memOk.claimTail hc
      (fun u val idx hc' => (h.inv.callOk u _ hc').1) hcas
    obtain ⟨hcell, hstores, hview, -⟩ := Mem.exchange_frame hcas
    refine ⟨_, h.held (w := w) hpow hc (.pushClaim val) hmem (fun i msg hmem => ?_) hview
      (fun pos he => by cases he) fun pos val' he => by cases he⟩
    rwa [hstores (.seq i) nofun]
  -- an access by the holder, which keeps the slot
  | pushWrite val idx _ hwrite =>
    obtain ⟨hstores, hcell, hval, hview⟩ := Mem.write_frame hwrite
    obtain ⟨hothers, hfree⟩ := h.mask_ne hpow hc rfl
    refine ⟨_, h.held (w := w) hpow hc (.pushWrite val idx) (h.memOk.access (hclosed.write hwrite)
      hstores hcell hval rfl hview ((h.memOk.has t _ idx hc rfl).write hwrite) hc rfl rfl hothers
      hfree)
      (fun i msg hmem => by rwa [hstores]) hview (fun pos he => by cases he)
      fun pos val' he => by cases he⟩
  -- the number it stores is greater than all before, and carries what the thread knows
  | pushStoreSeq idx stamp _ hstore =>
    obtain ⟨-, -, val, hslot, -⟩ := hok
    have hlt : (q.slot idx).seq < idx + 1 := by
      rw [hslot]
      exact Nat.lt_succ_self idx
    obtain ⟨hothers, hfree⟩ := h.mask_ne hpow hc rfl
    have hmem := h.memOk.publish hc rfl hlt hstore hothers hfree
    obtain ⟨-, hseen⟩ := (h.memOk.seq (mask idx)).store (h.memOk.has t _ idx hc rfl).seen hlt hstore
    refine ⟨_, h.held (w := w) hpow hc (.pushStoreSeq idx) hmem (fun i msg hmem => ?_)
      (Mem.store_frame hstore).2.2 (fun pos he => ?_) fun pos val' he => by cases he⟩
    · exact Mem.mem_stores_of_store hstore hmem
    · obtain rfl := Event.returnedPush.inj (Option.some.inj he)
      exact hseen
  -- a pop goes the same way
  | popLoadHead head stamp _ hload =>
    exact ⟨q, h.loaded hc rfl hload rfl (h.memOk.head.load_le hload) nofun rfl⟩
  | popReady idx stamp _ hload =>
    refine ⟨q, h.loaded hc rfl hload rfl ⟨hok, ?_⟩ (fun pos hpos => ?_) rfl⟩
    · rintro rfl
      exact (h.readyPop hload).1
    · simp only [slotOf] at hpos
      split_ifs at hpos with heq
      obtain rfl := Option.some.inj hpos
      subst heq
      exact (h.readyPop hload).2
  | popEmpty idx seq stamp _ hload hlt => exact ⟨q, h.gaveUp hc rfl hload rfl rfl⟩
  | popStale idx seq stamp _ hload hlt =>
    exact ⟨q, h.loaded hc rfl hload rfl trivial nofun rfl⟩
  | popClaim idx stamp found spurious _ hcas =>
    obtain ⟨rfl, hmem⟩ := h.memOk.claimHead hc (fun u idx hc' => (h.inv.callOk u _ hc').1) hcas
    obtain ⟨hcell, hstores, hview, -⟩ := Mem.exchange_frame hcas
    refine ⟨_, h.held (w := w) hpow hc .popClaim hmem (fun i msg hmem => ?_) hview
      (fun pos he => by cases he) fun pos val' he => by cases he⟩
    rwa [hstores (.seq i) nofun]
  | popCasFail idx newIdx stamp spurious _ hcas =>
    exact ⟨q, h.failed hc rfl hcas rfl (h.memOk.head.exchange_le hcas) rfl rfl⟩
  | popRead idx data _ htake =>
    -- a consumer holds the next position of the slot it reads
    obtain ⟨hstores, hcell, hval, hview⟩ := Mem.take_frame htake
    obtain ⟨-, hdata, -⟩ := Mem.take_cases htake
    rw [h.memOk.data] at hdata
    obtain ⟨hothers, hfree⟩ := h.mask_ne hpow hc rfl
    have hhas := h.memOk.has t _ (idx + 2 ^ pow) hc rfl
    have hmem : MemOk m' (q.setSlot (idx + 2 ^ pow) { q.slot idx with data := none })
        (Function.update s.call t (some (popStoreSeq idx data))) :=
      h.memOk.access (hclosed.take htake) hstores (by rw [mask_add_len]; exact hcell)
        (by rw [mask_add_len]; exact hval) (by rw [slot_add_len]) hview
        (by rw [mask_add_len] at hhas ⊢; exact hhas.take htake) hc rfl rfl hothers hfree
    rw [setSlot_add_len] at hmem
    exact ⟨_, h.held (w := w) hpow hc (.popRead idx data hdata) hmem
      (fun i msg hmem => by rwa [hstores]) hview (fun pos he => by cases he)
      fun pos val' he => by cases he⟩
  | popStoreSeq idx stamp data _ hstore =>
    have hlen : 2 ≤ 2 ^ pow := Nat.le_self_pow (by omega) 2
    obtain ⟨-, -, ⟨hslot, -⟩, -⟩ := hok
    have hlt : (q.slot (idx + 2 ^ pow)).seq < idx + 2 ^ pow := by
      rw [slot_add_len, hslot]
      dsimp only
      omega
    obtain ⟨hothers, hfree⟩ := h.mask_ne hpow hc rfl
    have hstore' := hstore
    rw [← mask_add_len] at hstore'
    have hmem := h.memOk.publish hc rfl hlt hstore' hothers hfree
    rw [setSlot_add_len, slot_add_len] at hmem
    obtain ⟨-, hseen⟩ := (h.memOk.seq _).store (h.memOk.has t _ _ hc rfl).seen hlt hstore'
    refine ⟨_, h.held (w := w) hpow hc (.popStoreSeq idx data) hmem (fun i msg hmem => ?_)
      (Mem.store_frame hstore).2.2 (fun pos he => by cases he) fun pos val' he => ?_⟩
    · exact Mem.mem_stores_of_store hstore hmem
    · obtain ⟨rfl, -⟩ := Event.returnedPop.inj (Option.some.inj he)
      rw [mask_add_len] at hseen
      exact hseen

/-- **A thread learns** what another one has done. -/
theorem join (h : Holds s q) (t u : τ) : Holds (s.join t u) q where
  inv := h.inv
  traced := h.traced
  memOk := h.memOk.grow (h.memOk.closed.see (h.memOk.closed.view u)) rfl rfl
    fun t' => s.inner.le_view_see t t' _
  first := h.first
  toldPush t' pos hmem := by
    obtain ⟨u', hview, hold⟩ := mem_told_join hmem
    exact (h.toldPush u' pos hold).mono (hview _) le_rfl fun msg hmem => hmem
  toldPop t' pos val hmem := by
    obtain ⟨u', hview, hold⟩ := mem_told_join hmem
    exact (h.toldPop u' pos val hold).mono (hview _) le_rfl fun msg hmem => hmem

end Holds

theorem holds_init : Holds (system τ T w).init (.empty pow) where
  inv := Mpmc.inv_init (w := w)
  traced := by constructor <;> simp [State.current, system, State.Writing, State.Reading]
  memOk := memOk_start
  first i := Mem.seen_start _ _
  toldPush t pos hmem := by cases hmem
  toldPop t pos val hmem := by cases hmem

/-- **Every reachable state has the invariant**, from two slots on. -/
theorem holds_of_reachable (hpow : 1 ≤ pow) {s : State τ T pow}
    (hs : (system τ T w).Reachable s) : ∃ q, Holds s q := by
  refine System.ReachableWhile.invariant (I := fun s => ∃ q, Holds s q) hs ⟨_, holds_init⟩ ?_
  rintro s a s' _ ⟨q, h⟩ _ hnext
  rcases system_next_cases hnext with
    ⟨t, op, hnone, rfl⟩ | ⟨t, c, m', r, hc, hstep, rfl⟩ | ⟨t, u, rfl⟩
  · refine ⟨q, h.quiet (fun c hc => ?_) h.memOk.closed rfl rfl (fun _ => le_rfl)
      (fun c hc => ?_) (fun c pos hc hpos => ?_) fun e he => Option.some.inj he ▸ rfl⟩
    · cases hnone.symm.trans hc
    · obtain rfl := Option.some.inj hc
      cases op <;> exact ⟨rfl, trivial⟩
    · obtain rfl := Option.some.inj hc
      cases op <;> cases hpos
  · exact h.step hpow hc hstep
  · exact ⟨q, h.join t u⟩

/-! ## Soundness

What the invariant says of the step that a thread is about to take: that its access comes after
all others to the slot, that the data it takes out is there, and what a call that gives up can
have been told. -/

/-- **A call that is left behind**: the number it reads from this store is half
the range of a word ahead of the one it looks for, or more. -/
def Lags (w : Width pow) (m : Inner τ T pow) (t : τ) (stamp : ℕ) : Call T → Prop
  | pushLoadSeq _ idx => ∃ m' seq, m.load t (.seq (mask idx)) .acquire stamp = some (m', seq)
      ∧ idx + w.half ≤ seq ∧ seq < idx + 2 * w.half
  | popLoadSeq idx => ∃ m' seq, m.load t (.seq (mask idx)) .acquire stamp = some (m', seq)
      ∧ idx + 1 + w.half ≤ seq ∧ seq < idx + 1 + 2 * w.half
  | _ => False

/-- **What holds at any time**, with `q` as the queue is. -/
structure Sound (w : Width pow) (s : State τ T pow) (q : Mpmc.Inner T pow) : Prop where
  /-- **No call is stuck**: no access races, and no slot without a value is
  read. -/
  defined : ∀ t c, s.call t = some c →
    ∃ stamp spurious r, exec w s.inner t stamp spurious c = some r
  /-- The slots have the values that the memory has. -/
  data : ∀ i, (s.inner.cell i).val = (q.buf i).data
  /-- Slots are written and read by one thread at a time, and every value is
  delivered once. -/
  safe : Safe (s.current q)
  /-- **A push that does not lag gives its value back** only where a lap before a
  pop has not returned yet, as far as its thread was told. -/
  full : ∀ t c stamp spurious m val, s.call t = some c → ¬ Lags w s.inner t stamp c →
    exec w s.inner t stamp spurious c = some (m, .inr (.full val)) →
      ∃ pos, c = pushLoadSeq val (pos + 2 ^ pow) ∧ pos + 2 ^ pow ≤ q.tail
        ∧ ∀ val', .returnedPop pos val' ∉ s.told t
  /-- **A pop that does not lag gives up** only where a push has not returned yet,
  as far as its thread was told. -/
  empty : ∀ t c stamp spurious m, s.call t = some c → ¬ Lags w s.inner t stamp c →
    exec w s.inner t stamp spurious c = some (m, .inr .empty) →
      ∃ pos, c = popLoadSeq pos ∧ pos ≤ q.head ∧ .returnedPush pos ∉ s.told t

namespace Holds

variable {s : State τ T pow} {q : Mpmc.Inner T pow} (h : Holds s q)

include h

/-- **No call is stuck.** -/
theorem defined {t : τ} {c : Call T} (hc : s.call t = some c) :
    ∃ stamp spurious r, exec w s.inner t stamp spurious c = some r := by
  have hclosed := h.memOk.closed
  have hok : CallOk q s.history c := h.inv.callOk t c hc
  cases c with
  | pushLoadTail val =>
    obtain ⟨stamp, r, hload⟩ := hclosed.exists_load t .tail .relaxed
    exact ⟨stamp, false, by simp [exec, hload]⟩
  | pushLoadSeq val idx =>
    obtain ⟨stamp, r, hload⟩ := hclosed.exists_load t (.seq (mask idx)) .acquire
    exact ⟨stamp, false, by simp [exec, hload]⟩
  | pushCas val idx =>
    obtain ⟨stamp, spurious, r, hcas⟩ := hclosed.exists_exchange t .tail idx (idx + 1)
    exact ⟨stamp, spurious, by simp [exec, hcas]⟩
  | pushWrite val idx =>
    have hknown := (h.memOk.has t _ idx hc rfl).known
    obtain ⟨m', hwrite⟩ := Mem.exists_write hknown.1 hknown.2 val
    exact ⟨0, false, by simp [exec, hwrite]⟩
  | pushStoreSeq idx =>
    obtain ⟨stamp, m', hstore⟩ := hclosed.exists_store t (.seq (mask idx)) (idx + 1) .release
    exact ⟨stamp, false, by simp [exec, hstore]⟩
  | popLoadHead =>
    obtain ⟨stamp, r, hload⟩ := hclosed.exists_load t .head .relaxed
    exact ⟨stamp, false, by simp [exec, hload]⟩
  | popLoadSeq idx =>
    obtain ⟨stamp, r, hload⟩ := hclosed.exists_load t (.seq (mask idx)) .acquire
    exact ⟨stamp, false, by simp [exec, hload]⟩
  | popCas idx =>
    obtain ⟨stamp, spurious, r, hcas⟩ := hclosed.exists_exchange t .head idx (idx + 1)
    exact ⟨stamp, spurious, by simp [exec, hcas]⟩
  | popRead idx =>
    obtain ⟨-, -, ⟨val, hslot, -⟩, -⟩ := hok
    have hknown := (h.memOk.has t _ (idx + 2 ^ pow) hc rfl).known
    rw [mask_add_len] at hknown
    have hval : (s.inner.cell (mask idx)).val = some val :=
      (h.memOk.data _).trans (congrArg Slot.data hslot)
    obtain ⟨m', htake⟩ := Mem.exists_take hknown.1 hval
    exact ⟨0, false, by simp [exec, htake]⟩
  | popStoreSeq idx data =>
    obtain ⟨stamp, m', hstore⟩ := hclosed.exists_store t (.seq (mask idx)) (idx + 2 ^ pow) .release
    exact ⟨stamp, false, by simp [exec, hstore]⟩

/-- **A full queue** is one that a pop known of has not made room in. -/
theorem full {t : τ} {c : Call T} {stamp : ℕ} {spurious : Bool} {m : Inner τ T pow} {val : T}
    (hc : s.call t = some c) (hlag : ¬ Lags w s.inner t stamp c)
    (hexec : exec w s.inner t stamp spurious c = some (m, .inr (.full val))) :
    ∃ pos, c = pushLoadSeq val (pos + 2 ^ pow) ∧ pos + 2 ^ pow ≤ q.tail
      ∧ ∀ val', .returnedPop pos val' ∉ s.told t := by
  obtain ⟨idx, seq, rfl, hload, hdiff⟩ := load_of_full hexec
  have hok : idx ≤ q.tail := h.inv.callOk t _ hc
  have hlt : seq < idx :=
    (w.diff_neg_cases hdiff).resolve_right fun hfar => hlag ⟨_, seq, hload, hfar⟩
  obtain ⟨-, hge⟩ := (h.memOk.seq _).load_bounds hload
  have hlap : 2 ^ pow ≤ idx := by
    by_contra hshort
    have hfirst := hge _ ((h.first (mask idx)).mono bot_le le_rfl fun _ hmem => hmem)
    have hmask : (mask idx : Fin (2 ^ pow)).val = idx :=
      congrArg Fin.val (Ring.mask_of_lt (Nat.lt_of_not_le hshort))
    omega
  obtain ⟨pos, rfl⟩ := Nat.exists_eq_add_of_le' hlap
  refine ⟨pos, rfl, hok, fun val' htold => ?_⟩
  have hseen := h.toldPop t pos val' htold
  rw [mask_add_len] at hge
  have := hge _ hseen
  omega

/-- **An empty queue** is one that a push known of has not stored in. -/
theorem empty {t : τ} {c : Call T} {stamp : ℕ} {spurious : Bool} {m : Inner τ T pow}
    (hc : s.call t = some c) (hlag : ¬ Lags w s.inner t stamp c)
    (hexec : exec w s.inner t stamp spurious c = some (m, .inr .empty)) :
    ∃ pos, c = popLoadSeq pos ∧ pos ≤ q.head ∧ .returnedPush pos ∉ s.told t := by
  obtain ⟨idx, seq, rfl, hload, hdiff⟩ := load_of_empty hexec
  have hlt : seq < idx + 1 :=
    (w.diff_neg_cases hdiff).resolve_right fun hfar => hlag ⟨_, seq, hload, hfar⟩
  obtain ⟨-, hge⟩ := (h.memOk.seq _).load_bounds hload
  refine ⟨idx, rfl, h.inv.callOk t _ hc, fun htold => ?_⟩
  have := hge _ (h.toldPush t idx htold)
  omega

/-- **What the invariant means.** -/
theorem sound : Sound w s q where
  defined _ _ := h.defined
  data := h.memOk.data
  safe := h.inv.safe h.traced
  full _ _ _ _ _ _ := h.full
  empty _ _ _ _ _ := h.empty

end Holds

/-- **The orderings suffice**: from two slots on, with any threads making calls
and taking their steps in any order, whatever stores their loads and exchanges
read, `Sound` holds at any time. -/
theorem orderings_of_reachable (hpow : 1 ≤ pow) {s : State τ T pow}
    (hs : (system τ T w).Reachable s) : ∃ q, Sound w s q := by
  obtain ⟨q, h⟩ := holds_of_reachable hpow hs
  exact ⟨q, h.sound⟩

/-- Two slots and two threads: a pop that reads the old number and finds
nothing, one that reads the new one, a push that reads the old number and finds
no room, and one of a thread that was told of the pop. -/
def stale : List (Action Bool ℕ) :=
  [.call false (.push 7), .step false 0 false, .step false 0 false, .step false 0 false,
    .step false 0 false, .step false 1 false,
    .call true .pop, .step true 0 false, .step true 0 false,
    .call true .pop, .step true 0 false, .step true 1 false, .step true 0 false,
    .step true 0 false, .step true 2 false,
    .call false (.push 8), .step false 1 false, .step false 0 false, .step false 1 false,
    .step false 0 false, .step false 1 false,
    .call false (.push 9), .step false 2 false, .step false 1 false, .join false true,
    .call false (.push 9), .step false 2 false, .step false 2 false, .step false 2 false,
    .step false 0 false, .step false 3 false]

theorem orderings_of_reachable_stale :
    ∃ s q, (system Bool ℕ .twoSlots).run (system Bool ℕ .twoSlots).init stale = some s
      ∧ s.history =
        [(false, .returnedPush 2), (false, .claimedPush 2 9), (false, .called (.push 9)),
          (false, .returnedFull 9), (false, .called (.push 9)),
          (false, .returnedPush 1), (false, .claimedPush 1 8), (false, .called (.push 8)),
          (true, .returnedPop 0 7), (true, .claimedPop 0), (true, .called .pop),
          (true, .returnedEmpty), (true, .called .pop),
          (false, .returnedPush 0), (false, .claimedPush 0 7), (false, .called (.push 7))]
      ∧ Sound .twoSlots s q := by
  have hrun : ((system Bool ℕ .twoSlots).run (system Bool ℕ .twoSlots).init stale).map
      State.history = some [(false, .returnedPush 2), (false, .claimedPush 2 9),
        (false, .called (.push 9)), (false, .returnedFull 9), (false, .called (.push 9)),
        (false, .returnedPush 1), (false, .claimedPush 1 8), (false, .called (.push 8)),
        (true, .returnedPop 0 7), (true, .claimedPop 0), (true, .called .pop),
        (true, .returnedEmpty), (true, .called .pop),
        (false, .returnedPush 0), (false, .claimedPush 0 7), (false, .called (.push 7))] := by
    decide +kernel
  obtain ⟨s, hs, hhistory⟩ := Option.map_eq_some_iff.mp hrun
  obtain ⟨q, hsound⟩ := orderings_of_reachable (by decide) (System.Reachable.of_run hs)
  exact ⟨s, q, hs, hhistory, hsound⟩

end Mpmc.Weak
