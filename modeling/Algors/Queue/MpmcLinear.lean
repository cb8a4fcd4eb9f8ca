import Algors.Lib.Atomic
import Algors.Queue.MpmcProgress

/-!
# The queue as an atomic object

Seen by its callers alone, through calls and returns, the queue is a bounded
FIFO whose operations take effect at one moment each: a push when it claims
its position, a pop likewise, and a call that gives up when it reads the
sequence number that makes it. The elements stored are the values pushed at
the positions from the head to the tail, whether they have been written yet or
not.

The one liberty a caller sees is that a call may give up although the FIFO is
not full, or not empty. `looseQueue` says when: a push may, while another
thread is in a pop that has taken its element and not returned, and a pop may,
while another thread is in a push that has added its element and not
returned.

That is so at the step that gives up, but for a call that lags: it gives up
however the queue stands by then. To be left so far behind, though, it must
have missed an operation of the other side on its slot, and giving up was
right when that one claimed its position. The object beside the queue
remembers it.
-/

namespace Mpmc

variable {T τ : Type} {pow : ℕ} {w : Width pow}

open Call
open Fifo (Op Outcome Side)
open Atomic (Phase)
open Relation (ReflTransGen)

/-! ## The bounded queue whose operations may give up -/

/-- **What an operation may do**: what it does on the bounded queue, or give up
for the sake of one of the other side that is done and has not returned. -/
def looseQueue (cap : ℕ) : Atomic.Spec τ (List T) (Op T) (Outcome T) :=
  fun phase t stored op stored' o =>
    Fifo.apply cap stored op = (stored', o)
      ∨ stored' = stored ∧ o.retry = some op
        ∧ ∃ t' op' o', t' ≠ t ∧ phase t' = .performed op' o' ∧ o'.side = op.side.other
          ∧ o'.retry = none

/-- An operation that is done is so for all that come after. -/
theorem lasting_looseQueue (cap : ℕ) :
    Atomic.Lasting (looseQueue cap : Atomic.Spec τ (List T) (Op T) (Outcome T)) := by
  intro phase phase' t stored op stored' o hmore hspec
  rcases hspec with happly | ⟨hsame, hretry, t', op', o', hne, hdone, hside, hnone⟩
  · exact Or.inl happly
  · refine Or.inr ⟨hsame, hretry, t', op', o', hne, ?_, hside, hnone⟩
    rcases hmore t' with heq | ⟨op'', r, hinvoked, -⟩
    · rw [heq, hdone]
    · cases hdone.symm.trans hinvoked

/-- The operations that did not give up, the first one first. -/
def completed (log : List (τ × Op T × Outcome T)) : List (Op T × Outcome T) :=
  ((log.map Prod.snd).filter fun p => p.2.retry.isNone).reverse

/-- **They are a run of the bounded queue.** -/
theorem serial_completed [DecidableEq τ] {cap : ℕ} {a : Atomic.State τ (List T) (Op T) (Outcome T)}
    (h : Atomic.Reaches (looseQueue cap) [] a) : Fifo.Serial cap (completed a.log) a.obj := by
  induction h with
  | refl => exact Fifo.Serial.nil cap
  | tail hreach hstep ih =>
    cases hstep with
    | call t op hphase => exact ih
    | ret t op o hphase => exact ih
    | perform t op stored o hphase hspec =>
      rcases hspec with happly | ⟨rfl, hretry, -⟩
      · cases hretry : o.retry with
        | none =>
          simp only [completed, List.map_cons, List.filter_cons, hretry, Option.isNone_none,
            if_true, List.reverse_cons]
          exact ih.snoc happly
        | some op' =>
          -- it gave up on a full queue, or on an empty one, and changed nothing
          have hsame : stored = _ := Fifo.eq_of_retry happly hretry
          simpa [completed, List.filter_cons, hretry, hsame] using ih
      · simpa [completed, List.filter_cons, hretry] using ih

/-! ## The simulation -/

/-- What a caller sees of an event. -/
def Event.visible : Event T → Option (Op T ⊕ Outcome T)
  | .called op => some (.inl op)
  | .returnedPush _ => some (.inr .pushed)
  | .returnedFull val => some (.inr (.full val))
  | .returnedPop _ val => some (.inr (.popped val))
  | .returnedEmpty => some (.inr .empty)
  | .claimedPush _ _ | .claimedPop _ => none

/-- **What the callers see** of a history. -/
def visible (h : List (τ × Event T)) : List (τ × (Op T ⊕ Outcome T)) :=
  h.filterMap fun e => e.2.visible.map (e.1, ·)

/-- **Where a thread is**, as its caller could tell if it saw the claims. -/
inductive InPhase (h : List (τ × Event T)) : Option (Call T) → Phase (Op T) (Outcome T) → Prop
  | idle : InPhase h none .idle
  | invoked (c : Call T) (op : Op T) (hop : c.op = some op) (hclaimed : c.claimed = false) :
      InPhase h (some c) (.invoked op)
  | pushWrite (val : T) (idx : ℕ) :
      InPhase h (some (pushWrite val idx)) (.performed (.push val) .pushed)
  | pushStoreSeq (val : T) (idx : ℕ) :
      InPhase h (some (pushStoreSeq idx)) (.performed (.push val) .pushed)
  | popRead (idx : ℕ) (val : T) (hval : Claimed h idx val) :
      InPhase h (some (popRead idx)) (.performed .pop (.popped val))
  | popStoreSeq (idx : ℕ) (data : T) :
      InPhase h (some (popStoreSeq idx data)) (.performed .pop (.popped data))

theorem InPhase.mono {h h' : List (τ × Event T)} {c : Option (Call T)}
    {p : Phase (Op T) (Outcome T)} (hp : InPhase h c p)
    (hclaimed : ∀ pos val, Claimed h pos val → Claimed h' pos val) : InPhase h' c p := by
  cases hp with
  | idle => exact .idle
  | invoked c op hop hclaim => exact .invoked c op hop hclaim
  | pushWrite val idx => exact .pushWrite val idx
  | pushStoreSeq val idx => exact .pushStoreSeq val idx
  | popRead idx val hval => exact .popRead idx val (hclaimed _ _ hval)
  | popStoreSeq idx data => exact .popStoreSeq idx data

/-- **The other side has gone past the index** since it was loaded: a pop has
taken the position of a push, or a push the one a lap after that of a pop. -/
def Inner.Passed (q : Inner T pow) : Side → ℕ → Prop
  | .producer, idx => idx < q.head
  | .consumer, idx => idx + 2 ^ pow < q.tail

/-- **A call that has been passed** may give up: that was right when it was. -/
def MayGiveUp (q : Inner T pow) (c : Option (Call T)) (right : Outcome T → Prop) : Prop :=
  ∀ c' ∈ c, ∀ k idx op o, c'.index = some (k, idx) → q.Passed k idx → c'.op = some op →
    o.retry = some op → right o

/-- **The queue and the atomic object side by side**: the object stores the
values pushed at the positions from the head to the tail. -/
structure Tracks (s : State τ T pow) (b : Atomic.Late τ (List T) (Op T) (Outcome T)) : Prop where
  history : b.now.history = visible s.history
  tail : s.inner.tail = s.inner.head + b.now.obj.length
  claimed : ∀ i val, b.now.obj[i]? = some val → Claimed s.history (s.inner.head + i) val
  phase : ∀ t, InPhase s.history (s.call t) (b.now.phase t)
  right : ∀ t, MayGiveUp s.inner (s.call t) (b.right t)

/-! ## A call that lags -/

/-- The index just loaded has not been passed. -/
theorem Inv.not_passed_counter {s : State τ T pow} (h : Inv s) (k : Side) :
    ¬ s.inner.Passed k (s.inner.counter k) := by
  cases k with
  | producer => exact h.head_le.not_gt
  | consumer => exact h.tail_le.not_gt

/-- **A call that lags has been passed**: until then the numbers it may find are
a lap ahead of its index at most. -/
theorem Inv.passed_of_lags (hpow : 1 ≤ pow) {s : State τ T pow} (h : Inv s) {t : τ} {c : Call T}
    (hc : s.call t = some c) (hlag : c.Lags w s.inner) :
    ∃ k idx, c.index = some (k, idx) ∧ s.inner.Passed k idx := by
  have hok := h.callOk t c hc
  have htail := h.tail_le
  have hhead := h.head_le
  have hlap := w.two_pow_le_half
  have htwo : 2 ≤ 2 ^ pow := Nat.pow_le_pow_right Nat.two_pos hpow
  cases c with
  | pushLoadSeq val idx =>
    refine ⟨.producer, idx, rfl, Nat.lt_of_not_le fun hge => ?_⟩
    obtain ⟨hfar, -⟩ := hlag
    rcases Nat.lt_or_ge idx (s.inner.head + 2 ^ pow) with hlt | hfull
    · rcases h.seq_cases hge hlt with ⟨-, hseq, -⟩ | ⟨-, hseq⟩ | ⟨-, hseq, -⟩ | ⟨-, hseq⟩ <;> omega
    · -- the queue is full: the slot of the tail is that of the head
      have hle : idx ≤ s.inner.tail := hok
      obtain rfl : idx = s.inner.head + 2 ^ pow := by omega
      rw [slot_add_len] at hfar
      rcases h.seq_cases le_rfl (by omega) with
        ⟨-, hseq, -⟩ | ⟨-, hseq⟩ | ⟨-, hseq, -⟩ | ⟨-, hseq⟩ <;> omega
  | popLoadSeq idx =>
    refine ⟨.consumer, idx, rfl, Nat.lt_of_not_le fun hle => ?_⟩
    obtain ⟨hfar, -⟩ := hlag
    have hidx : idx ≤ s.inner.head := hok
    rcases Nat.lt_or_eq_of_le hidx with hbelow | rfl
    · -- its slot is that of the next lap, which no push has claimed
      rw [← slot_add_len] at hfar
      rcases h.seq_cases (hhead.trans hle) (Nat.add_lt_add_right hbelow _) with
        ⟨-, hseq, -⟩ | ⟨hclaimed, hseq⟩ | ⟨-, hseq, -⟩ | ⟨-, hseq⟩ <;> omega
    · rcases h.seq_cases le_rfl (by omega) with
        ⟨-, hseq, -⟩ | ⟨-, hseq⟩ | ⟨-, hseq, -⟩ | ⟨-, hseq⟩ <;> omega
  | _ => exact hlag.elim

theorem MayGiveUp.none {q : Inner T pow} {right : Outcome T → Prop} : MayGiveUp q none right := by
  rintro c' ⟨⟩

/-- A call with no index in hand is not passed. -/
theorem MayGiveUp.of_index {q : Inner T pow} {c : Call T} {right : Outcome T → Prop}
    (hc : c.index = .none) : MayGiveUp q (some c) right := by
  rintro c' hc' k idx op o hidx
  obtain rfl := Option.some.inj hc'
  cases hc.symm.trans hidx

theorem MayGiveUp.imp {q q' : Inner T pow} {c : Option (Call T)} {right right' : Outcome T → Prop}
    (h : MayGiveUp q c right) (hq : q'.head = q.head) (hq' : q'.tail = q.tail)
    (hright : ∀ o, right o → right' o) : MayGiveUp q' c right' := by
  intro c' hc' k idx op o hidx hpassed hop hretry
  refine hright o (h c' hc' k idx op o hidx ?_ hop hretry)
  cases k with
  | producer => exact hpassed.trans_eq hq
  | consumer => exact hpassed.trans_eq hq'

/-- A call with an index in hand has not claimed its position. -/
theorem Call.claimed_of_index {c : Call T} {k : Side} {idx : ℕ} (h : c.index = some (k, idx)) :
    c.claimed = false := by
  cases c with
  | pushLoadSeq | pushCas | popLoadSeq | popCas => rfl
  | _ => cases h

/-- The index in hand is one of the operation's side. -/
theorem Call.side_of_index {c : Call T} {k : Side} {idx : ℕ} {op : Op T}
    (h : c.index = some (k, idx)) (hop : c.op = some op) : op.side = k := by
  cases c with
  | pushLoadSeq | pushCas | popLoadSeq | popCas =>
    obtain ⟨rfl, -⟩ := Prod.mk.inj (Option.some.inj h)
    obtain rfl := Option.some.inj hop
    rfl
  | _ => cases h

section Tracks

variable [DecidableEq τ] {s : State τ T pow} {t : τ}
  {b : Atomic.Late τ (List T) (Op T) (Outcome T)}

/-- **One thread moves**, and the others keep what they have. -/
theorem Tracks.update (h : Tracks s b) {q : Inner T pow} {n : Option (Call T)}
    {e : Option (Event T)} {b' : Atomic.Late τ (List T) (Op T) (Outcome T)}
    (hhistory : b'.now.history = visible (Inv.eventsOf t e) ++ b.now.history)
    (htail : q.tail = q.head + b'.now.obj.length)
    (hclaimed : ∀ i val, b'.now.obj[i]? = some val →
      Claimed (Inv.eventsOf t e ++ s.history) (q.head + i) val)
    (hothers : ∀ u, u ≠ t → b.Keeps b' u)
    (hright : ∀ u, u ≠ t → MayGiveUp q (s.call u) (b'.right u))
    (hn : InPhase (Inv.eventsOf t e ++ s.history) n (b'.now.phase t))
    (hself : MayGiveUp q n (b'.right t)) :
    Tracks ⟨q, Function.update s.call t n, Inv.eventsOf t e ++ s.history⟩ b' where
  history := by rw [hhistory, h.history, visible, visible, visible, List.filterMap_append]
  tail := htail
  claimed := hclaimed
  phase := (Function.forall_update_iff _ fun u c => InPhase _ c (b'.now.phase u)).mpr
    ⟨hn, fun u hut => by
      rw [(hothers u hut).phase]
      exact (h.phase u).mono fun _ _ hval => hval.append _⟩
  right := (Function.forall_update_iff _ fun u c => MayGiveUp q c (b'.right u)).mpr ⟨hself, hright⟩

/-- **One thread moves**, and the elements stored stay. -/
theorem Tracks.move (h : Tracks s b) {q : Inner T pow} (hq : q.head = s.inner.head)
    (hq' : q.tail = s.inner.tail) {n : Option (Call T)} {e : Option (Event T)}
    {b' : Atomic.Late τ (List T) (Op T) (Outcome T)} (hobj : b'.now.obj = b.now.obj)
    (hhistory : b'.now.history = visible (Inv.eventsOf t e) ++ b.now.history)
    (hothers : ∀ u, u ≠ t → b.Keeps b' u)
    (hn : InPhase (Inv.eventsOf t e ++ s.history) n (b'.now.phase t))
    (hself : MayGiveUp q n (b'.right t)) :
    Tracks ⟨q, Function.update s.call t n, Inv.eventsOf t e ++ s.history⟩ b' := by
  refine h.update hhistory (by rw [hq, hq', hobj, h.tail]) (fun i val hi => ?_) hothers
    (fun u hut => (h.right u).imp hq hq' (hothers u hut).right) hn hself
  rw [hq]
  exact (h.claimed i val (hobj ▸ hi)).append _

/-- A step that the object has no part in. -/
theorem Tracks.quiet (h : Tracks s b) {q : Inner T pow} (hq : q.head = s.inner.head)
    (hq' : q.tail = s.inner.tail) {n : Option (Call T)}
    (hn : InPhase s.history n (b.now.phase t)) (hself : MayGiveUp q n (b.right t)) :
    Tracks ⟨q, Function.update s.call t n, s.history⟩ b :=
  h.move hq hq' (e := none) rfl rfl (fun u _ => .refl b u) hn hself

/-- **A call that returns** what its operation was given, just before the return
or earlier. -/
theorem Tracks.ret (h : Tracks s b) {q : Inner T pow} (hq : q.head = s.inner.head)
    (hq' : q.tail = s.inner.tail) {op : Op T} {o : Outcome T} {e : Event T}
    (hvisible : e.visible = some (.inr o)) {d : Atomic.Late τ (List T) (Op T) (Outcome T)}
    (hobj : d.now.obj = b.now.obj) (hhistory : d.now.history = b.now.history)
    (hothers : ∀ u, u ≠ t → b.Keeps d u) (hdone : d.now.phase t = .performed op o) :
    ∃ b', Atomic.Late.Step (looseQueue (2 ^ pow)) d b'
      ∧ Tracks ⟨q, Function.update s.call t none, (t, e) :: s.history⟩ b' := by
  refine ⟨_, .now _ (.ret t op o hdone), h.move hq hq' (e := some e) hobj ?_ (fun u hut => ?_) ?_
    .none⟩
  · simp [Atomic.Late.after, hhistory, Inv.eventsOf, visible, hvisible]
  · exact (hothers u hut).trans (Atomic.Late.keeps_after (Function.update_of_ne hut ..))
  · simpa [Atomic.Late.after] using InPhase.idle

omit [DecidableEq τ] in
theorem InPhase.of_unclaimed {h : List (τ × Event T)} {c : Call T} {p : Phase (Op T) (Outcome T)}
    (hp : InPhase h (some c) p) (hc : c.claimed = false) :
    ∃ op, p = .invoked op ∧ c.op = some op := by
  cases hp with
  | invoked c op hop hclaimed => exact ⟨op, rfl, hop⟩
  | _ => cases hc

omit [DecidableEq τ] in
/-- A thread whose call has not claimed its position is waiting for its operation. -/
theorem Tracks.invoked (h : Tracks s b) {c : Call T} (hc : s.call t = some c)
    (hclaimed : c.claimed = false) : ∃ op, b.now.phase t = .invoked op ∧ c.op = some op := by
  have hphase := h.phase t
  rw [hc] at hphase
  exact hphase.of_unclaimed hclaimed

omit [DecidableEq τ] in
/-- A thread with a slot to read or to release has taken its element. -/
theorem Tracks.of_reading (h : Tracks s b) {pos : ℕ} (hread : s.Reading t pos) :
    ∃ data, b.now.phase t = .performed .pop (.popped data) := by
  obtain ⟨c, hc, hpos⟩ := hread
  have hphase := h.phase t
  rw [hc] at hphase
  generalize b.now.phase t = p at hphase
  cases hphase with
  | popRead idx val hval => exact ⟨val, rfl⟩
  | popStoreSeq idx data => exact ⟨data, rfl⟩
  | pushWrite | pushStoreSeq => cases hpos
  | invoked c op hop hclaimed =>
    cases c with
    | popRead | popStoreSeq => cases hclaimed
    | _ => cases hpos

omit [DecidableEq τ] in
/-- A thread with a slot to write or to publish has added its element. -/
theorem Tracks.of_writing (h : Tracks s b) {pos : ℕ} (hwrite : s.Writing t pos) :
    ∃ val, b.now.phase t = .performed (.push val) .pushed := by
  obtain ⟨c, hc, hpos⟩ := hwrite
  have hphase := h.phase t
  rw [hc] at hphase
  generalize b.now.phase t = p at hphase
  cases hphase with
  | pushWrite val idx | pushStoreSeq val idx => exact ⟨val, rfl⟩
  | popRead | popStoreSeq => cases hpos
  | invoked c op hop hclaimed =>
    cases c with
    | pushWrite | pushStoreSeq => cases hclaimed
    | _ => cases hpos

/-- **A call that gives up**: it takes effect as it returns, or, where that was
right earlier, has taken effect then. -/
theorem Tracks.giveUp (h : Tracks s b) {c : Call T} {op : Op T} {o : Outcome T} {e : Event T}
    (hc : s.call t = some c) (hop : c.op = some op) (hclaimed : c.claimed = false)
    (he : Event.of c (.inr o) = some e) (hvisible : e.visible = some (.inr o))
    (hspec : looseQueue (2 ^ pow) b.now.phase t b.now.obj op b.now.obj o ∨ b.right t o) :
    ∃ b', ReflTransGen (Atomic.Late.Step (looseQueue (2 ^ pow))) b b'
      ∧ Tracks (s.advance t c s.inner (.inr o)) b' := by
  obtain ⟨op', hinvoked, hop'⟩ := h.invoked hc hclaimed
  obtain rfl := Option.some.inj (hop.symm.trans hop')
  rw [State.advance, he]
  rcases hspec with hspec | hright
  · have hperform := Atomic.Late.Step.now _ (Atomic.Step.perform t op b.now.obj o hinvoked hspec)
    obtain ⟨b', hret, htracks⟩ := h.ret (q := s.inner) rfl rfl hvisible
      (d := b.after (looseQueue (2 ^ pow))
        ⟨b.now.obj, Function.update b.now.phase t (.performed op o), b.now.history,
          (t, op, o) :: b.now.log⟩)
      rfl rfl (fun u hut => Atomic.Late.keeps_after (Function.update_of_ne hut ..))
      (Function.update_self ..)
    exact ⟨b', (ReflTransGen.single hperform).tail hret, htracks⟩
  · have hlate := Atomic.Late.Step.late (D := looseQueue (2 ^ pow)) t op o hinvoked hright
    obtain ⟨b', hret, htracks⟩ := h.ret (q := s.inner) rfl rfl hvisible
      (d := ⟨⟨b.now.obj, Function.update b.now.phase t (.performed op o), b.now.history,
        (t, op, o) :: b.now.log⟩, b.right⟩)
      rfl rfl (fun u hut => ⟨Function.update_of_ne hut .., fun _ hr => hr⟩)
      (Function.update_self ..)
    exact ⟨b', (ReflTransGen.single hlate).tail hret, htracks⟩

omit [DecidableEq τ] in
/-- **A call that lags** has been passed, so that it could have given up. -/
theorem Tracks.right_of_lags (hpow : 1 ≤ pow) (hinv : Inv s) (h : Tracks s b) {c : Call T}
    {op : Op T} {o : Outcome T} (hc : s.call t = some c) (hlag : c.Lags w s.inner)
    (hop : c.op = some op) (hretry : o.retry = some op) : b.right t o := by
  obtain ⟨k, idx, hidx, hpassed⟩ := hinv.passed_of_lags hpow hc hlag
  exact h.right t c hc k idx op o hidx hpassed hop hretry

/-- **A claim lets those of the other side give up** that it passes. -/
theorem Tracks.right_of_claim (h : Tracks s b) {q : Inner T pow} {op : Op T} {o : Outcome T}
    {stored : List T} {l : List (τ × (Op T ⊕ Outcome T))} {l' : List (τ × Op T × Outcome T)}
    (hdone : o.retry = none)
    (hown : ∀ idx, q.Passed o.side idx → s.inner.Passed o.side idx) {u : τ} (hut : u ≠ t) :
    MayGiveUp q (s.call u) ((b.after (looseQueue (2 ^ pow))
      ⟨stored, Function.update b.now.phase t (.performed op o), l, l'⟩).right u) := by
  intro c hc k idx op' o' hidx hpassed hop hretry
  rcases Side.eq_or_eq_other k o.side with rfl | hother
  · exact Or.inl ⟨h.right u c hc _ idx op' o' hidx (hown idx hpassed) hop hretry,
      Function.update_of_ne hut ..⟩
  · obtain ⟨op'', hinvoked, hop''⟩ := h.invoked hc (Call.claimed_of_index hidx)
    obtain rfl := Option.some.inj (hop.symm.trans hop'')
    refine Or.inr ⟨op', by simpa [hut] using hinvoked, Or.inr ⟨rfl, hretry, t, op, o, hut.symm,
      Function.update_self .., ?_, hdone⟩⟩
    rw [Call.side_of_index hidx hop, hother]
    cases o.side <;> rfl

/-- **A claimed position is an operation taking effect**, and so is giving up. -/
theorem Tracks.step (hpow : 1 ≤ pow) (hs : (system τ T w).Reachable s) (h : Tracks s b) {c : Call T}
    {q : Inner T pow} {r : Call T ⊕ Outcome T} (hc : s.call t = some c)
    (hstep : ExecStep w s.inner c q r) :
    ∃ b', ReflTransGen (Atomic.Late.Step (looseQueue (2 ^ pow))) b b'
      ∧ Tracks (s.advance t c q r) b' := by
  have hinv := inv_of_reachable hpow hs
  have hok := hinv.callOk t c hc
  have hphase := h.phase t
  rw [hc] at hphase
  have htail := h.tail
  -- a step that only looks, or finds that it looked too early, is none of the object; the index
  -- it takes with it is the one it had, or has just been loaded
  have hround : ∀ c' : Call T, ExecStep w s.inner c s.inner (.inl c') → c.claimed = false →
      c'.claimed = false → c'.op = c.op → Event.of c (.inl c') = none →
      ∃ b', ReflTransGen (Atomic.Late.Step (looseQueue (2 ^ pow))) b b'
        ∧ Tracks (s.advance t c s.inner (.inl c')) b' := by
    intro c' hstep hclaimed hclaimed' hop he
    obtain ⟨op, hinvoked, hop'⟩ := hphase.of_unclaimed hclaimed
    refine ⟨b, .refl, ?_⟩
    have hquiet := h.quiet (t := t) (q := s.inner) rfl rfl (n := some c')
      (hinvoked ▸ .invoked c' op (hop.trans hop') hclaimed') (fun c'' hc'' k idx op o hidx hpassed
        hop'' hretry => by
      obtain rfl := Option.some.inj hc''
      rcases (hstep.index_cases hidx).2 with hsame | ⟨-, rfl⟩
      · exact h.right t c hc k idx op o hsame hpassed (hop ▸ hop'') hretry
      · exact absurd hpassed (hinv.not_passed_counter k))
    simpa [State.advance, he] using hquiet
  have hlook := hstep
  cases hstep with
  | pushLoadTail | pushReady | pushStale | pushCasFail | popLoadHead | popReady | popStale
  | popCasFail => exact hround _ hlook rfl rfl rfl rfl
  -- a call that gives up: it lags, or the object is full or empty, or a call of the other side
  -- has claimed the slot and not finished, and then giving up is allowed
  | pushFull val idx hseq =>
    refine h.giveUp hc rfl rfl rfl rfl ?_
    by_cases hlag : (pushLoadSeq val idx).Lags w s.inner
    · exact Or.inr (h.right_of_lags hpow hinv hc hlag rfl rfl)
    · obtain ⟨pos, -, -, -, hcase⟩ := hinv.of_seq_lt hok (seq_lt_of_diff_neg hlag hseq)
      rcases hcase with hfull | ⟨t', hread⟩
      · exact Or.inl (Or.inl (by rw [Fifo.apply, if_neg (by omega)]))
      · obtain ⟨data, hdata⟩ := h.of_reading hread
        refine Or.inl (Or.inr ⟨rfl, rfl, t', .pop, .popped data, ?_, hdata, rfl, rfl⟩)
        rintro rfl
        obtain ⟨c', hc', hpos⟩ := hread
        obtain rfl := Option.some.inj (hc.symm.trans hc')
        cases hpos
  | popEmpty idx hseq =>
    refine h.giveUp hc rfl rfl rfl rfl ?_
    by_cases hlag : (popLoadSeq idx : Call T).Lags w s.inner
    · exact Or.inr (h.right_of_lags hpow hinv hc hlag rfl rfl)
    · obtain ⟨-, hcase⟩ := hinv.of_seq_le hok (seq_le_of_diff_neg hlag hseq)
      rcases hcase with hempty | ⟨t', hwrite⟩
      · have hnil : b.now.obj = [] := List.eq_nil_of_length_eq_zero (by omega)
        exact Or.inl (Or.inl (by rw [hnil, Fifo.apply]))
      · obtain ⟨val, hval⟩ := h.of_writing hwrite
        refine Or.inl (Or.inr ⟨rfl, rfl, t', .push val, .pushed, ?_, hval, rfl, rfl⟩)
        rintro rfl
        obtain ⟨c', hc', hpos⟩ := hwrite
        obtain rfl := Option.some.inj (hc.symm.trans hc')
        cases hpos
  -- a successful compare-exchange is where the call takes effect
  | pushClaim val =>
    obtain ⟨op, hinvoked, hop⟩ := hphase.of_unclaimed rfl
    obtain rfl := Option.some.inj hop
    have hroom := (hinv.tail_free hpow (hok.2 rfl)).1
    refine ⟨_, .single (.now _ (.perform t (.push val) (b.now.obj ++ [val]) .pushed hinvoked
      (Or.inl (by rw [Fifo.apply, if_pos (by omega)])))), ?_⟩
    refine h.update (e := some (.claimedPush s.inner.tail val)) rfl ?_ (fun i val' hi => ?_)
      (fun u hut => Atomic.Late.keeps_after (Function.update_of_ne hut ..))
      (fun u hut => h.right_of_claim (q := { s.inner with tail := s.inner.tail + 1 })
        (o := .pushed) rfl (fun _ hpassed => hpassed) hut) ?_ (.of_index rfl)
    · show s.inner.tail + 1 = s.inner.head + (b.now.obj ++ [val]).length
      rw [List.length_append, List.length_singleton]
      omega
    · have hi' : (b.now.obj ++ [val])[i]? = some val' := hi
      rcases Nat.lt_trichotomy i b.now.obj.length with hlt | rfl | hgt
      · rw [List.getElem?_append_left hlt] at hi'
        exact (h.claimed i val' hi').append _
      · rw [List.getElem?_concat_length] at hi'
        obtain rfl := Option.some.inj hi'
        show Claimed _ (s.inner.head + b.now.obj.length) val
        rw [← htail]
        exact ⟨t, List.mem_cons_self⟩
      · rw [List.getElem?_eq_none (by simp; omega)] at hi'
        cases hi'
    · simpa [Atomic.Late.after] using InPhase.pushWrite val s.inner.tail
  | popClaim =>
    obtain ⟨op, hinvoked, hop⟩ := hphase.of_unclaimed rfl
    obtain rfl := Option.some.inj hop
    have hlt := (hinv.head_published (hok.2 rfl)).1
    obtain ⟨val, rest, hobj⟩ := List.exists_cons_of_length_pos (l := b.now.obj) (by omega)
    have hval := h.claimed 0 val (by rw [hobj]; rfl)
    -- the oldest element is the value claimed for the head
    refine ⟨_, .single (.now _ (.perform t .pop rest (.popped val) hinvoked
      (Or.inl (by rw [hobj, Fifo.apply])))), ?_⟩
    refine h.update (e := some (.claimedPop s.inner.head)) rfl ?_ (fun i val' hi => ?_)
      (fun u hut => Atomic.Late.keeps_after (Function.update_of_ne hut ..))
      (fun u hut => h.right_of_claim (q := { s.inner with head := s.inner.head + 1 })
        (o := .popped val) rfl (fun _ hpassed => hpassed) hut) ?_ (.of_index rfl)
    · show s.inner.tail = s.inner.head + 1 + rest.length
      rw [hobj, List.length_cons] at htail
      omega
    · have hold := h.claimed (i + 1) val' (by rw [hobj]; exact hi)
      rw [show s.inner.head + (i + 1) = s.inner.head + 1 + i by omega] at hold
      exact hold.append _
    · simpa [Atomic.Late.after] using InPhase.popRead s.inner.head val (hval.append _)
  -- what comes after it changes slots, and the object no more
  | pushWrite val idx =>
    refine ⟨b, .refl, h.quiet (t := t) (q := s.inner.setSlot idx _) rfl rfl ?_ (.of_index rfl)⟩
    generalize b.now.phase t = p at hphase ⊢
    cases hphase with
    | pushWrite => exact .pushStoreSeq val idx
    | invoked c op hop hclaimed => cases hclaimed
  | popRead idx data hdata =>
    refine ⟨b, .refl, h.quiet (t := t) (q := s.inner.setSlot idx _) rfl rfl ?_ (.of_index rfl)⟩
    generalize b.now.phase t = p at hphase ⊢
    cases hphase with
    | popRead idx val hval =>
      -- the value read is the one pushed at the position
      obtain ⟨-, -, ⟨val', hslot, hval'⟩, -⟩ := hok
      obtain rfl : val' = data := Option.some.inj (by rw [← hdata, hslot])
      obtain rfl := (safe_of_reachable hpow hs).claimed_unique idx _ _ hval hval'
      exact .popStoreSeq idx val
    | invoked c op hop hclaimed => cases hclaimed
  -- the last step of a call is its return
  | pushStoreSeq idx =>
    generalize hp : b.now.phase t = p at hphase
    cases hphase with
    | pushStoreSeq val =>
      obtain ⟨b', hret, htracks⟩ := h.ret (q := s.inner.setSlot idx _) (e := .returnedPush idx)
        rfl rfl rfl rfl rfl (fun u _ => .refl b u) hp
      exact ⟨b', .single hret, htracks⟩
    | invoked c op hop hclaimed => cases hclaimed
  | popStoreSeq idx data =>
    generalize hp : b.now.phase t = p at hphase
    cases hphase with
    | popStoreSeq =>
      obtain ⟨b', hret, htracks⟩ := h.ret (q := s.inner.setSlot idx _) (e := .returnedPop idx data)
        rfl rfl rfl rfl rfl (fun u _ => .refl b u) hp
      exact ⟨b', .single hret, htracks⟩
    | invoked c op hop hclaimed => cases hclaimed

/-- **A call is a call of the atomic object.** -/
theorem Tracks.invoke (h : Tracks s b) (hnone : s.call t = none) (op : Op T) :
    ∃ b', ReflTransGen (Atomic.Late.Step (looseQueue (2 ^ pow))) b b'
      ∧ Tracks ⟨s.inner, Function.update s.call t (some (invoke op)), (t, .called op) :: s.history⟩
        b' := by
  have hphase := h.phase t
  rw [hnone] at hphase
  generalize hp : b.now.phase t = p at hphase
  cases hphase with
  | idle =>
    refine ⟨_, .single (.now _ (.call t op hp)), h.move rfl rfl (e := some (.called op)) rfl rfl
      (fun u hut => Atomic.Late.keeps_after (Function.update_of_ne hut ..)) ?_ (.of_index ?_)⟩
    · have hself : Function.update b.now.phase t (.invoked op) t = .invoked op :=
        Function.update_self ..
      show InPhase _ _ (Function.update b.now.phase t (.invoked op) t)
      rw [hself]
      exact .invoked _ op (by cases op <;> rfl) (by cases op <;> rfl)
    · cases op <;> rfl

end Tracks

/-- **What the callers can tell**: the history of calls and returns is one of
the bounded queue whose operations take effect at one moment each, in an order
that explains the history, and those that do not give up are, in that order, a
run of the bounded queue. -/
def Linearizable [DecidableEq τ] (cap : ℕ) (history : List (τ × (Op T ⊕ Outcome T))) : Prop :=
  ∃ a, Atomic.Reaches (looseQueue cap) [] a ∧ a.history = history
    ∧ Atomic.Explains a.log history ∧ Fifo.Serial cap (completed a.log) a.obj

/-- **The queue is linearizable**: from two slots on, with any threads making
any calls and taking their steps in any order. -/
theorem linearizable_of_reachable [DecidableEq τ] (hpow : 1 ≤ pow) {s : State τ T pow}
    (hs : (system τ T w).Reachable s) : Linearizable (2 ^ pow) (visible s.history) := by
  obtain ⟨b, hlate, hsim⟩ := Atomic.exists_reaches (D := looseQueue (2 ^ pow)) (o := [])
    (Q := Tracks) ⟨rfl, rfl, fun i val hi => (Option.some_ne_none val hi.symm).elim,
      fun t => InPhase.idle, fun t => .none⟩
    (fun s x s' b hs hsim hnext => by
      rcases system_next_cases hnext with ⟨hnone, op, rfl⟩ | ⟨c, q, r, hc, hstep, rfl⟩
      · exact hsim.invoke hnone op
      · exact hsim.step hpow hs hc hstep) hs
  have hnonempty : Nonempty (Outcome T) := ⟨.pushed⟩
  -- what was answered late was right before, and is put there
  obtain ⟨a, hreach, -, hhistory⟩ := hlate.exists_reaches (lasting_looseQueue (2 ^ pow))
  have hhistory' := hhistory.trans hsim.history
  exact ⟨a, hreach, hhistory', hhistory' ▸ hreach.explains, serial_completed hreach⟩

/-- The producer that is overtaken has not written yet, and a pop that comes
before its position gives up; what was called and what returned since is
explained. -/
theorem linearizable_of_reachable_overtaking :
    ∃ s, (system (Fin 3) ℕ .twoSlots).run (system (Fin 3) ℕ .twoSlots).init overtaking = some s
      ∧ visible s.history = [(2, .inr .empty), (2, .inl .pop), (1, .inr .pushed),
        (1, .inl (.push 8)), (0, .inl (.push 7))]
      ∧ Linearizable 2 (visible s.history) := by
  have hrun : ((system (Fin 3) ℕ .twoSlots).run (system (Fin 3) ℕ .twoSlots).init
      overtaking).isSome := by decide
  exact ⟨_, (Option.some_get hrun).symm, rfl,
    linearizable_of_reachable (by decide) (.of_run (Option.some_get hrun).symm)⟩

end Mpmc
