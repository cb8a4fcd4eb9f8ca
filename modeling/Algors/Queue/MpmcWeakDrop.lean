import Algors.Queue.MpmcOrderings
import Algors.Queue.Disposal

/-!
# Dropping the multi-producer multi-consumer queue under weak memory

`Inner::drop` has the queue for itself: the `Arc` lets the last handle drop it
only when all that was done with the other ones happens before. Then relaxed
loads are enough. Everything in the memory was done by some thread, which knows
of it, so who knows what every thread knows has seen the latest store of each
variable, and may access any slot.
-/

namespace Mpmc.Weak

variable {T τ : Type} {pow : ℕ} [DecidableEq τ]

open WeakMemory (Mem)
open Call

/-- **A step of a call is done by its thread.** -/
theorem done_of_step {q q' : Inner τ T pow} {t : τ} {c : Call T} {r : Call T ⊕ Fifo.Outcome T}
    (h : q.Done) (hstep : ExecStep w q t c q' r) : q'.Done := by
  cases hstep with
  | pushLoadTail _ _ _ _ hload | popLoadHead _ _ _ hload => exact h.load hload
  | pushReady _ _ _ _ hload | popReady _ _ _ hload => exact h.load hload
  | pushFull _ _ _ _ _ hload | popEmpty _ _ _ _ hload => exact h.load hload
  | pushStale _ _ _ _ _ hload | popStale _ _ _ _ hload => exact h.load hload
  | pushClaim _ _ _ _ _ _ hcas | popClaim _ _ _ _ _ hcas => exact h.exchange hcas
  | pushCasFail _ _ _ _ _ _ hcas | popCasFail _ _ _ _ _ hcas => exact h.exchange hcas
  | pushWrite _ _ _ hwrite => exact h.write hwrite
  | popRead _ _ _ htake => exact h.take htake
  | pushStoreSeq _ _ _ hstore | popStoreSeq _ _ _ _ hstore => exact h.store hstore

/-- **What is in the memory was done by threads**, in every reachable state. -/
theorem done_of_reachable {s : State τ T pow} (hs : (system τ T w).Reachable s) :
    s.inner.Done := by
  refine System.ReachableWhile.invariant (I := fun s => s.inner.Done) hs (Mem.done_start _) ?_
  rintro s a s' _ h _ hnext
  rcases system_next_cases hnext with
    ⟨t, op, hnone, rfl⟩ | ⟨t, c, q, r, hc, hstep, rfl⟩ | ⟨t, u, rfl⟩
  · exact h
  · exact done_of_step h hstep
  · exact h.see t _

/-- **The state of the loop** at a position: the slots from there on are as they
were, and nothing was stored. -/
structure Dropping (m₀ : Inner τ T pow) (t : τ) (tail pos : ℕ) (m : Inner τ T pow) : Prop where
  stores : m.stores = m₀.stores
  seen : ∀ l, m.view t (.inl l) = m₀.view t (.inl l)
  view : m₀.view t ≤ m.view t
  rest : ∀ p, pos ≤ p → p < tail → m.cell (mask p) = m₀.cell (mask p)

namespace Holds

variable {s : State τ T pow} {q : Mpmc.Inner T pow} {t : τ}

/-- **The loop drops what is stored**, whatever stores its loads read. -/
theorem dropLoop (h : Holds s q) (hdone : s.inner.Done)
    (harc : ∀ u, s.inner.view u ≤ s.inner.view t) {stored : List T} (hstored : Stored q stored)
    {seqStamp : ℕ → ℕ}
    (hseq : ∀ pos, (s.inner.load t (.seq (mask pos)) .relaxed (seqStamp pos)).isSome) :
    ∃ m, Ring.walk (dropSlot t seqStamp) (q.tail - q.head) q.head s.inner = some (m, stored) := by
  have htail := hstored.tail_eq
  have hlap := hstored.length_le
  have hsub : q.tail - q.head = stored.length := by omega
  obtain ⟨m, hwalk, -⟩ := Ring.walk_eq (dropSlot t seqStamp) (Dropping s.inner t q.tail) stored
    q.head ⟨rfl, fun _ => rfl, le_rfl, fun _ _ _ => rfl⟩ fun i hi m hm => by
      have hall : m.SeenAll (m.view t) := fun l msg hmem =>
        (hdone.seenAll harc l msg (hm.stores ▸ hmem)).trans (hm.view _)
      obtain ⟨m₁, val, hload⟩ := Mem.exists_load_of_eq (hm.seen _) (congrFun hm.stores _)
        (hseq (q.head + i))
      -- the load tells nothing new, and reads the number as it is
      obtain rfl := hall.load hload
      have hslot : q.slot (q.head + i) = ⟨q.head + i + 1, some stored[i]⟩ := hstored.published i hi
      obtain rfl : val = q.head + i + 1 := by
        have hinc := (h.memOk.seq (mask (q.head + i))).of_eq (congrFun hm.stores _)
        exact (hinc.load_eq hall hload).trans (congrArg Slot.seq hslot)
      have hcell := hm.rest (q.head + i) le_rfl (by omega)
      have hknown := (hdone.known harc (mask (q.head + i))).mono hm.view
      rw [← hcell] at hknown
      obtain ⟨m₂, htake⟩ := Mem.exists_take hknown.1 (show _ = some stored[i] by
        rw [hcell, h.memOk.data]
        exact congrArg Slot.data hslot)
      refine ⟨m₂, by simp [dropSlot, hload, htake], ?_⟩
      obtain ⟨hstores, hcells, -, hview⟩ := Mem.take_frame htake
      refine ⟨hstores.trans hm.stores, fun l => (Mem.view_take htake l).trans (hm.seen l),
        hm.view.trans (hview t), fun p hle hlt => ?_⟩
      rw [hcells _ (Ring.mask_ne_mask (by omega) (by omega)).symm]
      exact hm.rest p (by omega) hlt
  exact ⟨m, hsub ▸ hwalk⟩

/-- **The drop of an idle queue** by a thread that knows what every thread
knows. -/
theorem drop (h : Holds s q) (hdone : s.inner.Done) (harc : ∀ u, s.inner.view u ≤ s.inner.view t)
    {stored : List T} (hstored : Stored q stored) {headStamp tailStamp : ℕ} {seqStamp : ℕ → ℕ}
    (hhead : (s.inner.load t .head .relaxed headStamp).isSome)
    (htail : (s.inner.load t .tail .relaxed tailStamp).isSome)
    (hseq : ∀ pos, (s.inner.load t (.seq (mask pos)) .relaxed (seqStamp pos)).isSome) :
    ∃ m, Weak.drop true s.inner t headStamp tailStamp seqStamp = some (m, stored) := by
  have hall := hdone.seenAll harc
  obtain ⟨⟨m₁, head⟩, hhead⟩ := Option.isSome_iff_exists.mp hhead
  obtain ⟨⟨m₂, tail⟩, htail⟩ := Option.isSome_iff_exists.mp htail
  obtain rfl := h.memOk.head.load_eq hall hhead
  obtain rfl := h.memOk.tail.load_eq hall htail
  rw [hall.load hhead] at hhead
  rw [hall.load htail] at htail
  obtain ⟨m, hwalk⟩ := h.dropLoop hdone harc hstored hseq
  exact ⟨m, by simp [Weak.drop, hhead, htail, hwalk]⟩

end Holds

/-- **Dropping the queue**: once no call is under way, a thread that knows what
every thread knows can drop the queue, and whatever stores its loads read, drops
exactly the values of the positions that were claimed for a push and not
popped. -/
theorem disposal_of_reachable (hpow : 1 ≤ pow) {s : State τ T pow}
    (hs : (system τ T w).Reachable s) (hidle : ∀ t, s.call t = none) {t : τ}
    (harc : ∀ u, s.inner.view u ≤ s.inner.view t) :
    ∃ vals, (acceptedAt s.history).Perm (poppedAt s.history
        ++ (List.range' (popPositions s.history).length vals.length).zip vals)
      ∧ (∃ headStamp tailStamp seqStamp q,
        drop true s.inner t headStamp tailStamp seqStamp = some (q, vals))
      ∧ ∀ headStamp tailStamp seqStamp, (s.inner.load t .head .relaxed headStamp).isSome →
        (s.inner.load t .tail .relaxed tailStamp).isSome →
        (∀ pos, (s.inner.load t (.seq (mask pos)) .relaxed (seqStamp pos)).isSome) →
          ∃ q, drop true s.inner t headStamp tailStamp seqStamp = some (q, vals) := by
  obtain ⟨q, h⟩ := holds_of_reachable hpow hs
  have hdone := done_of_reachable hs
  obtain ⟨left, hstored, hclaimed⟩ := h.inv.exists_stored hidle
  have hlen : left.length = q.tail - q.head := by
    have htail : q.tail = q.head + left.length := hstored.tail_eq
    omega
  have hhead : (popPositions s.history).length = q.head := by
    rw [show popPositions s.history = _ from h.inv.books.popClaims, List.length_reverse,
      List.length_range]
    rfl
  have hload : ∀ l, ∃ stamp, (s.inner.load t l .relaxed stamp).isSome := fun l => by
    obtain ⟨stamp, r, hr⟩ := h.memOk.closed.exists_load t l .relaxed
    exact ⟨stamp, Option.isSome_iff_exists.mpr ⟨r, hr⟩⟩
  obtain ⟨headStamp, hheadStamp⟩ := hload .head
  obtain ⟨tailStamp, htailStamp⟩ := hload .tail
  choose seqStamp hseqStamp using fun pos => hload (.seq (mask pos))
  refine ⟨left, ?_, ⟨headStamp, tailStamp, seqStamp,
    h.drop hdone harc hstored hheadStamp htailStamp hseqStamp⟩,
    fun _ _ _ => h.drop hdone harc hstored⟩
  rw [hhead]
  exact h.inv.acceptedAt_perm h.traced hidle hlen hclaimed

/-- The thread that pushed learns what the other one has done, and drops the two
values that are left. -/
theorem disposal_of_reachable_stale :
    ∃ s, (system Bool ℕ .twoSlots).run (system Bool ℕ .twoSlots).init
        (stale ++ [.join false true]) = some s
      ∧ ∃ vals, vals.Perm [9, 8] ∧ ∃ headStamp tailStamp seqStamp q,
        drop true s.inner false headStamp tailStamp seqStamp = some (q, vals) := by
  have hrun : ((system Bool ℕ .twoSlots).run (system Bool ℕ .twoSlots).init stale).map
      (fun s => (s.call false, s.call true, (acceptedAt s.history).map Prod.snd,
        (poppedAt s.history).map Prod.snd)) = some (none, none, [9, 8, 7], [7]) := by
    decide +kernel
  obtain ⟨s, hs, hp⟩ := Option.map_eq_some_iff.mp hrun
  simp only [Prod.mk.injEq] at hp
  obtain ⟨hfalse, htrue, haccepted, hpopped⟩ := hp
  have hend : (system Bool ℕ .twoSlots).run (system Bool ℕ .twoSlots).init
      (stale ++ [.join false true]) = some (s.join false true) := System.run_append hs rfl
  obtain ⟨vals, hvals, hdrop, -⟩ := disposal_of_reachable (t := false) (by decide)
    (System.Reachable.of_run hend)
    (fun u => by
      cases u with
      | false => exact hfalse
      | true => exact htrue) fun u => by
      cases u with
      | false => exact le_rfl
      | true => exact s.inner.view_join_le false true
  have hmap := hvals.map Prod.snd
  rw [List.map_append, List.map_snd_zip (by simp)] at hmap
  change ((acceptedAt s.history).map Prod.snd).Perm ((poppedAt s.history).map Prod.snd ++ vals)
    at hmap
  rw [haccepted, hpopped] at hmap
  have hleft : ([7] ++ [9, 8]).Perm ([7] ++ vals) := List.Perm.trans (by decide) hmap
  exact ⟨_, hend, vals, ((List.perm_append_left_iff _).mp hleft).symm, hdrop⟩

end Mpmc.Weak
