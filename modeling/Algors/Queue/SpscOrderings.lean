import Algors.Queue.SpscWeak

/-!
# The orderings of the single-producer single-consumer queue suffice

What the two sides do is right with the queue *as it is*, the counters taken as
they were stored last: `Inv` of `Algors.Queue.SpscLinear` is kept, although a
load may give an old value. A side reads its own counter as it is, since it has
seen its own stores and nobody else makes any; an old value of the other side's
counter is one that counter had, and makes a queue look fuller, or emptier,
than it is.

For the slots, a side that has seen a value of the other counter knows that the
accesses to all slots handed over until then are over. The release stores pass
this on from counter to counter, and so do the ways in which handles are sent.
-/

namespace Spsc.Weak

variable {T τ : Type} {pow : ℕ}

open WeakMemory (Mem View MemOrder Cell Message)
open WeakMemory.Mem (Seen Increasing)
open Fifo (Op Outcome Side)
open Call

/-! ## The queue as it is

The queue that has the counters as they were stored last, and the values of the slots. -/

/-- What a side has in its copy of the other counter. -/
def Queue.cache (q : Queue τ T pow) : Side → ℕ
  | .producer => q.headCache
  | .consumer => q.tailCache

/-- **The queue as it is**, with the counters at `n`: what one would find who
has seen everything. -/
def Queue.current (q : Queue τ T pow) (n : Side → ℕ) : Spsc.Queue T pow :=
  ⟨⟨n .consumer, n .producer, fun i => (q.mem.cell i).val⟩, q.headCache, q.tailCache⟩

/-- The calls that did not give up. -/
def accepted (history : List (Op T × Outcome T)) : List (Op T × Outcome T) :=
  history.filter fun call => call.2.retry.isNone

/-! ## What the memory has for the two sides

For every slot that has been handed over to a side and not handed back: that the side knows, by
what it has seen of the other counter, that the accesses of the other are over. -/

/-- The counter a side writes. -/
def counter : Side → Loc
  | .producer => .tail
  | .consumer => .head

/-- How far a side may get ahead of the counter of the other one. -/
def lap (pow : ℕ) : Side → ℕ
  | .producer => 2 ^ pow
  | .consumer => 0

/-- **A view knows that a side is done with a slot**: the producer has written
it, the consumer has read it. -/
def Done : Side → Cell τ T → View Loc τ → Prop
  | .producer, cell, v => cell.Written v
  | .consumer, cell, v => cell.Unread v

theorem Done.mono {k : Side} {cell : Cell τ T} {v v' : View Loc τ} (h : Done k cell v)
    (hle : v ≤ v') : Done k cell v' := by
  cases k with
  | producer => exact Cell.Written.mono h hle
  | consumer => exact Cell.Unread.mono h hle

/-- **The memory with the counters at `n`**, for the threads that have the
handles and what they have in their copies of the other counter. A side that
finds a position below the other's counter finds there what the other side has
done to its slot: each store of a counter carries it. -/
structure MemOk (m : Mem Loc (Fin (2 ^ pow)) τ T) (holder : Side → τ) (n cache : Side → ℕ)
    (told : τ → Side → ℕ) : Prop where
  closed : m.Closed
  increasing : ∀ k, m.Increasing (counter k) (n k)
  own : ∀ k, m.Seen (m.view (holder k)) (counter k) (n k)
  cached : ∀ k, m.Seen (m.view (holder k)) (counter k.other) (cache k)
  told : ∀ t k, m.Seen (m.view t) (counter k) (told t k)
  mine : ∀ k i, Done k (m.cell i) (m.view (holder k))
  handed : ∀ k pos, n k ≤ pos → pos < cache k + lap pow k →
    Done k.other (m.cell (Ring.mask pos)) (m.view (holder k))
  carried : ∀ k, ∀ msg ∈ m.stores (counter k.other), ∀ pos, n k ≤ pos →
    pos < msg.val + lap pow k → Done k.other (m.cell (Ring.mask pos)) msg.view

variable {m m' : Mem Loc (Fin (2 ^ pow)) τ T} {holder : Side → τ} {n cache : Side → ℕ}
  {told : τ → Side → ℕ}

theorem memOk_start (t₀ : τ) :
    MemOk (.start fun _ => 0 : Mem Loc (Fin (2 ^ pow)) τ T) (fun _ => t₀) (fun _ => 0)
      (fun _ => 0) fun _ _ => 0 where
  closed := WeakMemory.Mem.closed_start _
  increasing k := WeakMemory.Mem.increasing_start _
  own k := WeakMemory.Mem.seen_start _ _
  cached k := WeakMemory.Mem.seen_start _ _
  told t k := WeakMemory.Mem.seen_start _ _
  mine k i := by cases k <;> simp [Done, Cell.Written, Cell.Unread, WeakMemory.Mem.start]
  handed k pos _ _ := by
    cases k <;> simp [Done, Side.other, Cell.Written, Cell.Unread, WeakMemory.Mem.start]
  carried k msg _ pos _ _ := by
    cases k <;> simp [Done, Side.other, Cell.Written, Cell.Unread, WeakMemory.Mem.start]

namespace MemOk

/-- **More is known**: views grow, and a handle is with who knows what its
holder knew. -/
theorem grow (h : MemOk m holder n cache told) (hclosed : m'.Closed)
    (hstores : m'.stores = m.stores) (hcell : m'.cell = m.cell) {holder' : Side → τ}
    (hview : ∀ k, m.view (holder k) ≤ m'.view (holder' k)) {told' : τ → Side → ℕ}
    (htold : ∀ t k, m'.Seen (m'.view t) (counter k) (told' t k)) :
    MemOk m' holder' n cache told' where
  closed := hclosed
  increasing k := (h.increasing k).of_eq (congrFun hstores _)
  own k := (h.own k).mono (hview k _) le_rfl fun msg hmem => by rwa [hstores]
  cached k := (h.cached k).mono (hview k _) le_rfl fun msg hmem => by rwa [hstores]
  told := htold
  mine k i := by
    rw [hcell]
    exact (h.mine k i).mono (hview k)
  handed k pos hle hlt := by
    rw [hcell]
    exact (h.handed k pos hle hlt).mono (hview k)
  carried k msg hmem pos hle hlt := by
    rw [hcell]
    rw [hstores] at hmem
    exact h.carried k msg hmem pos hle hlt

variable [DecidableEq τ]

/-- A thread learns something. -/
theorem see (h : MemOk m holder n cache told) {t : τ} {v : View Loc τ}
    (hclosed : (m.see t v).Closed) : MemOk (m.see t v) holder n cache told :=
  h.grow hclosed rfl rfl (fun k => m.le_view_see t (holder k) v) fun u k =>
    (h.told u k).mono (m.le_view_see t u v _) le_rfl fun _ hmem => hmem

/-- **A side loads its own counter**, and gets what it is. -/
theorem loadOwn (h : MemOk m holder n cache told) {k : Side} {order : MemOrder} {stamp val : ℕ}
    (hload : m.load (holder k) (counter k) order stamp = some (m', val)) :
    val = n k ∧ m'.cell = m.cell ∧ MemOk m' holder n cache told := by
  have hclosed := h.closed.load hload
  obtain ⟨msg, hmem, rfl, rfl, hle, rfl⟩ := WeakMemory.Mem.load_cases hload
  exact ⟨(h.increasing k).eq_of_seen (h.own k) hmem hle, rfl, h.see hclosed⟩

/-- **A side reloads the other counter** with acquire: it gets what that is or
was, and no less than before, and knows what the other side has done up to
there. -/
theorem reload (h : MemOk m holder n cache told) {k : Side} {stamp val : ℕ}
    (hload : m.load (holder k) (counter k.other) .acquire stamp = some (m', val)) :
    cache k ≤ val ∧ val ≤ n k.other ∧ told (holder k) k.other ≤ val ∧ m'.cell = m.cell
      ∧ MemOk m' holder n (Function.update cache k val) told := by
  have hclosed := h.closed.load hload
  obtain ⟨msg, hmem, rfl, rfl, hle, rfl⟩ := WeakMemory.Mem.load_cases hload
  have hinc := h.increasing k.other
  have hok := h.see hclosed
  refine ⟨hinc.ge_of_seen (h.cached k) hmem hle, hinc.le msg hmem,
    hinc.ge_of_seen (h.told _ _) hmem hle, rfl, ?_⟩
  refine { hok with cached := fun k' => ?_, handed := fun k' pos hpos hlt => ?_ }
  · by_cases heq : k' = k
    · subst heq
      rw [Function.update_self]
      exact ⟨msg, hmem, le_rfl, by simp⟩
    · rw [Function.update_of_ne heq]
      exact hok.cached k'
  · by_cases heq : k' = k
    · subst heq
      rw [Function.update_self] at hlt
      refine (h.carried k' msg hmem pos hpos hlt).mono ?_
      rw [WeakMemory.Mem.view_see_self, if_pos rfl]
      exact le_sup_of_le_right le_sup_right
    · rw [Function.update_of_ne heq] at hlt
      exact hok.handed k' pos hpos hlt

omit [DecidableEq τ] in
/-- A side that may get further has a slot that the other one may not touch. -/
theorem mask_ne {k : Side} (hlt : n k < n k.other + lap pow k) {pos : ℕ} (hpos : n k.other ≤ pos)
    (hpos' : pos < n k + lap pow k.other) :
    (Ring.mask pos : Fin (2 ^ pow)) ≠ Ring.mask (n k) := by
  cases k with
  | producer =>
    simp only [lap, Side.other] at hlt hpos hpos'
    exact Ring.mask_ne_mask (by omega) (by omega)
  | consumer =>
    simp only [lap, Side.other] at hlt hpos hpos'
    exact (Ring.mask_ne_mask (by omega) (by omega)).symm

/-- **A side accesses the slot of its counter**, where it may: no one else may
touch it, and the other side's accesses to it are done as before. -/
theorem access (h : MemOk m holder n cache told) {k : Side} {cell : Cell τ T}
    (hcache : cache k.other ≤ n k) (hroom : n k < n k.other + lap pow k)
    (hmine : Done k cell ((m.tick (holder k)).view (holder k)))
    (hother : ∀ v, Done k.other (m.cell (Ring.mask (n k))) v → Done k.other cell v) :
    MemOk ((m.tick (holder k)).setCell (Ring.mask (n k)) cell) holder n cache told := by
  have hok := h.see (h.closed.tick (holder k))
  -- what the other side may rely on is about other slots
  have hframe : ∀ pos, n k.other ≤ pos → pos < n k + lap pow k.other →
      ((m.tick (holder k)).setCell (Ring.mask (n k)) cell).cell (Ring.mask pos)
        = m.cell (Ring.mask pos) := fun pos hle hlt =>
    WeakMemory.Mem.cell_setCell_of_ne _ _ (mask_ne hroom hle hlt) cell
  have hkeep : ∀ i v, Done k.other (m.cell i) v →
      Done k.other (((m.tick (holder k)).setCell (Ring.mask (n k)) cell).cell i) v := by
    intro i v hdone
    by_cases heq : i = Ring.mask (n k)
    · subst heq
      rw [WeakMemory.Mem.cell_setCell_self]
      exact hother v hdone
    · rw [WeakMemory.Mem.cell_setCell_of_ne _ _ heq]
      exact hdone
  refine ⟨hok.closed.setCell _ _, fun k' => (hok.increasing k').of_eq rfl, hok.own, hok.cached,
    hok.told, fun k' i => ?_, fun k' pos hle hlt => ?_, fun k' msg hmem pos hle hlt => ?_⟩
  · rcases Side.eq_or_eq_other k' k with rfl | rfl
    · by_cases heq : i = Ring.mask (n k')
      · subst heq
        rw [WeakMemory.Mem.cell_setCell_self]
        exact hmine
      · rw [WeakMemory.Mem.cell_setCell_of_ne _ _ heq]
        exact hok.mine k' i
    · exact hkeep i _ (hok.mine k.other i)
  · rcases Side.eq_or_eq_other k' k with rfl | rfl
    · exact hkeep _ _ (hok.handed k' pos hle hlt)
    · rw [hframe pos hle (by omega)]
      exact hok.handed k.other pos hle hlt
  · rcases Side.eq_or_eq_other k' k with rfl | rfl
    · exact hkeep _ _ (hok.carried k' msg hmem pos hle hlt)
    · rw [hframe pos hle ?_]
      · exact hok.carried k.other msg hmem pos hle hlt
      · have hval := (h.increasing k.other.other).le msg hmem
        have hself : k.other.other = k := by cases k <;> rfl
        rw [hself] at hval
        omega

/-- **A side publishes** what it did to the slot of its counter. -/
theorem publish (h : MemOk m holder n cache told) {k : Side} {stamp : ℕ}
    (hstore : m.store (holder k) (counter k) (n k + 1) .release stamp = some m') :
    m'.cell = m.cell
      ∧ MemOk m' holder (Function.update n k (n k + 1)) cache (Function.update told (holder k)
        (Function.update (told (holder k)) k (told (holder k) k + 1))) := by
  obtain ⟨hinc, hseen⟩ := (h.increasing k).store (h.own k) (Nat.lt_succ_self _) hstore
  have hclosed := h.closed.store hstore
  obtain ⟨-, -, hm'⟩ := WeakMemory.Mem.store_cases hstore
  rw [if_pos rfl] at hm'
  obtain ⟨hcell, hframe, hview⟩ := Mem.store_frame hstore
  have hstores : ∀ l, ∀ msg ∈ m.stores l, msg ∈ m'.stores l := fun l msg hmem =>
    Mem.mem_stores_of_store hstore hmem
  have hother : ∀ k', k' ≠ k → m'.stores (counter k') = m.stores (counter k') := fun k' hne =>
    hframe _ (by cases k <;> cases k' <;> simp_all [counter])
  have hge : ∀ k', n k' ≤ Function.update n k (n k + 1) k' := fun k' => by
    by_cases heq : k' = k
    · subst heq
      rw [Function.update_self]
      exact Nat.le_succ _
    · rw [Function.update_of_ne heq]
  -- the stores in order, what each side has seen, what threads know, and the slots
  refine ⟨hcell, hclosed, fun k' => ?_, fun k' => ?_, fun k' => ?_, fun t k' => ?_, fun k' i => ?_,
    fun k' pos hle hlt => ?_, fun k' msg hmem pos hle hlt => ?_⟩
  · by_cases heq : k' = k
    · subst heq
      rwa [Function.update_self]
    · rw [Function.update_of_ne heq]
      exact (h.increasing k').of_eq (hother k' heq)
  · by_cases heq : k' = k
    · subst heq
      rwa [Function.update_self]
    · rw [Function.update_of_ne heq]
      exact (h.own k').mono (hview _ _) le_rfl (hstores _)
  · exact (h.cached k').mono (hview _ _) le_rfl (hstores _)
  · by_cases ht : t = holder k
    · subst ht
      rw [Function.update_self]
      by_cases heq : k' = k
      · subst heq
        rw [Function.update_self]
        exact hseen.mono le_rfl (Nat.succ_le_succ ((h.increasing k').le_of_seen (h.told _ k')))
          fun _ hmem => hmem
      · rw [Function.update_of_ne heq]
        exact (h.told _ k').mono (hview _ _) le_rfl (hstores _)
    · rw [Function.update_of_ne ht]
      exact (h.told t k').mono (hview _ _) le_rfl (hstores _)
  · rw [hcell]
    exact (h.mine k' i).mono (hview _)
  · rw [hcell]
    exact (h.handed k' pos ((hge k').trans hle) hlt).mono (hview _)
  · rw [hcell]
    rw [hm', WeakMemory.Mem.mem_stores_post] at hmem
    rcases hmem with ⟨heq, rfl⟩ | hold
    · -- the new store carries all that its side has done
      have hk : k'.other = k := by cases k <;> cases k' <;> simp_all [counter, Side.other]
      rw [hk]
      exact (h.mine k _).mono le_sup_left
    · exact h.carried k' msg hold pos ((hge k').trans hle) hlt

/-- **A thread learns what another one has done.** -/
theorem join (h : MemOk m holder n cache told) (t u : τ) :
    MemOk (m.join t u) holder n cache (Function.update told t (told t ⊔ told u)) := by
  have hok := h.see (h.closed.see (h.closed.view u) (t := t))
  refine { hok with told := fun t' k => ?_ }
  by_cases heq : t' = t
  · subst heq
    rw [Function.update_self, Pi.sup_apply]
    rcases le_total (told t' k) (told u k) with hle | hle
    · rw [sup_of_le_right hle]
      refine (h.told u k).mono ?_ le_rfl fun _ hmem => hmem
      rw [WeakMemory.Mem.view_see_self]
      exact le_sup_right
    · rw [sup_of_le_left hle]
      exact hok.told t' k
  · rw [Function.update_of_ne heq]
    exact hok.told t' k

omit [DecidableEq τ] in
/-- A thread that knows what the holders of the handles know may have both. -/
theorem gather (h : MemOk m holder n cache told) {t : τ}
    (hle : ∀ k, m.view (holder k) ≤ m.view t) : MemOk m (fun _ => t) n cache told :=
  h.grow h.closed rfl rfl hle h.told

omit [DecidableEq τ] in
/-- A handle goes to a thread that has been told what its holder knows. -/
theorem send (h : MemOk m holder n cache told) {k : Side} {t : τ}
    (hle : m.view (holder k) ≤ m.view t) :
    MemOk m (Function.update holder k t) n cache told :=
  h.grow h.closed rfl rfl (fun k' => by
    by_cases heq : k' = k
    · subst heq
      rwa [Function.update_self]
    · rw [Function.update_of_ne heq]) h.told

end MemOk

/-! ## The invariant

A push and a pop are the same with the sides exchanged, but for what is read and written in the
slots; each is a lemma, by the step of the call. -/

/-- **The invariant**: what succeeded is a run of the bounded FIFO, the queue as
it is has what that run has stored, and the memory is right. -/
structure Holds (s : State τ T pow) (n : Side → ℕ) (stored : List T) : Prop where
  serial : Fifo.Serial (2 ^ pow) (accepted s.history) stored
  inv : Inv (s.queue.current n) (s.call .producer) (s.call .consumer) stored
  memOk : MemOk s.queue.mem s.holder n s.queue.cache s.told
  count : n .consumer = (Fifo.popped s.history).length

theorem accepted_snoc_of_none {o : Outcome T} (h : o.retry = none)
    (history : List (Op T × Outcome T)) (op : Op T) :
    accepted (history ++ [(op, o)]) = accepted history ++ [(op, o)] := by
  simp [accepted, h]

theorem accepted_snoc_of_some {o : Outcome T} {op' : Op T} (h : o.retry = some op')
    (history : List (Op T × Outcome T)) (op : Op T) :
    accepted (history ++ [(op, o)]) = accepted history := by
  simp [accepted, h]

theorem popped_snoc (history : List (Op T × Outcome T)) (op : Op T) (o : Outcome T) :
    Fifo.popped (history ++ [(op, o)]) = Fifo.popped history
      ++ (match o with | .popped val => [val] | _ => []) := by
  cases op <;> cases o <;> simp [Fifo.popped]

theorem Queue.current_mem (q : Queue τ T pow) {mem : Mem Loc (Fin (2 ^ pow)) τ T}
    (hcell : mem.cell = q.mem.cell) (n : Side → ℕ) :
    Queue.current { q with mem } n = q.current n := by
  simp [current, hcell]

theorem Queue.current_head (q : Queue τ T pow) {mem : Mem Loc (Fin (2 ^ pow)) τ T}
    (hcell : mem.cell = q.mem.cell) (n : Side → ℕ) (headCache : ℕ) :
    Queue.current { q with mem, headCache } n = { q.current n with headCache } := by
  simp [current, hcell]

theorem Queue.current_tail (q : Queue τ T pow) {mem : Mem Loc (Fin (2 ^ pow)) τ T}
    (hcell : mem.cell = q.mem.cell) (n : Side → ℕ) (tailCache : ℕ) :
    Queue.current { q with mem, tailCache } n = { q.current n with tailCache } := by
  simp [current, hcell]

theorem Queue.cache_head (q : Queue τ T pow) (mem : Mem Loc (Fin (2 ^ pow)) τ T) (headCache : ℕ) :
    Queue.cache { q with mem, headCache } = Function.update q.cache .producer headCache := by
  funext k
  cases k <;> simp [cache]

theorem Queue.cache_tail (q : Queue τ T pow) (mem : Mem Loc (Fin (2 ^ pow)) τ T) (tailCache : ℕ) :
    Queue.cache { q with mem, tailCache } = Function.update q.cache .consumer tailCache := by
  funext k
  cases k <;> simp [cache]

theorem Queue.current_setCell (q : Queue τ T pow) (mem : Mem Loc (Fin (2 ^ pow)) τ T)
    (hcell : mem.cell = q.mem.cell) (n : Side → ℕ) (pos : ℕ) (cell : Cell τ T) :
    Queue.current { q with mem := mem.setCell (Ring.mask pos) cell } n
      = (q.current n).setSlot pos cell.val := by
  have hbuf : (fun i => ((mem.setCell (Ring.mask pos) cell).cell i).val)
      = Ring.set (fun i => (q.mem.cell i).val) pos cell.val := by
    funext i
    by_cases heq : i = Ring.mask pos
    · subst heq
      rw [WeakMemory.Mem.cell_setCell_self, Ring.set, Function.update_self]
    · rw [WeakMemory.Mem.cell_setCell_of_ne _ _ heq, Ring.set, Function.update_of_ne heq, hcell]
  simp [current, Spsc.Queue.setSlot, hbuf]

variable [DecidableEq τ]

namespace Holds

variable {s : State τ T pow} {n : Side → ℕ} {stored : List T} {q : Queue τ T pow} {op : Op T}

/-- The push goes on. -/
theorem pushOn (h : Holds s n stored) {c : Call T}
    (hinv : Inv (q.current n) (some (op, c)) (s.call .consumer) stored)
    (hmem : MemOk q.mem s.holder n q.cache s.told) :
    Holds (s.advance .producer op q (.inl c)) n stored :=
  ⟨h.serial, hinv, hmem, h.count⟩

/-- The pop goes on. -/
theorem popOn (h : Holds s n stored) {c : Call T}
    (hinv : Inv (q.current n) (s.call .producer) (some (op, c)) stored)
    (hmem : MemOk q.mem s.holder n q.cache s.told) :
    Holds (s.advance .consumer op q (.inl c)) n stored :=
  ⟨h.serial, hinv, hmem, h.count⟩

/-- **A step of a push.** -/
theorem stepPush (h : Holds s n stored) {c : Call T} (hc : s.call .producer = some (op, c))
    {r : Call T ⊕ Outcome T} (hstep : ExecStep s.queue (s.holder .producer) c q r) :
    ∃ n' stored', Holds (s.advance .producer op q r) n' stored' := by
  have hok := h.inv.pushOk op c hc
  have htail := h.inv.tail_eq
  have hle := h.inv.tail_le
  have hhead := h.inv.headCache_le
  have hnot : (∀ t, c ≠ pushStoreTail t) → ¬ Writing (s.call .producer) := by
    rintro hne ⟨op', t, hw⟩
    exact hne t (Prod.mk.inj (Option.some.inj (hc.symm.trans hw))).2
  cases hstep with
  -- the own counter is read as it is; then the copy of the other decides
  | pushReload val tail stamp mem hload heq =>
    obtain ⟨rfl, hcell, hmem⟩ := h.memOk.loadOwn hload
    refine ⟨n, stored, h.pushOn ?_ hmem⟩
    rw [Queue.current_mem s.queue hcell]
    refine h.inv.movePush hhead le_rfl (hnot nofun) fun op' call' hp' => ?_
    obtain ⟨rfl, rfl⟩ := Prod.mk.inj (Option.some.inj hp')
    exact ⟨hok, rfl⟩
  | pushCached val tail stamp mem hload hne =>
    obtain ⟨rfl, hcell, hmem⟩ := h.memOk.loadOwn hload
    refine ⟨n, stored, h.pushOn ?_ hmem⟩
    rw [Queue.current_mem s.queue hcell]
    refine h.inv.movePush hhead le_rfl (hnot nofun) fun op' call' hp' => ?_
    obtain ⟨rfl, rfl⟩ := Prod.mk.inj (Option.some.inj hp')
    exact ⟨hok, rfl, Nat.lt_of_le_of_ne hle hne⟩
  | pushFull val tail head stamp mem hload heq =>
    -- the head that was read may be old, but is not behind the copy
    obtain ⟨hge, hlt, -, hcell, hmem⟩ := h.memOk.reload hload
    rw [← Queue.cache_head s.queue mem] at hmem
    refine ⟨n, stored, ?_, ?_, hmem, ?_⟩
    · rw [State.advance, accepted_snoc_of_some rfl]
      exact h.serial
    · show Inv (Queue.current { s.queue with mem, headCache := head } n) none
        (s.call .consumer) stored
      rw [Queue.current_head s.queue hcell]
      exact h.inv.movePush hlt hge (hnot nofun) nofun
    · rw [State.advance, popped_snoc]
      simpa using h.count
  | pushRoom val tail head stamp mem hload hne =>
    obtain ⟨hge, hlt, -, hcell, hmem⟩ := h.memOk.reload hload
    rw [← Queue.cache_head s.queue mem] at hmem
    obtain ⟨hop, rfl⟩ := hok
    refine ⟨n, stored, h.pushOn ?_ hmem⟩
    rw [Queue.current_head s.queue hcell]
    refine h.inv.movePush hlt hge (hnot nofun) fun op' call' hp' => ?_
    obtain ⟨rfl, rfl⟩ := Prod.mk.inj (Option.some.inj hp')
    refine ⟨hop, rfl, Nat.lt_of_le_of_ne (hle.trans (Nat.add_le_add_right hge _)) hne⟩
  -- there is room by the copy of the head, so the slot has been handed over
  | pushWrite val tail mem hwrite =>
    obtain ⟨hop, rfl, hlt⟩ := hok
    obtain ⟨-, -, rfl⟩ := WeakMemory.Mem.write_cases hwrite
    refine ⟨n, stored, h.pushOn ?_ (h.memOk.access (k := .producer) h.inv.tailCache_le ?_ ?_ ?_)⟩
    · rw [Queue.current_setCell s.queue (s.queue.mem.tick (s.holder .producer)) rfl]
      exact h.inv.write hc
    · exact hlt.trans_le (Nat.add_le_add_right hhead _)
    · intro w hw
      obtain rfl := Option.some.inj hw
      exact WeakMemory.Mem.knows_access
    · exact fun v _ => nofun
  -- the store is where the push takes effect
  | pushStoreTail tail stamp mem hstore =>
    obtain ⟨rfl, hlt, -⟩ := hok
    obtain ⟨hcell, hmem⟩ := h.memOk.publish (k := .producer) hstore
    obtain ⟨happly, hinv⟩ := h.inv.storeTail hc
    refine ⟨_, (Fifo.apply (2 ^ pow) stored op).1, ?_, ?_, hmem, ?_⟩
    · rw [State.advance, accepted_snoc_of_none rfl]
      exact h.serial.snoc happly
    · show Inv (Queue.current { s.queue with mem } _) none (s.call .consumer) _
      rw [Queue.current_mem s.queue hcell]
      exact hinv
    · rw [State.advance, popped_snoc]
      simpa using h.count
  | _ => exact hok.elim

/-- **A step of a pop.** -/
theorem stepPop (h : Holds s n stored) {c : Call T} (hc : s.call .consumer = some (op, c))
    {r : Call T ⊕ Outcome T} (hstep : ExecStep s.queue (s.holder .consumer) c q r) :
    ∃ n' stored', Holds (s.advance .consumer op q r) n' stored' := by
  have hok := h.inv.popOk op c hc
  have htail := h.inv.tail_eq
  have hle := h.inv.tailCache_le
  have hhead := h.inv.head_le
  have hnot : (∀ head val, c ≠ popStoreHead head val) → ¬ Reading (s.call .consumer) := by
    rintro hne ⟨op', head, val, hr⟩
    exact hne head val (Prod.mk.inj (Option.some.inj (hc.symm.trans hr))).2
  cases hstep with
  -- as for a push, with the sides exchanged
  | popReload head stamp mem hload heq =>
    obtain ⟨rfl, hcell, hmem⟩ := h.memOk.loadOwn (k := .consumer) hload
    refine ⟨n, stored, h.popOn ?_ hmem⟩
    rw [Queue.current_mem s.queue hcell]
    refine h.inv.movePop hle le_rfl (hnot nofun) fun op' call' hc' => ?_
    obtain ⟨rfl, rfl⟩ := Prod.mk.inj (Option.some.inj hc')
    exact ⟨hok, rfl⟩
  | popCached head stamp mem hload hne =>
    obtain ⟨rfl, hcell, hmem⟩ := h.memOk.loadOwn (k := .consumer) hload
    refine ⟨n, stored, h.popOn ?_ hmem⟩
    rw [Queue.current_mem s.queue hcell]
    refine h.inv.movePop hle le_rfl (hnot nofun) fun op' call' hc' => ?_
    obtain ⟨rfl, rfl⟩ := Prod.mk.inj (Option.some.inj hc')
    exact ⟨hok, rfl, Nat.lt_of_le_of_ne hhead (Ne.symm hne)⟩
  | popEmpty head tail stamp mem hload heq =>
    obtain ⟨hge, hlt, -, hcell, hmem⟩ := h.memOk.reload (k := .consumer) hload
    rw [← Queue.cache_tail s.queue mem] at hmem
    refine ⟨n, stored, ?_, ?_, hmem, ?_⟩
    · rw [State.advance, accepted_snoc_of_some rfl]
      exact h.serial
    · show Inv (Queue.current { s.queue with mem, tailCache := tail } n) (s.call .producer) none
        stored
      rw [Queue.current_tail s.queue hcell]
      exact h.inv.movePop hlt hge (hnot nofun) nofun
    · rw [State.advance, popped_snoc]
      simpa using h.count
  | popSome head tail stamp mem hload hne =>
    obtain ⟨hge, hlt, -, hcell, hmem⟩ := h.memOk.reload (k := .consumer) hload
    rw [← Queue.cache_tail s.queue mem] at hmem
    obtain ⟨hop, rfl⟩ := hok
    refine ⟨n, stored, h.popOn ?_ hmem⟩
    rw [Queue.current_tail s.queue hcell]
    refine h.inv.movePop hlt hge (hnot nofun) fun op' call' hc' => ?_
    obtain ⟨rfl, rfl⟩ := Prod.mk.inj (Option.some.inj hc')
    exact ⟨hop, rfl, Nat.lt_of_le_of_ne (hhead.trans hge) (Ne.symm hne)⟩
  -- reading takes the value out, and the slot has to be remembered as read
  | popRead head val mem htake =>
    obtain ⟨hop, rfl, hlt⟩ := hok
    obtain ⟨-, hval, rfl⟩ := WeakMemory.Mem.take_cases htake
    refine ⟨n, stored, h.popOn ?_ (h.memOk.access (k := .consumer) h.inv.headCache_le ?_ ?_ ?_)⟩
    · rw [Queue.current_setCell s.queue (s.queue.mem.tick (s.holder .consumer)) rfl]
      exact h.inv.read hc hval
    · exact hlt.trans_le hle
    · intro r hr
      rcases List.mem_cons.mp hr with rfl | hold
      · exact WeakMemory.Mem.knows_access
      · exact (h.memOk.mine .consumer _ r hold).trans (Mem.le_view_see ..)
    · exact fun v hdone => hdone
  -- the store is where the pop takes effect
  | popStoreHead head stamp val mem hstore =>
    obtain ⟨hop, rfl, hlt, hslot, hfirst⟩ := hok
    obtain ⟨hcell, hmem⟩ := h.memOk.publish (k := .consumer) hstore
    obtain ⟨happly, hinv⟩ := h.inv.storeHead hc
    refine ⟨_, (Fifo.apply (2 ^ pow) stored op).1, ?_, ?_, hmem, ?_⟩
    · rw [State.advance, accepted_snoc_of_none rfl]
      exact h.serial.snoc happly
    · show Inv (Queue.current { s.queue with mem } _) (s.call .producer) none _
      rw [Queue.current_mem s.queue hcell]
      exact hinv
    · rw [State.advance, popped_snoc, Function.update_self, h.count]
      simp
  | _ => exact hok.elim

end Holds

theorem holds_init (t₀ : τ) :
    Holds (system τ T pow t₀).init (fun _ => 0) [] := by
  refine ⟨Fifo.Serial.nil _, ?_, ?_, rfl⟩
  · refine ⟨rfl, le_rfl, Nat.zero_le _, le_rfl, le_rfl, nofun, nofun, nofun, ?_⟩
    exact fun pos _ _ => Or.inl rfl
  · have hcache : (Queue.empty pow : Queue τ T pow).cache = fun _ => 0 := by
      funext k
      cases k <;> rfl
    show MemOk _ _ _ (Queue.empty pow : Queue τ T pow).cache _
    rw [hcache]
    exact memOk_start t₀

/-- **Every reachable state has the invariant.** -/
theorem holds_of_reachable {t₀ : τ} {s : State τ T pow}
    (hs : (system τ T pow t₀).Reachable s) : ∃ n stored, Holds s n stored := by
  refine System.ReachableWhile.invariant (I := fun s => ∃ n stored, Holds s n stored) hs
    ⟨_, _, holds_init t₀⟩ ?_
  rintro s a s' _ ⟨n, stored, h⟩ _ hnext
  rcases system_next_cases hnext with
    ⟨op, hnone, rfl⟩ | ⟨side, op, c, q, r, hc, hstep, rfl⟩ | ⟨side, t, hnone, rfl⟩ | ⟨t, u, rfl⟩
  · refine ⟨n, stored, h.serial, ?_, h.memOk, h.count⟩
    cases op with
    | push val =>
      refine h.inv.movePush h.inv.headCache_le le_rfl ?_ fun op call hcall => ?_
      · rintro ⟨op, t, hw⟩
        cases hnone.symm.trans hw
      · obtain ⟨rfl, rfl⟩ := Prod.mk.inj (Option.some.inj hcall)
        exact rfl
    | pop =>
      refine h.inv.movePop h.inv.tailCache_le le_rfl ?_ fun op call hcall => ?_
      · rintro ⟨op, pos, val, hr⟩
        cases hnone.symm.trans hr
      · obtain ⟨rfl, rfl⟩ := Prod.mk.inj (Option.some.inj hcall)
        exact rfl
  · cases side with
    | producer => exact h.stepPush hc hstep
    | consumer => exact h.stepPop hc hstep
  · refine ⟨n, stored, h.serial, h.inv, (h.memOk.join t (s.holder side)).send ?_, h.count⟩
    exact s.queue.mem.view_join_le t (s.holder side)
  · exact ⟨n, stored, h.serial, h.inv, h.memOk.join t u, h.count⟩

/-! ## Soundness

No access races with another, none finds a slot empty that should have a value, and what is popped
is what was pushed, in order. -/

/-- **What holds at any time**, with these values stored. -/
structure Sound (s : State τ T pow) (stored : List T) : Prop where
  /-- **No call is stuck**: no access races, and no slot without a value is
  read. -/
  defined : ∀ side op c, s.call side = some (op, c) →
    ∃ stamp r, exec s.queue (s.holder side) stamp c = some r
  /-- The producer writes a slot that is empty, after all that was done to it. -/
  write : ∀ op val tail, s.call .producer = some (op, pushWrite val tail) →
    (s.queue.mem.cell (Ring.mask tail)).val = none
      ∧ (s.queue.mem.write (s.holder .producer) (Ring.mask tail) val).isSome
  /-- The consumer reads the oldest value, after it was written. -/
  read : ∀ op head, s.call .consumer = some (op, popRead head) →
    ∃ val mem, stored.head? = some val
      ∧ s.queue.mem.take (s.holder .consumer) (Ring.mask head) = some (mem, val)
  /-- The calls that succeeded are a run of the bounded FIFO, in the order in
  which they returned. -/
  serial : Fifo.Serial (2 ^ pow) (accepted s.history) stored
  /-- What was pushed was popped or is stored, in the order it was pushed. -/
  accounted : Fifo.pushed s.history = Fifo.popped s.history ++ stored
  capacity : stored.length ≤ 2 ^ pow
  /-- **A push gives its value back** only when the pops its thread was told of
  leave no room. -/
  full : ∀ op c stamp q val, s.call .producer = some (op, c) →
    exec s.queue (s.holder .producer) stamp c = some (q, .inr (.full val)) → op = .push val
      ∧ s.told (s.holder .producer) .consumer + 2 ^ pow ≤ (Fifo.pushed s.history).length
  /-- **A pop gives up** only when it has had all the pushes its thread was told
  of. -/
  empty : ∀ op c stamp q, s.call .consumer = some (op, c) →
    exec s.queue (s.holder .consumer) stamp c = some (q, .inr .empty) →
      s.told (s.holder .consumer) .producer ≤ (Fifo.popped s.history).length

theorem pushed_accepted (history : List (Op T × Outcome T)) :
    Fifo.pushed (accepted history) = Fifo.pushed history := by
  induction history with
  | nil => rfl
  | cons call history ih =>
    obtain ⟨op, o⟩ := call
    cases op <;> cases o <;> simpa [accepted, Fifo.pushed, Outcome.retry] using ih

theorem popped_accepted (history : List (Op T × Outcome T)) :
    Fifo.popped (accepted history) = Fifo.popped history := by
  induction history with
  | nil => rfl
  | cons call history ih =>
    obtain ⟨op, o⟩ := call
    cases op <;> cases o <;> simpa [accepted, Fifo.popped, Outcome.retry] using ih

namespace Holds

variable {s : State τ T pow} {n : Side → ℕ} {stored : List T} (h : Holds s n stored)

include h

omit [DecidableEq τ] in
theorem pushed_eq_append : Fifo.pushed s.history = Fifo.popped s.history ++ stored := by
  rw [← pushed_accepted, ← popped_accepted]
  exact h.serial.pushed_eq

omit [DecidableEq τ] in
theorem length_pushed : (Fifo.pushed s.history).length = n .producer := by
  rw [h.pushed_eq_append, List.length_append, ← h.count]
  exact h.inv.tail_eq.symm

/-- **The producer's write is ordered** after all that was done to its slot. -/
theorem write {op : Op T} {val : T} {tail : ℕ}
    (hc : s.call .producer = some (op, pushWrite val tail)) :
    (s.queue.mem.cell (Ring.mask tail)).val = none
      ∧ ∃ mem, s.queue.mem.write (s.holder .producer) (Ring.mask tail) val = some mem := by
  obtain ⟨-, rfl, hlt⟩ := h.inv.pushOk _ _ hc
  have hhead := h.inv.headCache_le
  refine ⟨?_, Mem.exists_write (h.memOk.mine .producer _) (h.memOk.handed .producer _ le_rfl hlt)
    val⟩
  refine (h.inv.free _ le_rfl (by omega)).resolve_right fun ⟨_, op', t', hw⟩ => ?_
  cases hc.symm.trans hw

/-- **The consumer's read is ordered** after the write of its slot. -/
theorem read {op : Op T} {head : ℕ} (hc : s.call .consumer = some (op, popRead head)) :
    ∃ val mem, stored.head? = some val
      ∧ s.queue.mem.take (s.holder .consumer) (Ring.mask head) = some (mem, val) := by
  obtain ⟨-, rfl, hlt⟩ := h.inv.popOk _ _ hc
  have htail := h.inv.tail_eq
  have hle := h.inv.tailCache_le
  have hpos : 0 < stored.length := by omega
  have hslot := (h.inv.published 0 hpos).resolve_right fun ⟨_, op', pos', val, hr⟩ => by
    cases hc.symm.trans hr
  obtain ⟨mem, htake⟩ := Mem.exists_take (h.memOk.handed .consumer _ le_rfl hlt) hslot
  exact ⟨stored[0], mem, by rw [List.head?_eq_getElem?, List.getElem?_eq_getElem hpos], htake⟩

/-- **No call is stuck.** -/
theorem defined {side : Side} {op : Op T} {c : Call T} (hc : s.call side = some (op, c)) :
    ∃ stamp r, exec s.queue (s.holder side) stamp c = some r := by
  have hclosed := h.memOk.closed
  have hload : ∀ l order, ∃ stamp mem val,
      s.queue.mem.load (s.holder side) l order stamp = some (mem, val) := fun l order => by
    obtain ⟨stamp, ⟨mem, val⟩, hload⟩ := hclosed.exists_load (s.holder side) l order
    exact ⟨stamp, mem, val, hload⟩
  cases c with
  | pushLoadTail val =>
    obtain ⟨stamp, mem, tail, hload⟩ := hload .tail .relaxed
    exact ⟨stamp, by simp [exec, hload]⟩
  | pushLoadHead val tail =>
    obtain ⟨stamp, mem, head, hload⟩ := hload .head .acquire
    exact ⟨stamp, by simp [exec, hload]⟩
  | pushWrite val tail =>
    cases side with
    | producer =>
      obtain ⟨-, mem, hwrite⟩ := h.write hc
      exact ⟨0, by simp [exec, hwrite]⟩
    | consumer => exact (h.inv.popOk _ _ hc).elim
  | pushStoreTail tail =>
    obtain ⟨stamp, mem, hstore⟩ := hclosed.exists_store (s.holder side) .tail (tail + 1) .release
    exact ⟨stamp, by simp [exec, hstore]⟩
  | popLoadHead =>
    obtain ⟨stamp, mem, head, hload⟩ := hload .head .relaxed
    exact ⟨stamp, by simp [exec, hload]⟩
  | popLoadTail head =>
    obtain ⟨stamp, mem, tail, hload⟩ := hload .tail .acquire
    exact ⟨stamp, by simp [exec, hload]⟩
  | popRead head =>
    cases side with
    | producer => exact (h.inv.pushOk _ _ hc).elim
    | consumer =>
      obtain ⟨val, mem, -, htake⟩ := h.read hc
      exact ⟨0, by simp [exec, htake]⟩
  | popStoreHead head val =>
    obtain ⟨stamp, mem, hstore⟩ := hclosed.exists_store (s.holder side) .head (head + 1) .release
    exact ⟨stamp, by simp [exec, hstore]⟩

/-- **A full queue** is one that the pops known of have not made room in. -/
theorem full {op : Op T} {c : Call T} {stamp : ℕ} {q : Queue τ T pow} {val : T}
    (hc : s.call .producer = some (op, c))
    (hexec : exec s.queue (s.holder .producer) stamp c = some (q, .inr (.full val))) :
    op = .push val
      ∧ s.told (s.holder .producer) .consumer + 2 ^ pow ≤ (Fifo.pushed s.history).length := by
  have hok := h.inv.pushOk _ _ hc
  cases execStep_of_exec hexec with
  | pushFull val tail head stamp mem hload heq =>
    obtain ⟨hop, rfl⟩ := hok
    obtain ⟨-, -, htold, -⟩ := h.memOk.reload (k := .producer) hload
    refine ⟨hop, ?_⟩
    rw [h.length_pushed]
    exact (Nat.add_le_add_right htold _).trans heq.ge

/-- **An empty queue** is one of which the pushes known of were popped. -/
theorem empty {op : Op T} {c : Call T} {stamp : ℕ} {q : Queue τ T pow}
    (hc : s.call .consumer = some (op, c))
    (hexec : exec s.queue (s.holder .consumer) stamp c = some (q, .inr .empty)) :
    s.told (s.holder .consumer) .producer ≤ (Fifo.popped s.history).length := by
  have hok := h.inv.popOk _ _ hc
  cases execStep_of_exec hexec with
  | popEmpty head tail stamp mem hload heq =>
    obtain ⟨hop, rfl⟩ := hok
    obtain ⟨-, -, htold, -⟩ := h.memOk.reload (k := .consumer) hload
    rw [← h.count]
    exact htold.trans heq.le

/-- **What the invariant means.** -/
theorem sound : Sound s stored where
  defined _ _ _ := h.defined
  write _ _ _ hc := ⟨(h.write hc).1, Option.isSome_iff_exists.mpr (h.write hc).2⟩
  read _ _ := h.read
  serial := h.serial
  accounted := h.pushed_eq_append
  capacity := by
    have htail := h.inv.tail_eq
    have hle := h.inv.tail_le
    have hhead := h.inv.headCache_le
    omega
  full _ _ _ _ _ := h.full
  empty _ _ _ _ := h.empty

end Holds

/-- **The orderings suffice**: with any capacity, the two sides making calls and
taking their steps in any order, whatever stores their loads read and whichever
threads have the handles, `Sound` holds at any time. -/
theorem suffices_of_reachable {t₀ : τ} {s : State τ T pow} (hs : (system τ T pow t₀).Reachable s) :
    ∃ stored, Sound s stored := by
  obtain ⟨n, stored, h⟩ := holds_of_reachable hs
  exact ⟨stored, h.sound⟩

/-- One slot, the producer with one thread and the consumer with another: a pop
that reads the old tail and finds nothing, one that reads the new one, a push
that reads the old head and finds no room, and one of a thread that was told of
the pop. -/
def stale : List (Action Bool ℕ) :=
  [.send .consumer true, .call (.push 7), .step .producer 0, .step .producer 0, .step .producer 4,
    .call .pop, .step .consumer 0, .step .consumer 0,
    .call .pop, .step .consumer 0, .step .consumer 4, .step .consumer 0, .step .consumer 2,
    .call (.push 8), .step .producer 4, .step .producer 0, .join false true,
    .call (.push 9), .step .producer 4, .step .producer 2, .step .producer 0, .step .producer 6]

theorem suffices_of_reachable_stale :
    ∃ s stored, (system Bool ℕ 0 false).run (system Bool ℕ 0 false).init stale = some s
      ∧ s.history = [(.push 7, .pushed), (.pop, .empty), (.pop, .popped 7), (.push 8, .full 8),
        (.push 9, .pushed)]
      ∧ Sound s stored := by
  have hrun : ((system Bool ℕ 0 false).run (system Bool ℕ 0 false).init stale).map State.history
      = some [(.push 7, .pushed), (.pop, .empty), (.pop, .popped 7), (.push 8, .full 8),
        (.push 9, .pushed)] := by decide +kernel
  obtain ⟨s, hs, hhistory⟩ := Option.map_eq_some_iff.mp hrun
  obtain ⟨stored, hsound⟩ := suffices_of_reachable (System.Reachable.of_run hs)
  exact ⟨s, stored, hs, hhistory, hsound⟩

/-! ## Dropping the queue

The handle that is dropped last has seen what the other side has seen, by the counting of the
handles, and with it the counters as they are. -/

/-- **The drop of an idle queue** by a thread that knows what the holders of the
handles have done: its relaxed loads read the counters as they are, it races
with nothing, and it drops what is stored. -/
theorem Holds.drop {s : State τ T pow} {n : Side → ℕ} {stored : List T} (h : Holds s n stored)
    (hidle : ∀ side, s.call side = none) {t : τ}
    (harc : ∀ side, s.queue.mem.view (s.holder side) ≤ s.queue.mem.view t)
    {headStamp tailStamp head tail : ℕ} {mem mem' : Mem Loc (Fin (2 ^ pow)) τ T}
    (hhead : s.queue.mem.load t .head .relaxed headStamp = some (mem, head))
    (htail : mem.load t .tail .relaxed tailStamp = some (mem', tail)) :
    ∃ q, drop true s.queue t headStamp tailStamp = some (q, stored) := by
  have hlen : n .producer = n .consumer + stored.length := h.inv.tail_eq
  have hlap : n .producer ≤ s.queue.headCache + 2 ^ pow := h.inv.tail_le
  have hcache : s.queue.headCache ≤ n .consumer := h.inv.headCache_le
  obtain ⟨rfl, hcell, hmem⟩ := (h.memOk.gather harc).loadOwn (k := .consumer) hhead
  obtain ⟨rfl, hcell', hmem'⟩ := hmem.loadOwn (k := .producer) htail
  have hval : ∀ i (hi : i < stored.length),
      (mem'.cell (Ring.mask (n .consumer + i))).val = some stored[i] := fun i hi => by
    rw [hcell', hcell]
    refine (h.inv.published i hi).resolve_right fun ⟨_, op, pos, val, hr⟩ => ?_
    cases (hidle .consumer).symm.trans hr
  obtain ⟨mem'', hwalk, -⟩ := Ring.walk_eq (dropSlot t)
    (fun pos mem => mem'.view t ≤ mem.view t ∧ ∀ p, pos ≤ p → p < n .producer →
      mem.cell (Ring.mask p) = mem'.cell (Ring.mask p)) stored (n .consumer)
    ⟨le_rfl, fun _ _ _ => rfl⟩ fun i hi mem ⟨hview, hsame⟩ => by
      have heq := hsame (n .consumer + i) le_rfl (by omega)
      have hwritten : (mem.cell (Ring.mask (n .consumer + i))).Written (mem.view t) := by
        rw [heq]
        exact Cell.Written.mono (hmem'.mine .producer _) hview
      obtain ⟨mem₁, htake⟩ := Mem.exists_take hwritten (by rw [heq, hval i hi])
      refine ⟨mem₁, by simp [dropSlot, htake], ?_⟩
      obtain ⟨-, -, rfl⟩ := WeakMemory.Mem.take_cases htake
      refine ⟨hview.trans (mem.le_view_see t t _), fun p hle hlt => ?_⟩
      rw [WeakMemory.Mem.cell_setCell_of_ne _ _ (Ring.mask_ne_mask (by omega) (by omega)).symm]
      exact hsame p (by omega) hlt
  have hsub : n .producer - n .consumer = stored.length := by omega
  exact ⟨{ s.queue with mem := mem'' }, by simp [Weak.drop, hhead, htail, hsub, hwalk]⟩

/-- **Dropping the queue**: once no call is under way, a thread that knows what
the holders of the handles have done – as the last one to give up its `Arc`
does – can drop the queue, and drops exactly the values that were pushed and
not popped. -/
theorem drop_of_reachable {t₀ : τ} {s : State τ T pow} (hs : (system τ T pow t₀).Reachable s)
    (hidle : ∀ side, s.call side = none) {t : τ}
    (harc : ∀ side, s.queue.mem.view (s.holder side) ≤ s.queue.mem.view t) :
    ∃ vals, Fifo.pushed s.history = Fifo.popped s.history ++ vals
      ∧ (∃ headStamp tailStamp q, drop true s.queue t headStamp tailStamp = some (q, vals))
      ∧ ∀ headStamp tailStamp mem head mem' tail,
        s.queue.mem.load t .head .relaxed headStamp = some (mem, head) →
        mem.load t .tail .relaxed tailStamp = some (mem', tail) →
          ∃ q, drop true s.queue t headStamp tailStamp = some (q, vals) := by
  obtain ⟨n, stored, h⟩ := holds_of_reachable hs
  refine ⟨stored, h.pushed_eq_append, ?_, fun _ _ _ _ _ _ => h.drop hidle harc⟩
  obtain ⟨headStamp, ⟨mem, head⟩, hhead⟩ := h.memOk.closed.exists_load t .head .relaxed
  obtain ⟨tailStamp, ⟨mem', tail⟩, htail⟩ :=
    (h.memOk.closed.load hhead).exists_load t .tail .relaxed
  exact ⟨headStamp, tailStamp, h.drop hidle harc hhead htail⟩

/-- The producer's thread learns what the consumer's has done, and drops the
queue with the value that was pushed last. -/
theorem drop_of_reachable_stale :
    ∃ s, (system Bool ℕ 0 false).run (system Bool ℕ 0 false).init
        (stale ++ [.join false true]) = some s
      ∧ ∃ headStamp tailStamp q, drop true s.queue false headStamp tailStamp = some (q, [9]) := by
  have hrun : ((system Bool ℕ 0 false).run (system Bool ℕ 0 false).init stale).map
      (fun s => (s.history, s.holder .producer, s.holder .consumer))
      = some ([(.push 7, .pushed), (.pop, .empty), (.pop, .popped 7), (.push 8, .full 8),
        (.push 9, .pushed)], false, true) := by decide +kernel
  have hidle : ∀ side, ((system Bool ℕ 0 false).run (system Bool ℕ 0 false).init stale).map
      (fun s => s.call side) = some none := by decide +kernel
  obtain ⟨s, hs, hp⟩ := Option.map_eq_some_iff.mp hrun
  simp only [Prod.mk.injEq] at hp
  obtain ⟨hhistory, hproducer, hconsumer⟩ := hp
  have hend : (system Bool ℕ 0 false).run (system Bool ℕ 0 false).init
      (stale ++ [.join false true]) = some (s.join false true) := System.run_append hs rfl
  obtain ⟨vals, hvals, hdrop, -⟩ := drop_of_reachable (t := false) (System.Reachable.of_run hend)
    (fun side => by
      have hside := hidle side
      rw [hs] at hside
      exact Option.some.inj hside) fun side => by
      cases side with
      | producer => exact le_of_eq (congrArg _ hproducer)
      | consumer =>
        rw [show (s.join false true).holder .consumer = true from hconsumer]
        exact s.queue.mem.view_join_le false true
  have hhistory' : (s.join false true).history = s.history := rfl
  rw [hhistory', hhistory] at hvals
  obtain rfl : vals = [9] := by simpa [Fifo.pushed, Fifo.popped] using hvals.symm
  exact ⟨s.join false true, hend, hdrop⟩

end Spsc.Weak
