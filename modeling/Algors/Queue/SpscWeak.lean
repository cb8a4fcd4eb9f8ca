import Algors.Lib.WeakMemory
import Algors.Queue.SpscLinear

/-!
# The single-producer single-consumer queue under weak memory

The queue of `Algors.Queue.Spsc` with the orderings its atomic accesses are
written with. The counters are atomic variables, the slots plain cells: a side
loads its own counter relaxed, reloads that of the other side with acquire, and
publishes with release. A relaxed or an acquire load may read an old store, so
a side may find the queue full, or empty, when it no longer is; and a slot may
be accessed only by a side that knows that the other one is done with it, or
the access races.

The two handles are sent from thread to thread between calls, and the threads
synchronise by other means as they like: what a thread was told in this way, by
these means and by making calls itself, is how many pushes and pops are known
to it to be done.
-/

namespace Spsc.Weak

variable {T τ : Type} {pow : ℕ}

open WeakMemory (Mem View MemOrder Cell Message)
open Fifo (Op Outcome Side)
open Call

/-! ## The queue -/

/-- The atomic variables. -/
inductive Loc where
  | head
  | tail
deriving DecidableEq

/-- **The queue with its two handles**, in memory. -/
structure Queue (τ T : Type) (pow : ℕ) where
  mem : Mem Loc (Fin (2 ^ pow)) τ T
  headCache : ℕ
  tailCache : ℕ

namespace Queue

/-- What `new_spsc` builds: both counters are stored, and no slot is written. -/
def empty (pow : ℕ) : Queue τ T pow := ⟨.start fun _ => 0, 0, 0⟩

/-- `Inner::len`. -/
def len (_self : Queue τ T pow) : ℕ := 2 ^ pow

end Queue

variable [DecidableEq τ]

/-- **One step of a call** of thread `t`; where it is an atomic access, the
stamp tells which store is read or where the new one is put. A race and a read
of a slot with no value are undefined, and have no result. -/
def exec (q : Queue τ T pow) (t : τ) (stamp : ℕ) :
    Call T → Option (Queue τ T pow × (Call T ⊕ Outcome T))
  | pushLoadTail val =>
    (q.mem.load t .tail .relaxed stamp).map fun (mem, tail) =>
      let q := { q with mem }
      if (tail : ℤ) - q.headCache = q.len then (q, .inl (pushLoadHead val tail))
      else (q, .inl (pushWrite val tail))
  | pushLoadHead val tail =>
    (q.mem.load t .head .acquire stamp).map fun (mem, headCache) =>
      let q := { q with mem, headCache }
      if (tail : ℤ) - q.headCache = q.len then (q, .inr (.full val))
      else (q, .inl (pushWrite val tail))
  | pushWrite val tail =>
    (q.mem.write t (Ring.mask tail) val).map fun mem =>
      ({ q with mem }, .inl (pushStoreTail tail))
  | pushStoreTail tail =>
    (q.mem.store t .tail (tail + 1) .release stamp).map fun mem => ({ q with mem }, .inr .pushed)
  | popLoadHead =>
    (q.mem.load t .head .relaxed stamp).map fun (mem, head) =>
      let q := { q with mem }
      if (q.tailCache : ℤ) - head = 0 then (q, .inl (popLoadTail head))
      else (q, .inl (popRead head))
  | popLoadTail head =>
    (q.mem.load t .tail .acquire stamp).map fun (mem, tailCache) =>
      let q := { q with mem, tailCache }
      if (q.tailCache : ℤ) - head = 0 then (q, .inr .empty)
      else (q, .inl (popRead head))
  | popRead head =>
    (q.mem.take t (Ring.mask head)).map fun (mem, val) =>
      ({ q with mem }, .inl (popStoreHead head val))
  | popStoreHead head val =>
    (q.mem.store t .head (head + 1) .release stamp).map fun mem =>
      ({ q with mem }, .inr (.popped val))

/-- The body of the loop of `Inner::drop`. -/
def dropSlot (t : τ) (idx : ℕ) (mem : Mem Loc (Fin (2 ^ pow)) τ T) :
    Option (Mem Loc (Fin (2 ^ pow)) τ T × List T) :=
  (mem.take t (Ring.mask idx)).map fun (mem, val) => (mem, [val])

/-- **`Inner::drop`** by thread `t`, with the values it drops; the stamps tell
which stores its loads read. -/
def drop (needsDrop : Bool) (q : Queue τ T pow) (t : τ) (headStamp tailStamp : ℕ) :
    Option (Queue τ T pow × List T) :=
  if needsDrop = false then some (q, [])
  else
    (q.mem.load t .head .relaxed headStamp).bind fun (mem, head) =>
      (mem.load t .tail .relaxed tailStamp).bind fun (mem, tail) =>
        (Ring.walk (dropSlot t) (tail - head) head mem).map fun (mem, vals) =>
          ({ q with mem }, vals)

/-! ## The threads -/

/-- **The queue with its users**: the thread that has each handle, the calls
under way and those that returned, and for each thread how many calls of each
side that succeeded it knows to be done. -/
structure State (τ T : Type) (pow : ℕ) where
  queue : Queue τ T pow
  holder : Side → τ
  call : Side → Option (Op T × Call T)
  history : List (Op T × Outcome T)
  told : τ → Side → ℕ

/-- What may happen: a side makes a call when it is idle, one of its own kind,
or takes a step of its call; its handle is sent to a thread when it is idle; a
thread learns what another one has done. -/
inductive Action (τ T : Type) where
  | call (op : Op T)
  | step (side : Side) (stamp : ℕ)
  | send (side : Side) (t : τ)
  | join (t u : τ)
deriving DecidableEq

namespace State

/-- A call of a side returns: a success counts, and its thread knows. -/
def tell (s : State τ T pow) (side : Side) (o : Outcome T) : τ → Side → ℕ :=
  if o.retry.isNone then
    Function.update s.told (s.holder side)
      (Function.update (s.told (s.holder side)) side (s.told (s.holder side) side + 1))
  else s.told

/-- The state after the call of a side went on to `r`. -/
def advance (s : State τ T pow) (side : Side) (op : Op T) (q : Queue τ T pow) :
    Call T ⊕ Outcome T → State τ T pow
  | .inl c => { s with queue := q, call := Function.update s.call side (some (op, c)) }
  | .inr o =>
    { s with
      queue := q
      call := Function.update s.call side none
      history := s.history ++ [(op, o)]
      told := s.tell side o }

/-- What `u` has done happens before what `t` does from now on. -/
def join (s : State τ T pow) (t u : τ) : State τ T pow :=
  { s with
    queue.mem := s.queue.mem.join t u
    told := Function.update s.told t (s.told t ⊔ s.told u) }

end State

/-- **All interleavings and all choices of stores**, from a queue that thread
`t₀` made. -/
def system (τ T : Type) [DecidableEq τ] (pow : ℕ) (t₀ : τ) :
    System (State τ T pow) (Action τ T) where
  init := ⟨.empty pow, fun _ => t₀, fun _ => none, [], fun _ _ => 0⟩
  next s
    | .call op =>
      match s.call op.side with
      | none => some { s with call := Function.update s.call op.side (some (op, invoke op)) }
      | some _ => none
    | .step side stamp =>
      match s.call side with
      | none => none
      | some (op, c) =>
        (exec s.queue (s.holder side) stamp c).map fun p => s.advance side op p.1 p.2
    | .send side t =>
      match s.call side with
      | none => some
          { s.join t (s.holder side) with holder := Function.update s.holder side t }
      | some _ => none
    | .join t u => some (s.join t u)

/-! ## What each step does -/

/-- **One step of a call**, by what it does to the memory and how it goes on. -/
inductive ExecStep (q : Queue τ T pow) (t : τ) :
    Call T → Queue τ T pow → Call T ⊕ Outcome T → Prop
  | pushReload (val : T) (tail stamp : ℕ) (mem : Mem Loc (Fin (2 ^ pow)) τ T)
      (hload : q.mem.load t .tail .relaxed stamp = some (mem, tail))
      (h : tail = q.headCache + 2 ^ pow) :
      ExecStep q t (pushLoadTail val) { q with mem } (.inl (pushLoadHead val tail))
  | pushCached (val : T) (tail stamp : ℕ) (mem : Mem Loc (Fin (2 ^ pow)) τ T)
      (hload : q.mem.load t .tail .relaxed stamp = some (mem, tail))
      (h : tail ≠ q.headCache + 2 ^ pow) :
      ExecStep q t (pushLoadTail val) { q with mem } (.inl (pushWrite val tail))
  | pushFull (val : T) (tail head stamp : ℕ) (mem : Mem Loc (Fin (2 ^ pow)) τ T)
      (hload : q.mem.load t .head .acquire stamp = some (mem, head)) (h : tail = head + 2 ^ pow) :
      ExecStep q t (pushLoadHead val tail) { q with mem, headCache := head } (.inr (.full val))
  | pushRoom (val : T) (tail head stamp : ℕ) (mem : Mem Loc (Fin (2 ^ pow)) τ T)
      (hload : q.mem.load t .head .acquire stamp = some (mem, head)) (h : tail ≠ head + 2 ^ pow) :
      ExecStep q t (pushLoadHead val tail) { q with mem, headCache := head }
        (.inl (pushWrite val tail))
  | pushWrite (val : T) (tail : ℕ) (mem : Mem Loc (Fin (2 ^ pow)) τ T)
      (hwrite : q.mem.write t (Ring.mask tail) val = some mem) :
      ExecStep q t (pushWrite val tail) { q with mem } (.inl (pushStoreTail tail))
  | pushStoreTail (tail stamp : ℕ) (mem : Mem Loc (Fin (2 ^ pow)) τ T)
      (hstore : q.mem.store t .tail (tail + 1) .release stamp = some mem) :
      ExecStep q t (pushStoreTail tail) { q with mem } (.inr .pushed)
  | popReload (head stamp : ℕ) (mem : Mem Loc (Fin (2 ^ pow)) τ T)
      (hload : q.mem.load t .head .relaxed stamp = some (mem, head)) (h : q.tailCache = head) :
      ExecStep q t popLoadHead { q with mem } (.inl (popLoadTail head))
  | popCached (head stamp : ℕ) (mem : Mem Loc (Fin (2 ^ pow)) τ T)
      (hload : q.mem.load t .head .relaxed stamp = some (mem, head)) (h : q.tailCache ≠ head) :
      ExecStep q t popLoadHead { q with mem } (.inl (popRead head))
  | popEmpty (head tail stamp : ℕ) (mem : Mem Loc (Fin (2 ^ pow)) τ T)
      (hload : q.mem.load t .tail .acquire stamp = some (mem, tail)) (h : tail = head) :
      ExecStep q t (popLoadTail head) { q with mem, tailCache := tail } (.inr .empty)
  | popSome (head tail stamp : ℕ) (mem : Mem Loc (Fin (2 ^ pow)) τ T)
      (hload : q.mem.load t .tail .acquire stamp = some (mem, tail)) (h : tail ≠ head) :
      ExecStep q t (popLoadTail head) { q with mem, tailCache := tail } (.inl (popRead head))
  | popRead (head : ℕ) (val : T) (mem : Mem Loc (Fin (2 ^ pow)) τ T)
      (htake : q.mem.take t (Ring.mask head) = some (mem, val)) :
      ExecStep q t (popRead head) { q with mem } (.inl (popStoreHead head val))
  | popStoreHead (head stamp : ℕ) (val : T) (mem : Mem Loc (Fin (2 ^ pow)) τ T)
      (hstore : q.mem.store t .head (head + 1) .release stamp = some mem) :
      ExecStep q t (popStoreHead head val) { q with mem } (.inr (.popped val))

/-- **Every step is one of these.** -/
theorem execStep_of_exec {q q' : Queue τ T pow} {t : τ} {stamp : ℕ} {c : Call T}
    {r : Call T ⊕ Outcome T} (h : exec q t stamp c = some (q', r)) : ExecStep q t c q' r := by
  cases c with
  | pushLoadTail val =>
    obtain ⟨⟨mem, tail⟩, hload, hp⟩ := Option.map_eq_some_iff.mp h
    dsimp only at hp
    split_ifs at hp with heq <;> obtain ⟨rfl, rfl⟩ := Prod.mk.inj hp
    · exact .pushReload val tail stamp mem hload (by rw [Queue.len] at heq; omega)
    · exact .pushCached val tail stamp mem hload (by rw [Queue.len] at heq; omega)
  | pushLoadHead val tail =>
    obtain ⟨⟨mem, head⟩, hload, hp⟩ := Option.map_eq_some_iff.mp h
    dsimp only at hp
    split_ifs at hp with heq <;> obtain ⟨rfl, rfl⟩ := Prod.mk.inj hp
    · exact .pushFull val tail head stamp mem hload (by rw [Queue.len] at heq; omega)
    · exact .pushRoom val tail head stamp mem hload (by rw [Queue.len] at heq; omega)
  | pushWrite val tail =>
    obtain ⟨mem, hwrite, hp⟩ := Option.map_eq_some_iff.mp h
    obtain ⟨rfl, rfl⟩ := Prod.mk.inj hp
    exact .pushWrite val tail mem hwrite
  | pushStoreTail tail =>
    obtain ⟨mem, hstore, hp⟩ := Option.map_eq_some_iff.mp h
    obtain ⟨rfl, rfl⟩ := Prod.mk.inj hp
    exact .pushStoreTail tail stamp mem hstore
  | popLoadHead =>
    obtain ⟨⟨mem, head⟩, hload, hp⟩ := Option.map_eq_some_iff.mp h
    dsimp only at hp
    split_ifs at hp with heq <;> obtain ⟨rfl, rfl⟩ := Prod.mk.inj hp
    · exact .popReload head stamp mem hload (by omega)
    · exact .popCached head stamp mem hload (by omega)
  | popLoadTail head =>
    obtain ⟨⟨mem, tail⟩, hload, hp⟩ := Option.map_eq_some_iff.mp h
    dsimp only at hp
    split_ifs at hp with heq <;> obtain ⟨rfl, rfl⟩ := Prod.mk.inj hp
    · exact .popEmpty head tail stamp mem hload (by omega)
    · exact .popSome head tail stamp mem hload (by omega)
  | popRead head =>
    obtain ⟨⟨mem, val⟩, htake, hp⟩ := Option.map_eq_some_iff.mp h
    obtain ⟨rfl, rfl⟩ := Prod.mk.inj hp
    exact .popRead head val mem htake
  | popStoreHead head val =>
    obtain ⟨mem, hstore, hp⟩ := Option.map_eq_some_iff.mp h
    obtain ⟨rfl, rfl⟩ := Prod.mk.inj hp
    exact .popStoreHead head stamp val mem hstore

/-- **A step of the system**: a call is made, a side takes a step of its call,
a handle is sent, or a thread learns what another one has done. -/
theorem system_next_cases {t₀ : τ} {s s' : State τ T pow} {a : Action τ T}
    (h : (system τ T pow t₀).next s a = some s') :
    (∃ op, s.call op.side = none
      ∧ s' = { s with call := Function.update s.call op.side (some (op, invoke op)) })
    ∨ (∃ side op c q r, s.call side = some (op, c) ∧ ExecStep s.queue (s.holder side) c q r
      ∧ s' = s.advance side op q r)
    ∨ (∃ side t, s.call side = none ∧ s' =
      { s.join t (s.holder side) with holder := Function.update s.holder side t })
    ∨ ∃ t u, s' = s.join t u := by
  cases a with
  | call op =>
    simp only [system] at h
    cases hc : s.call op.side with
    | none =>
      rw [hc] at h
      exact Or.inl ⟨op, hc, (Option.some.inj h).symm⟩
    | some c => simp [hc] at h
  | step side stamp =>
    simp only [system] at h
    cases hc : s.call side with
    | none => simp [hc] at h
    | some oc =>
      obtain ⟨op, c⟩ := oc
      rw [hc] at h
      obtain ⟨⟨q, r⟩, hexec, rfl⟩ := Option.map_eq_some_iff.mp h
      exact Or.inr (Or.inl ⟨side, op, c, q, r, hc, execStep_of_exec hexec, rfl⟩)
  | send side t =>
    simp only [system] at h
    cases hc : s.call side with
    | none =>
      rw [hc] at h
      exact Or.inr (Or.inr (Or.inl ⟨side, t, hc, (Option.some.inj h).symm⟩))
    | some c => simp [hc] at h
  | join t u => exact Or.inr (Or.inr (Or.inr ⟨t, u, (Option.some.inj h).symm⟩))

end Spsc.Weak
