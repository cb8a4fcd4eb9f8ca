import Algors.Lib.WeakMemory
import Algors.Queue.MpmcSafety

/-!
# The multi-producer multi-consumer queue under weak memory

The queue of `Algors.Queue.Mpmc` with the orderings its atomic accesses are
written with. The counters and the sequence numbers are atomic variables, the
places for the values plain cells. The counters are loaded and exchanged
relaxed, so that an index in hand may be an old one and the exchange is what
tells; the sequence number of a slot is loaded with acquire and stored with
release, and it alone hands the slot from a producer to a consumer and back.

Any number of threads use the queue, and they synchronise by other means as
they like; what a thread was told is what happened to it, and what had happened
to others when it learnt of it.
-/

namespace Mpmc.Weak

variable {T τ : Type} {pow : ℕ} {w : Width pow}

open WeakMemory (Mem View MemOrder)
open Fifo (Op Outcome)
open Call

/-! ## The queue -/

/-- The atomic variables. -/
inductive Loc (pow : ℕ) where
  | head
  | tail
  | seq (i : Fin (2 ^ pow))
deriving DecidableEq

/-- **The queue in memory**: `Inner`, its atomic variables and the data of its
slots. -/
abbrev Inner (τ T : Type) (pow : ℕ) := Mem (Loc pow) (Fin (2 ^ pow)) τ T

/-- The queue `Inner::new` builds: slot `i` is free for position `i`. -/
def Inner.empty (pow : ℕ) : Inner τ T pow :=
  .start fun
    | .head | .tail => 0
    | .seq i => i

variable [DecidableEq τ]

/-- **One step of a call** of thread `t`; where it is an atomic access, the
stamp tells which store is read or where the new one is put, and a
compare-exchange is told whether to fail. A race and a read of a slot with no
value are undefined, and have no result. -/
def exec (w : Width pow) (q : Inner τ T pow) (t : τ) (stamp : ℕ) (spurious : Bool) :
    Call T → Option (Inner τ T pow × (Call T ⊕ Outcome T))
  | pushLoadTail val =>
    (q.load t .tail .relaxed stamp).map fun (q, tail) => (q, .inl (pushLoadSeq val tail))
  | pushLoadSeq val idx =>
    (q.load t (.seq (mask idx)) .acquire stamp).map fun (q, seq) =>
      let diff := w.diff seq idx
      if diff = 0 then (q, .inl (pushCas val idx))
      else if diff < 0 then
        -- data from the previous lap's write, not read yet as far as one can see
        (q, .inr (.full val))
      else
        -- our copy of the tail is stale, so we reload it
        (q, .inl (pushLoadTail val))
  | pushCas val idx =>
    (q.exchange t .tail idx (idx + 1) stamp spurious).map fun
      | (q, .ok _) => (q, .inl (pushWrite val idx))
      | (q, .error newIdx) => (q, .inl (pushLoadSeq val newIdx))
  | pushWrite val idx =>
    (q.write t (mask idx) val).map fun q => (q, .inl (pushStoreSeq idx))
  | pushStoreSeq idx =>
    (q.store t (.seq (mask idx)) (idx + 1) .release stamp).map fun q => (q, .inr .pushed)
  | popLoadHead =>
    (q.load t .head .relaxed stamp).map fun (q, head) => (q, .inl (popLoadSeq head))
  | popLoadSeq idx =>
    (q.load t (.seq (mask idx)) .acquire stamp).map fun (q, seq) =>
      let diff := w.diff seq (idx + 1)
      if diff = 0 then (q, .inl (popCas idx))
      else if diff < 0 then
        -- producer has not written here yet as far as one can see
        (q, .inr .empty)
      else
        -- another consumer has read this position, and the head is stale
        (q, .inl popLoadHead)
  | popCas idx =>
    (q.exchange t .head idx (idx + 1) stamp spurious).map fun
      | (q, .ok _) => (q, .inl (popRead idx))
      | (q, .error newIdx) => (q, .inl (popLoadSeq newIdx))
  | popRead idx =>
    (q.take t (mask idx)).map fun (q, data) => (q, .inl (popStoreSeq idx data))
  | popStoreSeq idx data =>
    (q.store t (.seq (mask idx)) (idx + 2 ^ pow) .release stamp).map fun q =>
      (q, .inr (.popped data))

/-- The body of the loop of `Inner::drop`, by thread `t`: the value of a
published slot is dropped; the stamp of each position tells which store of the
sequence number is read. -/
def dropSlot (t : τ) (seqStamp : ℕ → ℕ) (idx : ℕ) (q : Inner τ T pow) :
    Option (Inner τ T pow × List T) :=
  (q.load t (.seq (mask idx)) .relaxed (seqStamp idx)).bind fun (q, seq) =>
    if seq = idx + 1 then (q.take t (mask idx)).map fun (q, data) => (q, [data])
    else some (q, [])

/-- **`Inner::drop`**, with the values it drops; `needsDrop` is
`mem::needs_drop::<T>()`. -/
def drop (needsDrop : Bool) (q : Inner τ T pow) (t : τ) (headStamp tailStamp : ℕ)
    (seqStamp : ℕ → ℕ) : Option (Inner τ T pow × List T) :=
  if needsDrop = false then some (q, [])
  else
    (q.load t .head .relaxed headStamp).bind fun (q, head) =>
      (q.load t .tail .relaxed tailStamp).bind fun (q, tail) =>
        Ring.walk (dropSlot t seqStamp) (tail - head) head q

/-! ## Threads -/

/-- **The queue with its threads**: each is idle or in a call, and knows of
some of what happened. -/
structure State (τ T : Type) (pow : ℕ) where
  inner : Inner τ T pow
  call : τ → Option (Call T)
  /-- The latest event first. -/
  history : List (τ × Event T)
  told : τ → List (Event T)

/-- What may happen: a thread makes a call when it is idle, or takes a step of
its call, or learns what another one has done. -/
inductive Action (τ T : Type) where
  | call (t : τ) (op : Op T)
  | step (t : τ) (stamp : ℕ) (spurious : Bool)
  | join (t u : τ)
deriving DecidableEq

namespace State

/-- Something happens to a thread, or nothing. -/
def record (s : State τ T pow) (t : τ) (e : Option (Event T)) : State τ T pow :=
  { s with
    history := (e.map fun e => (t, e)).toList ++ s.history
    told := Function.update s.told t (e.toList ++ s.told t) }

/-- The state after thread `t` went from the call `c` to `r`. -/
def advance (s : State τ T pow) (t : τ) (c : Call T) (q : Inner τ T pow)
    (r : Call T ⊕ Outcome T) : State τ T pow :=
  { s.record t (Event.of c r) with
    inner := q
    call := Function.update s.call t (r.elim some fun _ => none) }

/-- What `u` has done happens before what `t` does from now on. -/
def join (s : State τ T pow) (t u : τ) : State τ T pow :=
  { s with
    inner := s.inner.join t u
    told := Function.update s.told t (s.told u ++ s.told t) }

end State

/-- **All interleavings and all choices of stores.** -/
def system (τ T : Type) [DecidableEq τ] (w : Width pow) :
    System (State τ T pow) (Action τ T) where
  init := ⟨.empty pow, fun _ => none, [], fun _ => []⟩
  next s
    | .call t op =>
      match s.call t with
      | none => some
          { s.record t (some (.called op)) with
            call := Function.update s.call t (some (invoke op)) }
      | some _ => none
    | .step t stamp spurious =>
      match s.call t with
      | none => none
      | some c => (exec w s.inner t stamp spurious c).map fun p => s.advance t c p.1 p.2
    | .join t u => some (s.join t u)

/-! ## What each step does -/

/-- **One step of a call**, by what it does to the memory and how it goes on. -/
inductive ExecStep (w : Width pow) (q : Inner τ T pow) (t : τ) :
    Call T → Inner τ T pow → Call T ⊕ Outcome T → Prop
  | pushLoadTail (val : T) (tail stamp : ℕ) (q' : Inner τ T pow)
      (hload : q.load t .tail .relaxed stamp = some (q', tail)) :
      ExecStep w q t (pushLoadTail val) q' (.inl (pushLoadSeq val tail))
  | pushReady (val : T) (idx stamp : ℕ) (q' : Inner τ T pow)
      (hload : q.load t (.seq (mask idx)) .acquire stamp = some (q', idx)) :
      ExecStep w q t (pushLoadSeq val idx) q' (.inl (pushCas val idx))
  | pushFull (val : T) (idx seq stamp : ℕ) (q' : Inner τ T pow)
      (hload : q.load t (.seq (mask idx)) .acquire stamp = some (q', seq))
      (h : w.diff seq idx < 0) :
      ExecStep w q t (pushLoadSeq val idx) q' (.inr (.full val))
  | pushStale (val : T) (idx seq stamp : ℕ) (q' : Inner τ T pow)
      (hload : q.load t (.seq (mask idx)) .acquire stamp = some (q', seq))
      (h : 0 < w.diff seq idx) :
      ExecStep w q t (pushLoadSeq val idx) q' (.inl (pushLoadTail val))
  | pushClaim (val : T) (idx stamp : ℕ) (found : ℕ) (spurious : Bool) (q' : Inner τ T pow)
      (hcas : q.exchange t .tail idx (idx + 1) stamp spurious = some (q', .ok found)) :
      ExecStep w q t (pushCas val idx) q' (.inl (pushWrite val idx))
  | pushCasFail (val : T) (idx newIdx stamp : ℕ) (spurious : Bool) (q' : Inner τ T pow)
      (hcas : q.exchange t .tail idx (idx + 1) stamp spurious = some (q', .error newIdx)) :
      ExecStep w q t (pushCas val idx) q' (.inl (pushLoadSeq val newIdx))
  | pushWrite (val : T) (idx : ℕ) (q' : Inner τ T pow)
      (hwrite : q.write t (mask idx) val = some q') :
      ExecStep w q t (pushWrite val idx) q' (.inl (pushStoreSeq idx))
  | pushStoreSeq (idx stamp : ℕ) (q' : Inner τ T pow)
      (hstore : q.store t (.seq (mask idx)) (idx + 1) .release stamp = some q') :
      ExecStep w q t (pushStoreSeq idx) q' (.inr .pushed)
  | popLoadHead (head stamp : ℕ) (q' : Inner τ T pow)
      (hload : q.load t .head .relaxed stamp = some (q', head)) :
      ExecStep w q t popLoadHead q' (.inl (popLoadSeq head))
  | popReady (idx stamp : ℕ) (q' : Inner τ T pow)
      (hload : q.load t (.seq (mask idx)) .acquire stamp = some (q', idx + 1)) :
      ExecStep w q t (popLoadSeq idx) q' (.inl (popCas idx))
  | popEmpty (idx seq stamp : ℕ) (q' : Inner τ T pow)
      (hload : q.load t (.seq (mask idx)) .acquire stamp = some (q', seq))
      (h : w.diff seq (idx + 1) < 0) :
      ExecStep w q t (popLoadSeq idx) q' (.inr .empty)
  | popStale (idx seq stamp : ℕ) (q' : Inner τ T pow)
      (hload : q.load t (.seq (mask idx)) .acquire stamp = some (q', seq))
      (h : 0 < w.diff seq (idx + 1)) :
      ExecStep w q t (popLoadSeq idx) q' (.inl popLoadHead)
  | popClaim (idx stamp : ℕ) (found : ℕ) (spurious : Bool) (q' : Inner τ T pow)
      (hcas : q.exchange t .head idx (idx + 1) stamp spurious = some (q', .ok found)) :
      ExecStep w q t (popCas idx) q' (.inl (popRead idx))
  | popCasFail (idx newIdx stamp : ℕ) (spurious : Bool) (q' : Inner τ T pow)
      (hcas : q.exchange t .head idx (idx + 1) stamp spurious = some (q', .error newIdx)) :
      ExecStep w q t (popCas idx) q' (.inl (popLoadSeq newIdx))
  | popRead (idx : ℕ) (data : T) (q' : Inner τ T pow)
      (htake : q.take t (mask idx) = some (q', data)) :
      ExecStep w q t (popRead idx) q' (.inl (popStoreSeq idx data))
  | popStoreSeq (idx stamp : ℕ) (data : T) (q' : Inner τ T pow)
      (hstore : q.store t (.seq (mask idx)) (idx + 2 ^ pow) .release stamp = some q') :
      ExecStep w q t (popStoreSeq idx data) q' (.inr (.popped data))

/-- **Every step is one of these.** -/
theorem execStep_of_exec {q q' : Inner τ T pow} {t : τ} {stamp : ℕ} {spurious : Bool} {c : Call T}
    {r : Call T ⊕ Outcome T} (h : exec w q t stamp spurious c = some (q', r)) :
    ExecStep w q t c q' r := by
  cases c with
  | pushLoadTail val =>
    obtain ⟨⟨q', tail⟩, hload, hp⟩ := Option.map_eq_some_iff.mp h
    obtain ⟨rfl, rfl⟩ := Prod.mk.inj hp
    exact .pushLoadTail val tail stamp _ hload
  | pushLoadSeq val idx =>
    obtain ⟨⟨q', seq⟩, hload, hp⟩ := Option.map_eq_some_iff.mp h
    dsimp only at hp
    split_ifs at hp with hzero hneg <;> obtain ⟨rfl, rfl⟩ := Prod.mk.inj hp
    · obtain rfl := w.diff_eq_zero_iff.mp hzero
      exact .pushReady val seq stamp _ hload
    · exact .pushFull val idx seq stamp _ hload hneg
    · exact .pushStale val idx seq stamp _ hload (by omega)
  | pushCas val idx =>
    obtain ⟨⟨q', found | found⟩, hcas, hp⟩ := Option.map_eq_some_iff.mp h
    · obtain ⟨rfl, rfl⟩ := Prod.mk.inj hp
      exact .pushCasFail val idx found stamp spurious _ hcas
    · obtain ⟨rfl, rfl⟩ := Prod.mk.inj hp
      exact .pushClaim val idx stamp found spurious _ hcas
  | pushWrite val idx =>
    obtain ⟨q', hwrite, hp⟩ := Option.map_eq_some_iff.mp h
    obtain ⟨rfl, rfl⟩ := Prod.mk.inj hp
    exact .pushWrite val idx _ hwrite
  | pushStoreSeq idx =>
    obtain ⟨q', hstore, hp⟩ := Option.map_eq_some_iff.mp h
    obtain ⟨rfl, rfl⟩ := Prod.mk.inj hp
    exact .pushStoreSeq idx stamp _ hstore
  | popLoadHead =>
    obtain ⟨⟨q', head⟩, hload, hp⟩ := Option.map_eq_some_iff.mp h
    obtain ⟨rfl, rfl⟩ := Prod.mk.inj hp
    exact .popLoadHead head stamp _ hload
  | popLoadSeq idx =>
    obtain ⟨⟨q', seq⟩, hload, hp⟩ := Option.map_eq_some_iff.mp h
    dsimp only at hp
    split_ifs at hp with hzero hneg <;> obtain ⟨rfl, rfl⟩ := Prod.mk.inj hp
    · obtain rfl := w.diff_eq_zero_iff.mp hzero
      exact .popReady idx stamp _ hload
    · exact .popEmpty idx seq stamp _ hload hneg
    · exact .popStale idx seq stamp _ hload (by omega)
  | popCas idx =>
    obtain ⟨⟨q', found | found⟩, hcas, hp⟩ := Option.map_eq_some_iff.mp h
    · obtain ⟨rfl, rfl⟩ := Prod.mk.inj hp
      exact .popCasFail idx found stamp spurious _ hcas
    · obtain ⟨rfl, rfl⟩ := Prod.mk.inj hp
      exact .popClaim idx stamp found spurious _ hcas
  | popRead idx =>
    obtain ⟨⟨q', data⟩, htake, hp⟩ := Option.map_eq_some_iff.mp h
    obtain ⟨rfl, rfl⟩ := Prod.mk.inj hp
    exact .popRead idx data _ htake
  | popStoreSeq idx data =>
    obtain ⟨q', hstore, hp⟩ := Option.map_eq_some_iff.mp h
    obtain ⟨rfl, rfl⟩ := Prod.mk.inj hp
    exact .popStoreSeq idx stamp data _ hstore

/-- A push gives its value back for the number it reads from this store. -/
theorem load_of_full {q q' : Inner τ T pow} {t : τ} {stamp : ℕ} {spurious : Bool} {c : Call T}
    {val : T} (h : exec w q t stamp spurious c = some (q', .inr (.full val))) :
    ∃ idx seq, c = pushLoadSeq val idx
      ∧ q.load t (.seq (mask idx)) .acquire stamp = some (q', seq) ∧ w.diff seq idx < 0 := by
  cases c with
  | pushLoadSeq val' idx =>
    obtain ⟨⟨m, seq⟩, hload, hp⟩ := Option.map_eq_some_iff.mp h
    dsimp only at hp
    split_ifs at hp with hzero hneg <;> cases hp
    exact ⟨idx, seq, rfl, hload, hneg⟩
  | _ => cases execStep_of_exec h

/-- And a pop finds nothing for it. -/
theorem load_of_empty {q q' : Inner τ T pow} {t : τ} {stamp : ℕ} {spurious : Bool} {c : Call T}
    (h : exec w q t stamp spurious c = some (q', .inr .empty)) :
    ∃ idx seq, c = popLoadSeq idx
      ∧ q.load t (.seq (mask idx)) .acquire stamp = some (q', seq) ∧ w.diff seq (idx + 1) < 0 := by
  cases c with
  | popLoadSeq idx =>
    obtain ⟨⟨m, seq⟩, hload, hp⟩ := Option.map_eq_some_iff.mp h
    dsimp only at hp
    split_ifs at hp with hzero hneg <;> cases hp
    exact ⟨idx, seq, rfl, hload, hneg⟩
  | _ => cases execStep_of_exec h

/-- **A step of the system**: an idle thread makes a call, a thread in a call
takes a step of it, or a thread learns what another one has done. -/
theorem system_next_cases {s s' : State τ T pow} {a : Action τ T}
    (h : (system τ T w).next s a = some s') :
    (∃ t op, s.call t = none ∧ s' = { s.record t (some (.called op)) with
        call := Function.update s.call t (some (invoke op)) })
    ∨ (∃ t c q r, s.call t = some c ∧ ExecStep w s.inner t c q r ∧ s' = s.advance t c q r)
    ∨ ∃ t u, s' = s.join t u := by
  cases a with
  | call t op =>
    simp only [system] at h
    cases hc : s.call t with
    | none =>
      rw [hc] at h
      exact Or.inl ⟨t, op, hc, (Option.some.inj h).symm⟩
    | some c => simp [hc] at h
  | step t stamp spurious =>
    simp only [system] at h
    cases hc : s.call t with
    | none => simp [hc] at h
    | some c =>
      rw [hc] at h
      obtain ⟨⟨q, r⟩, hexec, rfl⟩ := Option.map_eq_some_iff.mp h
      exact Or.inr (Or.inl ⟨t, c, q, r, hc, execStep_of_exec hexec, rfl⟩)
  | join t u => exact Or.inr (Or.inr ⟨t, u, (Option.some.inj h).symm⟩)

end Mpmc.Weak
