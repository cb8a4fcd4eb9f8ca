import Algors.Queue.MpmcSafety

/-!
# The order in which values come out

The queue is first in, first out in real time. A push that returned before
another was called has the smaller position, and positions are claimed by
consumers in their order; so the value pushed first is claimed first, and no
later one can be returned before its pop was called.

The order is one of events in a history. Every event of it was recorded by a
step from a reachable state whose history is what stands before the event, and
the books of that state say which positions were claimed by then. That is the
whole argument: a claim takes the counter, and below the counter everything is
claimed.
-/

namespace Mpmc

variable {T τ : Type} {pow : ℕ} {w : Width pow}

open Call
open Fifo (Op Outcome)

/-! ## Events in order -/

/-- **One event is earlier than another** in a history, whose first event is
the latest. -/
def Precedes (h : List (τ × Event T)) (e e' : τ × Event T) : Prop := [e', e].Sublist h

/-- **An event is part of a call** of its thread, made when the history was
`before`: the thread has made no other call in between. -/
def InCall (h : List (τ × Event T)) (t : τ) (e : Event T) (op : Op T)
    (before : List (τ × Event T)) : Prop :=
  ∃ l l', h = l ++ (t, e) :: (l' ++ (t, .called op) :: before) ∧ ∀ op', (t, .called op') ∉ l'

theorem precedes_of_mem {l rest : List (τ × Event T)} {e e' : τ × Event T} (h : e ∈ rest) :
    Precedes (l ++ e' :: rest) e e' :=
  ((List.singleton_sublist.mpr h).cons_cons e').trans (List.sublist_append_right l _)

/-- **The order of a history.** -/
structure Ordered (h : List (τ × Event T)) : Prop where
  /-- Each position is claimed once, by a push and by a pop. -/
  once : (pushPositions h).Nodup ∧ (popPositions h).Nodup
  /-- A push that returned had claimed its position. -/
  pushed : ∀ t pos, (t, .returnedPush pos) ∈ h → ∃ val, (t, .claimedPush pos val) ∈ h
  /-- A pop that returned had claimed its position, and returned what was
  pushed there. -/
  popped : ∀ t pos val, (t, .returnedPop pos val) ∈ h →
    (t, .claimedPop pos) ∈ h ∧ Claimed h pos val
  /-- A position is claimed by a push of the value that comes there. -/
  push_call : ∀ t pos val, (t, .claimedPush pos val) ∈ h →
    ∃ before, InCall h t (.claimedPush pos val) (.push val) before
  /-- A position is claimed by a pop. -/
  pop_call : ∀ t pos, (t, .claimedPop pos) ∈ h → ∃ before, InCall h t (.claimedPop pos) .pop before
  /-- **First in, first out in real time**: when the push at `a` returned before
  the push at `b` was called, and `b` is popped, then `a` was claimed before. -/
  realTime : ∀ t u v a b val before, InCall h u (.claimedPush b val) (.push val) before →
    (t, .returnedPush a) ∈ before → (v, .claimedPop b) ∈ h →
    ∃ w, Precedes h (w, .claimedPop a) (v, .claimedPop b)
  /-- Then no pop returned `b` before the one that claimed `a` was called. -/
  invoked : ∀ t u v a b val val' before l rest, InCall h u (.claimedPush b val) (.push val) before →
    (t, .returnedPush a) ∈ before → h = l ++ (v, .returnedPop b val') :: rest →
    ∃ w before', InCall rest w (.claimedPop a) .pop before'
  /-- The values of one producer are claimed in the order of its calls. -/
  producer : ∀ t v a b val val' before before', InCall h t (.claimedPush a val) (.push val) before →
    InCall h t (.claimedPush b val') (.push val') before' → before.length < before'.length →
    (v, .claimedPop b) ∈ h → ∃ w, Precedes h (w, .claimedPop a) (v, .claimedPop b)

/-! ## The calls the threads are in -/

/-- The call a thread is in, as long as it can be told. -/
def Call.op : Call T → Option (Op T)
  | pushLoadTail val | pushLoadSeq val _ | pushCas val _ | pushWrite val _ => some (.push val)
  | pushStoreSeq _ => none
  | popLoadHead | popLoadSeq _ | popCas _ | popRead _ | popStoreSeq _ _ => some .pop

/-- The latest call of a thread. -/
def LastCalled (h : List (τ × Event T)) (t : τ) (op : Op T) : Prop :=
  ∃ l before, h = l ++ (t, .called op) :: before ∧ ∀ op', (t, .called op') ∉ l

/-- An event that is not a call of the thread leaves its latest one. -/
theorem LastCalled.cons {h : List (τ × Event T)} {t : τ} {op : Op T} (hl : LastCalled h t op)
    {e : τ × Event T} (he : ∀ op', e ≠ (t, .called op')) : LastCalled (e :: h) t op := by
  obtain ⟨l, before, rfl, hl⟩ := hl
  refine ⟨e :: l, before, rfl, fun op' hmem => ?_⟩
  rcases List.mem_cons.mp hmem with heq | hmem
  · exact he op' heq.symm
  · exact hl op' hmem

/-- A step stays in the call. -/
theorem ExecStep.op_eq {q q' : Inner T pow} {c c' : Call T} {op : Op T}
    (h : ExecStep w q c q' (.inl c')) (hop : c'.op = some op) : c.op = some op := by
  cases h with
  | pushWrite => cases hop
  | _ => exact hop

/-- No step of a call is a call. -/
theorem Event.of_ne_called {c : Call T} {r : Call T ⊕ Outcome T} {e : Event T}
    (h : Event.of c r = some e) (op : Op T) : e ≠ .called op := by
  rintro rfl
  unfold Event.of at h
  split at h <;> cases h

variable [DecidableEq τ] {s : State τ T pow} {t : τ}

theorem lastCalled_of_reachable (hs : (system τ T w).Reachable s) {c : Call T} {op : Op T}
    (hc : s.call t = some c) (hop : c.op = some op) : LastCalled s.history t op := by
  refine hs.invariant (I := fun s => ∀ t c op, s.call t = some c → c.op = some op →
    LastCalled s.history t op) ?_ ?_ t c op hc hop
  · rintro t c op ⟨⟩
  · rintro s ⟨u, a⟩ s' _ ih _ hnext t c op hc hop
    rcases system_next_cases hnext with ⟨hnone, op', rfl⟩ | ⟨c₀, q, r, hc₀, hstep, rfl⟩
    · by_cases htu : t = u
      · subst htu
        simp only [Function.update_self, Option.some.injEq] at hc
        subst hc
        obtain rfl : op' = op := by cases op' <;> exact Option.some.inj hop
        exact ⟨[], s.history, rfl, fun _ => List.not_mem_nil⟩
      · simp only [Function.update_of_ne htu] at hc
        exact (ih t c op hc hop).cons fun op'' heq => htu (Prod.mk.inj heq).1.symm
    · have hlast : LastCalled s.history t op := by
        by_cases htu : t = u
        · subst htu
          simp only [State.advance, Function.update_self] at hc
          cases r with
          | inl c' =>
            obtain rfl := Option.some.inj hc
            exact ih t c₀ op hc₀ (hstep.op_eq hop)
          | inr o => cases hc
        · simp only [State.advance, Function.update_of_ne htu] at hc
          exact ih t c op hc hop
      cases he : Event.of c₀ r with
      | none => simpa [State.advance, he] using hlast
      | some e =>
        simp only [State.advance, he]
        exact hlast.cons fun op' heq => Event.of_ne_called he op' (Prod.mk.inj heq).2

/-! ## The step that recorded an event -/

/-- What a thread did to record an event. -/
def Records (w : Width pow) (s : State τ T pow) (t : τ) (e : Event T) : Prop :=
  (s.call t = none ∧ ∃ op, e = .called op)
    ∨ ∃ c q r, s.call t = some c ∧ ExecStep w s.inner c q r ∧ Event.of c r = some e

/-- **Every event was recorded by a step** from a reachable state whose history
is what stands before it. -/
theorem exists_records (hs : (system τ T w).Reachable s) {l rest : List (τ × Event T)}
    {e : Event T} (h : s.history = l ++ (t, e) :: rest) :
    ∃ s₀, (system τ T w).Reachable s₀ ∧ s₀.history = rest ∧ Records w s₀ t e := by
  induction hs generalizing l rest t e with
  | init =>
    have hlen := congrArg List.length h
    simp [system] at hlen
  | @step s s' a hs _ hnext ih =>
    obtain ⟨u, a⟩ := a
    obtain ⟨e', hhist, hrec⟩ : ∃ e' : Option (Event T),
        s'.history = Inv.eventsOf u e' ++ s.history ∧ ∀ e, e' = some e → Records w s u e := by
      rcases system_next_cases hnext with ⟨hnone, op, rfl⟩ | ⟨c, q, r, hc, hstep, rfl⟩
      · exact ⟨some (.called op), rfl, fun e he => Or.inl ⟨hnone, op, (Option.some.inj he).symm⟩⟩
      · exact ⟨Event.of c r, rfl, fun e he => Or.inr ⟨c, q, r, hc, hstep, he⟩⟩
    rw [hhist] at h
    cases e' with
    | none => exact ih h
    | some e' =>
      cases l with
      | nil =>
        obtain ⟨heq, rfl⟩ := List.cons.inj h
        obtain ⟨rfl, rfl⟩ := Prod.mk.inj heq
        exact ⟨s, hs, rfl, hrec _ rfl⟩
      | cons x l => exact ih (List.cons.inj h).2

omit [DecidableEq τ] in
/-- A position is claimed by a push from the tail. -/
theorem Records.claimedPush {pos : ℕ} {val : T} (h : Records w s t (.claimedPush pos val)) :
    s.call t = some (pushCas val pos) ∧ pos = s.inner.tail := by
  rcases h with ⟨_, op, he⟩ | ⟨c, q, r, hc, hstep, he⟩
  · cases he
  · cases hstep with
    | pushClaim val' =>
      obtain ⟨rfl, rfl⟩ := Event.claimedPush.inj (Option.some.inj he)
      exact ⟨hc, rfl⟩
    | _ => cases he

omit [DecidableEq τ] in
/-- A position is claimed by a pop from the head. -/
theorem Records.claimedPop {pos : ℕ} (h : Records w s t (.claimedPop pos)) :
    s.call t = some (popCas pos) ∧ pos = s.inner.head := by
  rcases h with ⟨_, op, he⟩ | ⟨c, q, r, hc, hstep, he⟩
  · cases he
  · cases hstep with
    | popClaim =>
      obtain rfl := Event.claimedPop.inj (Option.some.inj he)
      exact ⟨hc, rfl⟩
    | _ => cases he

omit [DecidableEq τ] in
/-- A value is returned by the pop that has read it. -/
theorem Records.returnedPop {pos : ℕ} {val : T} (h : Records w s t (.returnedPop pos val)) :
    s.Reading t pos := by
  rcases h with ⟨_, op, he⟩ | ⟨c, q, r, hc, hstep, he⟩
  · cases he
  · cases hstep with
    | popStoreSeq idx data =>
      obtain ⟨rfl, rfl⟩ := Event.returnedPop.inj (Option.some.inj he)
      exact ⟨_, hc, rfl⟩
    | _ => cases he

/-! ## Claims take the counters -/

omit [DecidableEq τ] in
theorem mem_popPositions {h : List (τ × Event T)} {pos : ℕ} :
    pos ∈ popPositions h ↔ ∃ t, (t, .claimedPop pos) ∈ h := by
  simp only [popPositions, List.mem_filterMap, Prod.exists]
  constructor
  · rintro ⟨t, e, hmem, he⟩
    cases e with
    | claimedPop pos' =>
      obtain rfl := Option.some.inj he
      exact ⟨t, hmem⟩
    | _ => cases he
  · rintro ⟨t, hmem⟩
    exact ⟨t, _, hmem, rfl⟩

section Claims

variable (hpow : 1 ≤ pow) (hs : (system τ T w).Reachable s) {u v : τ}
  {l rest : List (τ × Event T)} {a b : ℕ}

include hpow hs

/-- **A push claims a position above those whose pushes returned.** -/
theorem lt_of_claimedPush {val : T} (h : s.history = l ++ (u, .claimedPush b val) :: rest)
    (ha : (t, .returnedPush a) ∈ rest) : a < b := by
  obtain ⟨s₀, hs₀, rfl, hrec⟩ := exists_records hs h
  obtain ⟨val', hclaim⟩ := ((traced_of_reachable hs₀).push t a).mpr (Or.inr ha)
  have hmem : a ∈ pushPositions s₀.history := mem_pushPositions.mpr ⟨val', t, hclaim⟩
  rw [(inv_of_reachable hpow hs₀).books.pushClaims, List.mem_reverse, List.mem_range] at hmem
  rw [hrec.claimedPush.2]
  exact hmem

/-- **A pop claims a position when all below are claimed.** -/
theorem exists_claimedPop (h : s.history = l ++ (v, .claimedPop b) :: rest) (hab : a < b) :
    ∃ w, (w, .claimedPop a) ∈ rest := by
  obtain ⟨s₀, hs₀, rfl, hrec⟩ := exists_records hs h
  refine mem_popPositions.mp ?_
  rw [(inv_of_reachable hpow hs₀).books.popClaims, List.mem_reverse, List.mem_range,
    ← hrec.claimedPop.2]
  exact hab

/-- The claims of two positions are in the order of the positions. -/
theorem precedes_of_lt (hab : a < b) (hb : (v, .claimedPop b) ∈ s.history) :
    ∃ w, Precedes s.history (w, .claimedPop a) (v, .claimedPop b) := by
  obtain ⟨l, rest, h⟩ := List.append_of_mem hb
  obtain ⟨w, hw⟩ := exists_claimedPop hpow hs h hab
  exact ⟨w, h ▸ precedes_of_mem hw⟩

end Claims

/-- A claim is part of a call of a push. -/
theorem push_inCall (hs : (system τ T w).Reachable s) {pos : ℕ} {val : T}
    (h : (t, .claimedPush pos val) ∈ s.history) :
    ∃ before, InCall s.history t (.claimedPush pos val) (.push val) before := by
  obtain ⟨l, rest, h⟩ := List.append_of_mem h
  obtain ⟨s₀, hs₀, rfl, hrec⟩ := exists_records hs h
  obtain ⟨l', before, hl, hno⟩ := lastCalled_of_reachable hs₀ hrec.claimedPush.1 rfl
  exact ⟨before, l, l', by rw [h, hl], hno⟩

/-- A claim is part of a call of a pop. -/
theorem pop_inCall (hs : (system τ T w).Reachable s) {pos : ℕ}
    (h : (t, .claimedPop pos) ∈ s.history) :
    ∃ before, InCall s.history t (.claimedPop pos) .pop before := by
  obtain ⟨l, rest, h⟩ := List.append_of_mem h
  obtain ⟨s₀, hs₀, rfl, hrec⟩ := exists_records hs h
  obtain ⟨l', before, hl, hno⟩ := lastCalled_of_reachable hs₀ hrec.claimedPop.1 rfl
  exact ⟨before, l, l', by rw [h, hl], hno⟩

omit [DecidableEq τ] in
/-- **The calls of a thread do not overlap**: what is part of the earlier call
happened before the later one was made. -/
theorem InCall.mem_before {h before before' : List (τ × Event T)} {e e' : Event T} {op op' : Op T}
    (hc : InCall h t e op before) (hc' : InCall h t e' op' before')
    (hlt : before.length < before'.length) (he : ∀ op, e ≠ .called op) : (t, e) ∈ before' := by
  obtain ⟨l₁, l₂, rfl, hno⟩ := hc
  obtain ⟨m₁, m₂, heq, -⟩ := hc'
  replace heq : l₁ ++ (t, e) :: (l₂ ++ (t, .called op) :: before)
      = (m₁ ++ (t, e') :: m₂) ++ (t, .called op') :: before' := by
    rw [heq, List.append_assoc, List.cons_append]
  rcases List.append_eq_append_iff.mp heq with ⟨d, -, hd⟩ | ⟨d, -, hd⟩
  · -- the later call was made before the event: it is the event, or among what follows it
    rcases d with _ | ⟨x, d⟩
    · exact absurd (Prod.mk.inj (List.cons.inj hd).1).2 (he op')
    · rcases List.append_eq_append_iff.mp (List.cons.inj hd).2 with ⟨d', -, hd'⟩ | ⟨d', rfl, hd'⟩
      · have hlen := congrArg List.length hd'
        simp only [List.length_append, List.length_cons] at hlen
        omega
      · rcases d' with _ | ⟨x, d'⟩
        · have hlen := congrArg List.length (List.cons.inj hd').2
          omega
        · obtain ⟨rfl, -⟩ := List.cons.inj hd'
          exact absurd (by simp) (hno op')
  · rcases d with _ | ⟨x, d⟩
    · exact absurd (Prod.mk.inj (List.cons.inj hd).1).2.symm (he op')
    · rw [(List.cons.inj hd).2]
      simp

section Order

variable (hpow : 1 ≤ pow) (hs : (system τ T w).Reachable s) {u v : τ}
  {before before' : List (τ × Event T)} {a b : ℕ} {val val' : T}

include hpow hs

/-- **A push made after another had returned** claims a position above. -/
theorem lt_of_returned_before (hcall : InCall s.history u (.claimedPush b val) (.push val) before)
    (ha : (t, .returnedPush a) ∈ before) : a < b := by
  obtain ⟨l, l', h, -⟩ := hcall
  exact lt_of_claimedPush hpow hs h (List.mem_append_right l' (List.mem_cons_of_mem _ ha))

/-- **Before the pop of a position returns**, a pop was called that claims any
position below. -/
theorem exists_inCall_of_returnedPop {l rest : List (τ × Event T)} (hab : a < b)
    (h : s.history = l ++ (v, .returnedPop b val) :: rest) :
    ∃ w before, InCall rest w (.claimedPop a) .pop before := by
  obtain ⟨s₀, hs₀, rfl, hrec⟩ := exists_records hs h
  have hb := ((traced_of_reachable hs₀).pop v b).mpr (Or.inl hrec.returnedPop)
  obtain ⟨l', rest', h'⟩ := List.append_of_mem hb
  obtain ⟨w, hw⟩ := exists_claimedPop hpow hs₀ h' hab
  have hmem : (w, .claimedPop a) ∈ s₀.history :=
    h' ▸ List.mem_append_right l' (List.mem_cons_of_mem _ hw)
  obtain ⟨before, hbefore⟩ := pop_inCall hs₀ hmem
  exact ⟨w, before, hbefore⟩

omit hpow in
/-- When a thread makes a call, its earlier pushes have returned. -/
theorem returnedPush_of_called {l : List (τ × Event T)} {op : Op T}
    (h : s.history = l ++ (t, .called op) :: before) (ha : (t, .claimedPush a val) ∈ before) :
    (t, .returnedPush a) ∈ before := by
  obtain ⟨s₀, hs₀, rfl, hrec⟩ := exists_records hs h
  have hnone : s₀.call t = none := by
    rcases hrec with ⟨hnone, -⟩ | ⟨c, q, r, -, -, he⟩
    · exact hnone
    · exact absurd rfl (Event.of_ne_called he op)
  refine (((traced_of_reachable hs₀).push t a).mp ⟨val, ha⟩).resolve_left fun ⟨c, hc, _⟩ => ?_
  cases hnone.symm.trans hc

/-- **The pushes of one thread** claim positions in the order of the calls. -/
theorem lt_of_inCall_of_inCall
    (hcall : InCall s.history t (.claimedPush a val) (.push val) before)
    (hcall' : InCall s.history t (.claimedPush b val') (.push val') before')
    (hlt : before.length < before'.length) : a < b := by
  have hmem := hcall.mem_before hcall' hlt fun op h => by cases h
  have hcalled : ∃ l, s.history = l ++ (t, .called (.push val')) :: before' := by
    obtain ⟨l, l', h, -⟩ := hcall'
    exact ⟨l ++ (t, .claimedPush b val') :: l', by rw [h, List.append_assoc, List.cons_append]⟩
  obtain ⟨l, h⟩ := hcalled
  exact lt_of_returned_before hpow hs hcall' (returnedPush_of_called hs h hmem)

end Order

/-- **First in, first out in real time**: from two slots on, with any threads
making any calls and taking their steps in any order, every history is
ordered. -/
theorem realTime_of_reachable (hpow : 1 ≤ pow) (hs : (system τ T w).Reachable s) :
    Ordered s.history where
  once := ⟨(safe_of_reachable hpow hs).push_claims.1, (safe_of_reachable hpow hs).pop_claims.1⟩
  pushed t pos h := ((traced_of_reachable hs).push t pos).mpr (Or.inr h)
  popped := (safe_of_reachable hpow hs).returned.2
  push_call _ _ _ := push_inCall hs
  pop_call _ _ := pop_inCall hs
  realTime _ _ _ _ _ _ _ hcall ha := precedes_of_lt hpow hs (lt_of_returned_before hpow hs hcall ha)
  invoked _ _ _ _ _ _ _ _ _ _ hcall ha :=
    exists_inCall_of_returnedPop hpow hs (lt_of_returned_before hpow hs hcall ha)
  producer _ _ _ _ _ _ _ _ hcall hcall' hlt :=
    precedes_of_lt hpow hs (lt_of_inCall_of_inCall hpow hs hcall hcall' hlt)

/-- A consumer claims the first of two pushed values and stops; another one
claims the second and returns it. -/
def stalled {τ : Type} (first second slow fast : τ) : List (τ × Action ℕ) :=
  (first, .call (.push 7)) :: List.replicate 5 (first, .step false)
    ++ (second, .call (.push 8)) :: List.replicate 5 (second, .step false)
    ++ (slow, .call .pop) :: List.replicate 3 (slow, .step false)
    ++ (fast, .call .pop) :: List.replicate 5 (fast, .step false)

theorem realTime_of_reachable_stalled :
    ∃ s, (system (Fin 4) ℕ .twoSlots).run (system (Fin 4) ℕ .twoSlots).init (stalled 0 1 2 3)
        = some s
      ∧ s.history.head? = some (3, .returnedPop 1 8) ∧ s.call 2 = some (popRead 0)
      ∧ Ordered s.history := by
  have hrun : ((system (Fin 4) ℕ .twoSlots).run (system (Fin 4) ℕ .twoSlots).init
      (stalled 0 1 2 3)).isSome := by decide
  exact ⟨_, (Option.some_get hrun).symm, rfl, rfl,
    realTime_of_reachable (by decide) (System.Reachable.of_run (Option.some_get hrun).symm)⟩

end Mpmc
