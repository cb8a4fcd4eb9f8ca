import Algors.Lib.Transition
import Mathlib.Data.Finset.Filter
import Mathlib.Data.Finset.Lattice.Lemmas
import Mathlib.Data.List.Infix
import Mathlib.Logic.Function.Basic
import Mathlib.Logic.Relation

/-!
# Atomic objects

An object used by many threads at once is atomic when each operation takes
effect at one moment between its call and its return. Here is the most general
such object: a thread calls an operation, later the operation is performed, all
at once, and later still it returns what it was given then. What an operation
may do is a relation on the states of the object, which may look at what the
other threads are in the middle of.

An implementation is linearizable when every history of calls and returns it
produces is one of the atomic object. That is shown by a simulation, and it
means what one expects: the log of the operations, in the order in which they
took effect, gives every thread the calls and results it saw, and has an
operation that returned before another was called in front of it.

An implementation may find out late what happened: it answers with what was
right at some moment since the call, and is not any more. Where the operation
changes nothing, it can be taken to have been performed at that moment. The
simulation may therefore aim at an object that remembers what was right.
-/

namespace Atomic

open Relation (ReflTransGen)

variable {τ σ Op R : Type}

/-! ## The object -/

/-- **Where a thread is** with its operation. -/
inductive Phase (Op R : Type) where
  | idle
  | invoked (op : Op)
  | performed (op : Op) (r : R)

/-- **The object with its threads.** -/
structure State (τ σ Op R : Type) where
  obj : σ
  phase : τ → Phase Op R
  /-- The calls and the returns, the latest first. -/
  history : List (τ × (Op ⊕ R))
  /-- The operations in the order in which they took effect, the latest first. -/
  log : List (τ × Op × R)

/-- What an operation of a thread may do, given what all threads are in the
middle of. -/
abbrev Spec (τ σ Op R : Type) := (τ → Phase Op R) → τ → σ → Op → σ → R → Prop

variable [DecidableEq τ]

/-- **A step**: a call, an operation taking effect, or a return. -/
inductive Step (D : Spec τ σ Op R) (a : State τ σ Op R) : State τ σ Op R → Prop
  | call (t : τ) (op : Op) (hphase : a.phase t = .idle) : Step D a
      { a with
        phase := Function.update a.phase t (.invoked op)
        history := (t, .inl op) :: a.history }
  | perform (t : τ) (op : Op) (o : σ) (r : R) (hphase : a.phase t = .invoked op)
      (hspec : D a.phase t a.obj op o r) : Step D a
      { a with
        obj := o
        phase := Function.update a.phase t (.performed op r)
        log := (t, op, r) :: a.log }
  | ret (t : τ) (op : Op) (r : R) (hphase : a.phase t = .performed op r) : Step D a
      { a with
        phase := Function.update a.phase t .idle
        history := (t, .inr r) :: a.history }

/-- No thread has called anything yet. -/
def start (τ Op R : Type) (o : σ) : State τ σ Op R := ⟨o, fun _ => .idle, [], []⟩

/-- **What can be reached** from an object nobody uses. -/
abbrev Reaches (D : Spec τ σ Op R) (o : σ) : State τ σ Op R → Prop :=
  ReflTransGen (Step D) (start τ Op R o)

/-! ## Answers of an earlier moment -/

/-- **What is right to answer** now, for an operation that changes nothing. -/
def Right (D : Spec τ σ Op R) (a : State τ σ Op R) (t : τ) (r : R) : Prop :=
  ∃ op, a.phase t = .invoked op ∧ D a.phase t a.obj op a.obj r

/-- **The object that remembers** what was right to answer at some moment since
a thread called its operation. -/
structure Late (τ σ Op R : Type) where
  now : State τ σ Op R
  right : τ → R → Prop

/-- A thread that stays where it is keeps what was right. -/
def Late.after (D : Spec τ σ Op R) (b : Late τ σ Op R) (a : State τ σ Op R) : Late τ σ Op R :=
  ⟨a, fun t r => (b.right t r ∧ a.phase t = b.now.phase t) ∨ Right D a t r⟩

/-- **A step of the object that remembers**: one of the object, or an operation
answered with what was right before. -/
inductive Late.Step (D : Spec τ σ Op R) (b : Late τ σ Op R) : Late τ σ Op R → Prop
  | now (a : State τ σ Op R) (hstep : Atomic.Step D b.now a) : Late.Step D b (b.after D a)
  | late (t : τ) (op : Op) (r : R) (hphase : b.now.phase t = .invoked op)
      (hright : b.right t r) : Late.Step D b
      { b with now :=
        { b.now with
          phase := Function.update b.now.phase t (.performed op r)
          log := (t, op, r) :: b.now.log } }

/-- Nothing has been called, and nothing was right. -/
def Late.start (τ Op R : Type) (o : σ) : Late τ σ Op R := ⟨Atomic.start τ Op R o, fun _ _ => False⟩

/-- What the object that remembers can reach. -/
abbrev Late.Reaches (D : Spec τ σ Op R) (o : σ) : Late τ σ Op R → Prop :=
  ReflTransGen (Late.Step D) (Late.start τ Op R o)

/-- A thread is left where it is, with what was right for it. -/
structure Late.Keeps (b b' : Late τ σ Op R) (t : τ) : Prop where
  phase : b'.now.phase t = b.now.phase t
  right : ∀ r, b.right t r → b'.right t r

omit [DecidableEq τ] in
theorem Late.Keeps.refl (b : Late τ σ Op R) (t : τ) : b.Keeps b t := ⟨rfl, fun _ hr => hr⟩

omit [DecidableEq τ] in
theorem Late.Keeps.trans {b b' b'' : Late τ σ Op R} {t : τ} (h : b.Keeps b' t)
    (h' : b'.Keeps b'' t) : b.Keeps b'' t :=
  ⟨h'.phase.trans h.phase, fun r hr => h'.right r (h.right r hr)⟩

omit [DecidableEq τ] in
theorem Late.keeps_after {D : Spec τ σ Op R} {b : Late τ σ Op R} {a : State τ σ Op R} {t : τ}
    (h : a.phase t = b.now.phase t) : b.Keeps (b.after D a) t :=
  ⟨h, fun _ hr => Or.inl ⟨hr, h⟩⟩

/-- **What may be done lasts**: it may still be done where more operations have
been performed. -/
def Lasting (D : Spec τ σ Op R) : Prop :=
  ∀ phase phase' t o op o' r,
    (∀ u, phase' u = phase u ∨ ∃ op r, phase u = .invoked op ∧ phase' u = .performed op r) →
    D phase t o op o' r → D phase' t o op o' r

/-- Where the threads are when those of `G` have been answered already. -/
def answered (G : Finset τ) (f : τ → R) (phase : τ → Phase Op R) (t : τ) : Phase Op R :=
  match phase t with
  | .idle => .idle
  | .invoked op => if t ∈ G then .performed op (f t) else .invoked op
  | .performed op r => .performed op r

/-- **One object ahead of another**: the threads of `G` have been answered. -/
structure Ahead (G : Finset τ) (f : τ → R) (b a : State τ σ Op R) : Prop where
  obj : a.obj = b.obj
  history : a.history = b.history
  phase : a.phase = answered G f b.phase

section Answered

variable {D : Spec τ σ Op R} {G H : Finset τ} {f : τ → R} {p : τ → Phase Op R} {t : τ} {o : σ}
  {a b b' : State τ σ Op R}

theorem answered_of_notMem (ht : t ∉ G) : answered G f p t = p t := by
  unfold answered
  cases p t <;> simp [ht]

theorem answered_update (ht : t ∉ G) (x : Phase Op R) :
    answered G f (Function.update p t x) = Function.update (answered G f p) t x := by
  funext u
  by_cases hut : u = t
  · subst hut
    rw [answered_of_notMem ht, Function.update_self, Function.update_self]
  · simp only [answered, Function.update_of_ne hut]

/-- One more thread is answered. -/
theorem answered_insert {op : Op} (ht : p t = .invoked op) :
    answered (insert t G) f p = Function.update (answered G f p) t (.performed op (f t)) := by
  funext u
  by_cases hut : u = t
  · subst hut
    simp [answered, ht]
  · simp [answered, hut]

/-- An answer is an operation performed. -/
theorem answered_cases (u : τ) : answered G f p u = p u
    ∨ ∃ op r, p u = .invoked op ∧ answered G f p u = .performed op r := by
  unfold answered
  cases p u with
  | idle | performed op r => exact Or.inl rfl
  | invoked op =>
    by_cases hu : u ∈ G
    · exact Or.inr ⟨op, f u, rfl, if_pos hu⟩
    · exact Or.inl (if_neg hu)

/-- **The object ahead takes the same step**, when no thread that has been
answered moves. -/
theorem Ahead.step (h : Ahead G f b a) (hD : Lasting D) (hstep : Step D b b')
    (hsame : ∀ u ∈ G, b'.phase u = b.phase u) : ∃ a', Step D a a' ∧ Ahead G f b' a' := by
  obtain ⟨hobj, hhistory, hphase⟩ := h
  cases hstep with
  | call t op hidle =>
    have ht : t ∉ G := fun ht => by simpa [hidle] using hsame t ht
    have hphase' : a.phase t = .idle := by rw [hphase, answered_of_notMem ht, hidle]
    exact ⟨_, .call t op hphase', hobj, by simp [hhistory], by simp [hphase, answered_update ht]⟩
  | perform t op o r hinvoked hspec =>
    have ht : t ∉ G := fun ht => by simpa [hinvoked] using hsame t ht
    have hphase' : a.phase t = .invoked op := by rw [hphase, answered_of_notMem ht, hinvoked]
    have hspec' : D a.phase t a.obj op o r := by
      rw [hobj, hphase]
      exact hD _ _ t _ op o r answered_cases hspec
    exact ⟨_, .perform t op o r hphase' hspec', rfl, hhistory, by simp [hphase, answered_update ht]⟩
  | ret t op r hdone =>
    have ht : t ∉ G := fun ht => by simpa [hdone] using hsame t ht
    have hphase' : a.phase t = .performed op r := by rw [hphase, answered_of_notMem ht, hdone]
    exact ⟨_, .ret t op r hphase', hobj, by simp [hhistory], by simp [hphase, answered_update ht]⟩

/-- **More threads are answered**, with what is right now. -/
theorem Ahead.exists_union (h : Ahead G f b a) (hD : Lasting D)
    (hH : ∀ u ∈ H, Right D b u (f u)) :
    ∃ a', ReflTransGen (Step D) a a' ∧ Ahead (H ∪ G) f b a' := by
  induction H using Finset.induction_on with
  | empty => exact ⟨a, .refl, by rwa [Finset.empty_union]⟩
  | insert u H hu ih =>
    obtain ⟨a', hreach, hobj, hhistory, hphase⟩ :=
      ih fun v hv => hH v (Finset.mem_insert_of_mem hv)
    rw [Finset.insert_union]
    by_cases hmem : u ∈ H ∪ G
    · exact ⟨a', hreach, by rw [Finset.insert_eq_self.mpr hmem]; exact ⟨hobj, hhistory, hphase⟩⟩
    · obtain ⟨op, hinvoked, hspec⟩ := hH u (Finset.mem_insert_self u H)
      have hphase' : a'.phase u = .invoked op := by rw [hphase, answered_of_notMem hmem, hinvoked]
      have hspec' : D a'.phase u a'.obj op a'.obj (f u) := by
        rw [hobj, hphase]
        exact hD _ _ u _ op _ _ answered_cases hspec
      exact ⟨_, hreach.tail (.perform u op _ _ hphase' hspec'), hobj, hhistory,
        by rw [answered_insert hinvoked, hphase]⟩

/-- **Any threads can have been answered before**: beside the object that
remembers there is one ahead of it, by answers that were right. -/
theorem Late.Reaches.exists_ahead {b : Late τ σ Op R} (h : Late.Reaches D o b) (hD : Lasting D)
    (G : Finset τ) (f : τ → R) (hright : ∀ u ∈ G, b.right u (f u)) :
    ∃ a, Atomic.Reaches D o a ∧ Ahead G f b.now a := by
  induction h generalizing G f with
  | refl => exact ⟨_, .refl, rfl, rfl, rfl⟩
  | @tail b b' hreach hstep ih =>
    cases hstep with
    | now a' hstep =>
      -- those that had been right before the step are answered before it, the others after it
      classical
      let K := G.filter fun u => b.right u (f u) ∧ a'.phase u = b.now.phase u
      let H := G.filter fun u => Right D a' u (f u)
      have hK : ∀ u ∈ K, b.right u (f u) ∧ a'.phase u = b.now.phase u := fun u hu =>
        (Finset.mem_filter.mp hu).2
      have hG : H ∪ K = G := by
        ext u
        rw [Finset.mem_union, Finset.mem_filter, Finset.mem_filter, ← and_or_left]
        exact and_iff_left_of_imp fun hu => (hright u hu).symm
      obtain ⟨a, ha, hahead⟩ := ih K f fun u hu => (hK u hu).1
      obtain ⟨a₁, hstep₁, hahead₁⟩ := hahead.step hD hstep fun u hu => (hK u hu).2
      obtain ⟨a₂, hreach₂, hahead₂⟩ := hahead₁.exists_union hD (H := H) fun u hu =>
        (Finset.mem_filter.mp hu).2
      exact ⟨a₂, (ha.tail hstep₁).trans hreach₂, hG ▸ hahead₂⟩
    | late t op r hphase hr =>
      obtain ⟨a, ha, hobj, hhistory, hahead⟩ := ih (insert t G) (Function.update f t r) (by
        intro u hu
        by_cases hut : u = t
        · subst hut
          rwa [Function.update_self]
        · rw [Function.update_of_ne hut]
          exact hright u (Finset.mem_of_mem_insert_of_ne hu hut))
      refine ⟨a, ha, hobj, hhistory, hahead.trans ?_⟩
      funext u
      by_cases hut : u = t
      · subst hut
        simp [answered, hphase]
      · simp [answered, hut]

/-- **Answers may come late**: what the object that remembers shows is a history
of the object itself. -/
theorem Late.Reaches.exists_reaches [Nonempty R] {b : Late τ σ Op R} (h : Late.Reaches D o b)
    (hD : Lasting D) :
    ∃ a, Atomic.Reaches D o a ∧ a.obj = b.now.obj ∧ a.history = b.now.history := by
  obtain ⟨r⟩ := ‹Nonempty R›
  obtain ⟨a, ha, hobj, hhistory, -⟩ :=
    h.exists_ahead hD ∅ (fun _ => r) fun u hu => absurd hu (Finset.notMem_empty u)
  exact ⟨a, ha, hobj, hhistory⟩

end Answered

/-- **The simulation rule**: when every step of a system from a reachable state
is matched by steps of the object that remembers, every reachable state has one
of that object beside it. -/
theorem exists_reaches {ς α : Type} {S : System ς α} {D : Spec τ σ Op R} {o : σ}
    {Q : ς → Late τ σ Op R → Prop} (hinit : Q S.init (Late.start τ Op R o))
    (hstep : ∀ s x s' b, S.Reachable s → Q s b → S.next s x = some s' →
      ∃ b', ReflTransGen (Late.Step D) b b' ∧ Q s' b') {s : ς} (hs : S.Reachable s) :
    ∃ b, Late.Reaches D o b ∧ Q s b := by
  induction hs with
  | init => exact ⟨_, .refl, hinit⟩
  | step hs _ hnext ih =>
    obtain ⟨b, hb, hsim⟩ := ih
    obtain ⟨b', hbb', hsim'⟩ := hstep _ _ _ b hs hsim hnext
    exact ⟨b', hb.trans hbb', hsim'⟩

/-! ## The log explains the history -/

/-- What happened to one thread. -/
def own {β : Type} (t : τ) (l : List (τ × β)) : List β :=
  l.filterMap fun e => if e.1 = t then some e.2 else none

/-- The calls and returns of operations made one after another, the latest
first. -/
def alternate (done : List (Op × R)) : List (Op ⊕ R) := done.flatMap fun p => [.inr p.2, .inl p.1]

/-- **The calls and returns of a thread agree with its operations**, the last of
which may be called and not done yet, or done and not returned yet. -/
inductive Agree : List (Op ⊕ R) → List (Op × R) → Prop
  | idle (done : List (Op × R)) : Agree (alternate done) done
  | invoked (op : Op) (done : List (Op × R)) : Agree (.inl op :: alternate done) done
  | performed (op : Op) (r : R) (done : List (Op × R)) :
      Agree (.inl op :: alternate done) ((op, r) :: done)

/-- **A log explains a history**: it agrees with what every thread saw, and what
was in the history at an earlier time is explained by what was in the log by
then – so an operation that had returned is in the log before any that had not
been called. -/
structure Explains (log : List (τ × Op × R)) (history : List (τ × (Op ⊕ R))) : Prop where
  agree : ∀ t, Agree (own t history) (own t log)
  realTime : ∀ rest, rest <:+ history → ∃ log₀, log₀ <:+ log
    ∧ ∀ t, Agree (own t rest) (own t log₀)

@[simp] theorem own_cons_self {β : Type} (t : τ) (b : β) (l : List (τ × β)) :
    own t ((t, b) :: l) = b :: own t l := by
  simp [own]

theorem own_cons_of_ne {β : Type} {t u : τ} (hne : t ≠ u) (b : β) (l : List (τ × β)) :
    own t ((u, b) :: l) = own t l := by
  simp [own, Ne.symm hne]

/-- What a thread saw, by where it is. -/
def Phase.Seen : Phase Op R → List (Op ⊕ R) → List (Op × R) → Prop
  | idle, calls, done => calls = alternate done
  | invoked op, calls, done => calls = .inl op :: alternate done
  | performed op r, calls, done => ∃ before, done = (op, r) :: before
      ∧ calls = .inl op :: alternate before

omit [DecidableEq τ] in
theorem Phase.Seen.agree {p : Phase Op R} {calls : List (Op ⊕ R)} {done : List (Op × R)}
    (h : p.Seen calls done) : Agree calls done := by
  cases p with
  | idle =>
    subst h
    exact .idle done
  | invoked op =>
    subst h
    exact .invoked op done
  | performed op r =>
    obtain ⟨before, rfl, rfl⟩ := h
    exact .performed op r before

variable {D : Spec τ σ Op R} {o : σ} {a a' : State τ σ Op R}

/-- One step keeps what each thread saw in line with the log. -/
theorem Step.seen (h : Step D a a') (hseen : ∀ t, (a.phase t).Seen (own t a.history) (own t a.log))
    (t : τ) : (a'.phase t).Seen (own t a'.history) (own t a'.log) := by
  have hold := hseen t
  cases h with
  | call u op hphase =>
    by_cases htu : t = u
    · subst htu
      rw [hphase] at hold
      simpa [Phase.Seen] using hold
    · simpa [Function.update_of_ne htu, own_cons_of_ne htu] using hold
  | perform u op o r hphase hspec =>
    by_cases htu : t = u
    · subst htu
      rw [hphase] at hold
      simpa [Phase.Seen] using hold
    · simpa [Function.update_of_ne htu, own_cons_of_ne htu] using hold
  | ret u op r hphase =>
    by_cases htu : t = u
    · subst htu
      rw [hphase] at hold
      obtain ⟨before, hlog, hcalls⟩ := hold
      simp [Phase.Seen, hlog, hcalls, alternate]
    · simpa [Function.update_of_ne htu, own_cons_of_ne htu] using hold

/-- **What each thread saw** is in line with the log. -/
theorem Reaches.seen (h : Reaches D o a) (t : τ) :
    (a.phase t).Seen (own t a.history) (own t a.log) := by
  induction h generalizing t with
  | refl => rfl
  | tail _ hstep ih => exact hstep.seen ih t

/-- One step adds to the history and to the log, to one of them at most. -/
theorem Step.suffix (h : Step D a a') :
    (a'.history = a.history ∧ a.log <:+ a'.log)
      ∨ ∃ e, a'.history = e :: a.history ∧ a'.log = a.log := by
  cases h with
  | call u op hphase => exact Or.inr ⟨_, rfl, rfl⟩
  | perform u op o r hphase hspec => exact Or.inl ⟨rfl, List.suffix_cons _ _⟩
  | ret u op r hphase => exact Or.inr ⟨_, rfl, rfl⟩

/-- **An earlier history** was reached before, with less in the log. -/
theorem Reaches.exists_of_suffix (h : Reaches D o a) {rest : List (τ × (Op ⊕ R))}
    (hrest : rest <:+ a.history) : ∃ a₀, Reaches D o a₀ ∧ a₀.history = rest ∧ a₀.log <:+ a.log := by
  induction h with
  | refl =>
    obtain rfl := List.suffix_nil.mp hrest
    exact ⟨_, .refl, rfl, List.suffix_refl _⟩
  | tail hreach hstep ih =>
    rcases hstep.suffix with ⟨hsame, hlog⟩ | ⟨e, hcons, hlog⟩
    · obtain ⟨a₀, ha₀, heq, hsub⟩ := ih (hsame ▸ hrest)
      exact ⟨a₀, ha₀, heq, hsub.trans hlog⟩
    · rw [hcons] at hrest
      rcases List.suffix_cons_iff.mp hrest with rfl | hrest
      · exact ⟨_, hreach.tail hstep, hcons, List.suffix_refl _⟩
      · obtain ⟨a₀, ha₀, heq, hsub⟩ := ih hrest
        exact ⟨a₀, ha₀, heq, hlog ▸ hsub⟩

/-- **The log of an atomic object explains its history.** -/
theorem Reaches.explains (h : Reaches D o a) : Explains a.log a.history where
  agree t := (h.seen t).agree
  realTime rest hrest := by
    obtain ⟨a₀, ha₀, rfl, hsub⟩ := h.exists_of_suffix hrest
    exact ⟨a₀.log, hsub, fun t => (ha₀.seen t).agree⟩

end Atomic
