import Mathlib.Data.Option.Basic
import Mathlib.Logic.Basic

/-!
# Transition systems

A system with a start state and, for every action, at most one successor: an
action names all that is left open, which thread moves and how a choice falls
out, so that a step is a function and a run can be evaluated.

What holds in every reachable state is proved by induction on the run, once,
here: an invariant holds at the start and is kept by every step, where the
step may be taken from reachable states only. A guard on the steps restricts
the runs: `ReachableWhile G` is reachability by steps that meet `G`, and
`Reachable` reachability by any. A guard that depends on what happened before can
be put on the system with notes, `annotate`: they are written down step by step,
and the system goes on as if they were not there.
-/

/-- **A transition system**: a start state, and the successor under each
action, if there is one. -/
structure System (σ α : Type) where
  init : σ
  next : σ → α → Option σ

namespace System

variable {σ α : Type} {S : System σ α} {G H : σ → α → Prop} {s s' : σ} {a : α}

/-- **Reachability by steps that meet a guard.** -/
inductive ReachableWhile (S : System σ α) (G : σ → α → Prop) : σ → Prop
  | init : ReachableWhile S G S.init
  | step {s s' : σ} {a : α} (h : ReachableWhile S G s) (hguard : G s a)
      (hnext : S.next s a = some s') : ReachableWhile S G s'

/-- Reachability by any steps. -/
abbrev Reachable (S : System σ α) : σ → Prop := S.ReachableWhile fun _ _ => True

/-- **The invariant rule**: what holds at the start and is kept by every step
from a reachable state holds in every reachable state. -/
theorem ReachableWhile.invariant {I : σ → Prop} (h : S.ReachableWhile G s) (hinit : I S.init)
    (hstep : ∀ s a s', S.ReachableWhile G s → I s → G s a → S.next s a = some s' → I s') :
    I s := by
  induction h with
  | init => exact hinit
  | step hs hguard hnext ih => exact hstep _ _ _ hs ih hguard hnext

/-- A weaker guard reaches more. -/
theorem ReachableWhile.mono (h : S.ReachableWhile G s) (hGH : ∀ s a, G s a → H s a) :
    S.ReachableWhile H s := by
  induction h with
  | init => exact .init
  | step _ hguard hnext ih => exact ih.step (hGH _ _ hguard) hnext

theorem ReachableWhile.reachable (h : S.ReachableWhile G s) : S.Reachable s :=
  h.mono fun _ _ _ => trivial

/-- The state after a list of actions, if all of them can be taken. -/
def run (S : System σ α) (s : σ) : List α → Option σ
  | [] => some s
  | a :: as => (S.next s a).bind fun s' => S.run s' as

/-- One run after another. -/
theorem run_append {as as' : List α} {t : σ} (h : S.run s as = some t)
    (h' : S.run t as' = some s') : S.run s (as ++ as') = some s' := by
  induction as generalizing s with
  | nil =>
    obtain rfl : s = t := Option.some.inj h
    exact h'
  | cons a as ih =>
    obtain ⟨u, hu, h⟩ := Option.bind_eq_some_iff.mp h
    exact Option.bind_eq_some_iff.mpr ⟨u, hu, ih h⟩

/-- **What every step keeps, a run keeps.** -/
theorem run_keeps {P : σ → Prop} (hstep : ∀ s a s', P s → S.next s a = some s' → P s')
    {as : List α} (hs : P s) (hrun : S.run s as = some s') : P s' := by
  induction as generalizing s with
  | nil =>
    obtain rfl : s = s' := Option.some.inj hrun
    exact hs
  | cons a as ih =>
    obtain ⟨t, ht, hrun⟩ := Option.bind_eq_some_iff.mp hrun
    exact ih (hstep s a t hs ht) hrun

/-- Whether a list of actions can be taken and meets a guard throughout. -/
def RunMeets (S : System σ α) (G : σ → α → Prop) (s : σ) : List α → Prop
  | [] => True
  | a :: as => G s a ∧ ∀ s', S.next s a = some s' → S.RunMeets G s' as

/-- On a given run, a guard can be checked. -/
instance RunMeets.decidable [∀ s a, Decidable (G s a)] :
    ∀ (s : σ) (as : List α), Decidable (S.RunMeets G s as)
  | _, [] => .isTrue True.intro
  | s, a :: as =>
    match h : S.next s a with
    | none => decidable_of_iff (G s a)
        ⟨fun hguard => ⟨hguard, fun s' hs' => by cases h.symm.trans hs'⟩, And.left⟩
    | some t =>
      have := RunMeets.decidable t as
      decidable_of_iff (G s a ∧ S.RunMeets G t as)
        ⟨fun ⟨hguard, hmeets⟩ =>
            ⟨hguard, fun s' hs' => Option.some.inj (h.symm.trans hs') ▸ hmeets⟩,
          fun ⟨hguard, hmeets⟩ => ⟨hguard, hmeets t h⟩⟩

/-- Every run meets the guard that asks for nothing. -/
theorem RunMeets.trivial (as : List α) (s : σ) : S.RunMeets (fun _ _ => True) s as := by
  induction as generalizing s with
  | nil => exact True.intro
  | cons a as ih => exact ⟨True.intro, fun s' _ => ih s'⟩

/-- **A run that meets the guard reaches its end.** -/
theorem ReachableWhile.of_run {as : List α} (hs : S.ReachableWhile G s)
    (hmeets : S.RunMeets G s as) (hrun : S.run s as = some s') : S.ReachableWhile G s' := by
  induction as generalizing s with
  | nil =>
    obtain rfl : s = s' := by simpa [run] using hrun
    exact hs
  | cons a as ih =>
    obtain ⟨t, ht, hrun⟩ := Option.bind_eq_some_iff.mp hrun
    exact ih (hs.step hmeets.1 ht) (hmeets.2 t ht) hrun

/-- A run reaches its end. -/
theorem Reachable.of_run {as : List α} (hrun : S.run S.init as = some s') : S.Reachable s' :=
  ReachableWhile.init.of_run (RunMeets.trivial as S.init) hrun

/-! ## Notes -/

variable {γ : Type} {note : γ} {write : σ → α → γ → γ}

/-- **The system with notes** on what happened, which change with every step. -/
def annotate (S : System σ α) (note : γ) (write : σ → α → γ → γ) : System (σ × γ) α where
  init := (S.init, note)
  next p a := (S.next p.1 a).map fun s' => (s', write p.1 a p.2)

theorem annotate_next_eq_some {p p' : σ × γ} :
    (S.annotate note write).next p a = some p'
      ↔ S.next p.1 a = some p'.1 ∧ p'.2 = write p.1 a p.2 := by
  obtain ⟨s', n'⟩ := p'
  show (S.next p.1 a).map _ = _ ↔ _
  rw [Option.map_eq_some_iff]
  constructor
  · rintro ⟨s'', hs'', heq⟩
    obtain ⟨rfl, rfl⟩ := Prod.mk.inj heq
    exact ⟨hs'', rfl⟩
  · rintro ⟨hs', rfl⟩
    exact ⟨s', hs', rfl⟩

/-- **Notes change nothing**: what is reached with them is reached without. -/
theorem ReachableWhile.of_annotate {p : σ × γ} {G : σ × γ → α → Prop}
    (h : (S.annotate note write).ReachableWhile G p) : S.Reachable p.1 := by
  induction h with
  | init => exact .init
  | step _ _ hnext ih => exact ih.step True.intro (annotate_next_eq_some.mp hnext).1

end System
