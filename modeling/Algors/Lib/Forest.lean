import Mathlib.Data.Nat.Notation
import Mathlib.Logic.Function.Basic
import Mathlib.Logic.Relation

/-!
# Forests of parent links, and the classes they stand for

A forest is given by what the parent of each node is, if it has one. From a
node one comes to its root in a number of links, its depth. Two changes of a
forest are of interest: a root is linked below another root, which sends the
nodes of its tree there, one link deeper at most; and a node is linked to its
own root, which moves no node to another root and none deeper.

The classes a forest stands for are the equivalence closure of pairs that were
merged one after another; `eqvGen_insert_iff` says what one pair more does.
-/

namespace Forest

variable {α : Type} {parent : α → Option α} {i p r s : α} {n m : ℕ}

/-- **The root of a node**, and the number of links to it. -/
inductive Reaches (parent : α → Option α) : α → α → ℕ → Prop
  | root {r : α} (h : parent r = none) : Reaches parent r r 0
  | step {i p r : α} {n : ℕ} (h : parent i = some p) (hp : Reaches parent p r n) :
      Reaches parent i r (n + 1)

theorem Reaches.parent_root (h : Reaches parent i r n) : parent r = none := by
  induction h with
  | root h => exact h
  | step _ _ ih => exact ih

/-- A node has one root, at one depth. -/
theorem Reaches.unique (h : Reaches parent i r n) (h' : Reaches parent i s m) : r = s ∧ n = m := by
  induction h generalizing m with
  | root hroot =>
    cases h' with
    | root => exact ⟨rfl, rfl⟩
    | step hp _ => cases hroot.symm.trans hp
  | step hp _ ih =>
    cases h' with
    | root hroot => cases hroot.symm.trans hp
    | step hp' h' =>
      obtain rfl := Option.some.inj (hp.symm.trans hp')
      obtain ⟨rfl, rfl⟩ := ih h'
      exact ⟨rfl, rfl⟩

/-- A node with a parent is below its root. -/
theorem Reaches.depth_ne_zero (h : Reaches parent i r n) (hp : parent i = some p) : n ≠ 0 := by
  cases h with
  | root hroot => cases hroot.symm.trans hp
  | step _ _ => exact Nat.succ_ne_zero _

variable [DecidableEq α]

/-- **Linking a root below another** sends its tree there. -/
theorem Reaches.link (h : Reaches parent i r n) {a b : α} (ha : parent a = none)
    (hb : parent b = none) (hne : a ≠ b) :
    (r = a → Reaches (Function.update parent a (some b)) i b (n + 1))
      ∧ (r ≠ a → Reaches (Function.update parent a (some b)) i r n) := by
  induction h with
  | @root r hroot =>
    refine ⟨?_, fun hra => .root ?_⟩
    · rintro rfl
      exact .step (Function.update_self ..) (.root (by rwa [Function.update_of_ne hne.symm]))
    · rwa [Function.update_of_ne hra]
  | @step i p r n hp h ih =>
    have hia : i ≠ a := by
      rintro rfl
      cases ha.symm.trans hp
    have hp' : Function.update parent a (some b) i = some p := by rwa [Function.update_of_ne hia]
    exact ⟨fun hra => .step hp' (ih.1 hra), fun hra => .step hp' (ih.2 hra)⟩

/-- **Linking a node to its own root** moves no node to another root, and none
deeper. -/
theorem Reaches.compress (h : Reaches parent i r n) {c : α} (hc : Reaches parent c s m)
    (hm : m ≠ 0) : ∃ n' ≤ n, Reaches (Function.update parent c (some s)) i r n' := by
  have hcs : s ≠ c := by
    rintro rfl
    obtain ⟨_, rfl⟩ := hc.unique (.root hc.parent_root)
    exact hm rfl
  induction h with
  | @root r hroot =>
    have hrc : r ≠ c := by
      rintro rfl
      exact hm (hc.unique (.root hroot)).2
    exact ⟨0, Nat.le_refl 0, .root (by rwa [Function.update_of_ne hrc])⟩
  | @step i p r n hp h ih =>
    by_cases hic : i = c
    · subst hic
      obtain ⟨rfl, _⟩ := hc.unique (.step hp h)
      refine ⟨1, Nat.succ_le_succ (Nat.zero_le n), .step (Function.update_self ..) (.root ?_)⟩
      rw [Function.update_of_ne hcs]
      exact hc.parent_root
    · obtain ⟨n', hle, h'⟩ := ih
      exact ⟨n' + 1, Nat.succ_le_succ hle, .step (by rwa [Function.update_of_ne hic]) h'⟩

/-! ## Classes -/

omit [DecidableEq α]

open Relation in
/-- **The closure of one pair more**: the classes of its two members become
one, and nothing else changes. -/
theorem eqvGen_insert_iff {rel : α → α → Prop} {a b x y : α} :
    EqvGen (fun x y => (x = a ∧ y = b) ∨ rel x y) x y
      ↔ EqvGen rel x y ∨ (EqvGen rel x a ∧ EqvGen rel b y) ∨ (EqvGen rel x b ∧ EqvGen rel a y) := by
  have hmono : ∀ x y, EqvGen rel x y → EqvGen (fun x y => (x = a ∧ y = b) ∨ rel x y) x y :=
    EqvGen.mono fun _ _ h => Or.inr h
  have hab : EqvGen (fun x y => (x = a ∧ y = b) ∨ rel x y) a b := .rel _ _ (Or.inl ⟨rfl, rfl⟩)
  constructor
  · intro h
    induction h with
    | rel x y h =>
      rcases h with ⟨rfl, rfl⟩ | h
      · exact Or.inr (Or.inl ⟨.refl _, .refl _⟩)
      · exact Or.inl (.rel _ _ h)
    | refl x => exact Or.inl (.refl x)
    | symm x y _ ih =>
      rcases ih with h | ⟨h₁, h₂⟩ | ⟨h₁, h₂⟩
      · exact Or.inl (.symm _ _ h)
      · exact Or.inr (Or.inr ⟨.symm _ _ h₂, .symm _ _ h₁⟩)
      · exact Or.inr (Or.inl ⟨.symm _ _ h₂, .symm _ _ h₁⟩)
    | trans x y z _ _ ih ih' =>
      rcases ih with h | ⟨h₁, h₂⟩ | ⟨h₁, h₂⟩ <;> rcases ih' with h' | ⟨h₁', h₂'⟩ | ⟨h₁', h₂'⟩
      · exact Or.inl (.trans _ _ _ h h')
      · exact Or.inr (Or.inl ⟨.trans _ _ _ h h₁', h₂'⟩)
      · exact Or.inr (Or.inr ⟨.trans _ _ _ h h₁', h₂'⟩)
      · exact Or.inr (Or.inl ⟨h₁, .trans _ _ _ h₂ h'⟩)
      · exact Or.inr (Or.inl ⟨h₁, h₂'⟩)
      · exact Or.inl (.trans _ _ _ h₁ h₂')
      · exact Or.inr (Or.inr ⟨h₁, .trans _ _ _ h₂ h'⟩)
      · exact Or.inl (.trans _ _ _ h₁ h₂')
      · exact Or.inr (Or.inr ⟨h₁, h₂'⟩)
  · rintro (h | ⟨h₁, h₂⟩ | ⟨h₁, h₂⟩)
    · exact hmono _ _ h
    · exact .trans _ _ _ (hmono _ _ h₁) (.trans _ _ _ hab (hmono _ _ h₂))
    · exact .trans _ _ _ (hmono _ _ h₁) (.trans _ _ _ (.symm _ _ hab) (hmono _ _ h₂))

open Relation in
/-- A node in no pair is in a class of its own. -/
theorem eqvGen_fresh {rel : α → α → Prop} {c x : α} (hfresh : ∀ x y, rel x y → x ≠ c ∧ y ≠ c)
    (h : EqvGen rel x c) : x = c := by
  have hiff : ∀ x y, EqvGen rel x y → (x = c ↔ y = c) := by
    intro x y h
    induction h with
    | rel x y h => exact iff_of_false (hfresh x y h).1 (hfresh x y h).2
    | refl x => exact Iff.rfl
    | symm x y _ ih => exact ih.symm
    | trans x y z _ _ ih ih' => exact ih.trans ih'
  exact (hiff x c h).mpr rfl

end Forest
