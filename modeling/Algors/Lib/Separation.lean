import Mathlib.Algebra.Group.Prod
import Mathlib.Algebra.Order.Group.Multiset
import Mathlib.Data.Set.Card
import Mathlib.Logic.Function.Basic

/-!
# Programs on a memory that is shared out

A memory is a partial map of keys to contents. What a part of a program owns of it is a
multiset of keys with their contents, and values beside them that live in these contents;
`Has` says that the owners of two such holdings share nothing, and that together they own
all there is. Values that end are counted, so that none is lost: those that are owned and
those that ended are always the same in total.

`Realizes stops x given p R` is what is proved of a program `x`. Given a holding, and
whatever others own, and where the pure computation `p` returns, `x` returns as well, and
leaves a holding that `R` relates to the results, and what the others own as it was; or it
stops in one of the ways that `stops` allows. As the frame is part of the judgement it
composes: one program runs after another with what the first did not need handed past it.
`Looks` and `Finds` are the same of a program that changes nothing.
-/

variable {K C V S E F α β γ δ : Type}

/-! ## What is owned of a partial map -/

/-- **All that a partial map contains**, each key once. -/
structure Owns (f : K → Option C) (m : Multiset (K × C)) : Prop where
  nodup : (m.map Prod.fst).Nodup
  mem_iff : ∀ k c, (k, c) ∈ m ↔ f k = some c

namespace Owns

variable {f f' : K → Option C} {m : Multiset (K × C)} {k : K} {c : C}

theorem get (h : Owns f ({(k, c)} + m)) : f k = some c :=
  (h.mem_iff k c).mp (Multiset.mem_add.mpr (Or.inl (Multiset.mem_singleton_self _)))

theorem notMem_keys (h : Owns f ({(k, c)} + m)) : k ∉ m.map Prod.fst := by
  have hnodup := h.nodup
  rw [Multiset.map_add, Multiset.map_singleton, Multiset.singleton_add,
    Multiset.nodup_cons] at hnodup
  exact hnodup.1

theorem notMem_keys_of_none (h : Owns f m) (hk : f k = none) : k ∉ m.map Prod.fst := by
  intro hmem
  obtain ⟨⟨k', c⟩, hc, rfl⟩ := Multiset.mem_map.mp hmem
  exact Option.some_ne_none c (((h.mem_iff _ c).mp hc).symm.trans hk)

/-- **Keys of a kind** are as many as the multiset has. -/
theorem encard_eq {A : Type} (h : Owns f m) {g : A → K} (hg : Function.Injective g)
    (p : K → Prop) [DecidablePred p] (hp : ∀ k, p k ↔ ∃ a, g a = k) :
    {a | f (g a) ≠ none}.encard = (m.countP fun x => p x.1 : ℕ) := by
  have hnodup : ((m.filter fun x => p x.1).map Prod.fst).Nodup :=
    Multiset.nodup_of_le (Multiset.map_le_map (Multiset.filter_le _ m)) h.nodup
  have himage : Set.image g {a | f (g a) ≠ none}
      = ((⟨_, hnodup⟩ : Finset K) : Set K) := by
    ext k
    rw [Finset.mem_coe, Finset.mem_mk, Multiset.mem_map]
    constructor
    · rintro ⟨a, ha, rfl⟩
      obtain ⟨c, hc⟩ := Option.ne_none_iff_exists'.mp ha
      exact ⟨(g a, c), Multiset.mem_filter.mpr ⟨(h.mem_iff _ c).mpr hc, (hp _).mpr ⟨a, rfl⟩⟩, rfl⟩
    · rintro ⟨⟨k, c⟩, hx, rfl⟩
      obtain ⟨hmem, hk⟩ := Multiset.mem_filter.mp hx
      obtain ⟨a, rfl⟩ := (hp k).mp hk
      exact ⟨a, Option.ne_none_iff_exists'.mpr ⟨c, (h.mem_iff _ c).mp hmem⟩, rfl⟩
  rw [← hg.encard_image, himage, Set.encard_coe_eq_coe_finsetCard, Finset.card_mk,
    Multiset.card_map, Multiset.countP_eq_card_filter]

section Update

variable [DecidableEq K]

/-- **Giving a key up.** -/
theorem erase (h : Owns f ({(k, c)} + m)) : Owns (Function.update f k none) m where
  nodup := by
    have hnodup := h.nodup
    rw [Multiset.map_add, Multiset.map_singleton, Multiset.singleton_add,
      Multiset.nodup_cons] at hnodup
    exact hnodup.2
  mem_iff k' c' := by
    by_cases hk : k' = k
    · subst hk
      rw [Function.update_self]
      exact ⟨fun hmem => absurd (Multiset.mem_map_of_mem Prod.fst hmem) h.notMem_keys,
        fun hnone => absurd hnone.symm (Option.some_ne_none c')⟩
    · rw [Function.update_of_ne hk, ← h.mem_iff, Multiset.mem_add, Multiset.mem_singleton,
        or_iff_right fun heq => hk (Prod.mk.inj heq).1]

/-- **Taking a key that nobody owns.** -/
theorem insert (h : Owns f m) (hk : f k = none) (c : C) :
    Owns (Function.update f k (some c)) ({(k, c)} + m) where
  nodup := by
    rw [Multiset.map_add, Multiset.map_singleton, Multiset.singleton_add, Multiset.nodup_cons]
    exact ⟨h.notMem_keys_of_none hk, h.nodup⟩
  mem_iff k' c' := by
    rw [Multiset.mem_add, Multiset.mem_singleton, h.mem_iff]
    by_cases heq : k' = k
    · subst heq
      rw [Function.update_self, hk, Prod.mk.injEq, Option.some.injEq]
      refine ⟨fun h => h.elim (fun h => h.2.symm) fun h => ?_, fun h => Or.inl ⟨rfl, h.symm⟩⟩
      exact absurd h.symm (Option.some_ne_none c')
    · rw [Function.update_of_ne heq, or_iff_right fun h => heq (Prod.mk.inj h).1]

/-- **Changing what is at a key.** -/
theorem set (h : Owns f ({(k, c)} + m)) (c' : C) :
    Owns (Function.update f k (some c')) ({(k, c')} + m) := by
  have hset := h.erase.insert (Function.update_self ..) c'
  rwa [Function.update_idem] at hset

end Update

/-! ### Keys in a row -/

variable {key : ℕ → K} {o : ℕ} {cs : List C}

/-- **Contents in a row**, from a key on. -/
def runAt (key : ℕ → K) : ℕ → List C → Multiset (K × C)
  | _, [] => 0
  | o, c :: cs => {(key o, c)} + runAt key (o + 1) cs

theorem getRun (h : Owns f (runAt key o cs + m)) (i : ℕ) (c : C) (hc : cs[i]? = some c) :
    f (key (o + i)) = some c := by
  induction cs generalizing o i m with
  | nil => cases hc
  | cons d cs ih =>
    rw [runAt, add_assoc] at h
    cases i with
    | zero =>
      obtain rfl := Option.some.inj hc
      exact h.get
    | succ i =>
      rw [add_left_comm] at h
      have hnext := ih h i hc
      rwa [Nat.add_assoc, Nat.add_comm 1] at hnext

variable [DecidableEq K]

/-- Giving up keys in a row. -/
theorem eraseRun (h : Owns f (runAt key o cs + m))
    (hin : ∀ i < cs.length, f' (key (o + i)) = none)
    (hout : ∀ k, (∀ i < cs.length, k ≠ key (o + i)) → f' k = f k) : Owns f' m := by
  induction cs generalizing o f with
  | nil =>
    rw [runAt, zero_add] at h
    rwa [funext fun k => hout k fun i hi => absurd hi (Nat.not_lt_zero i)]
  | cons c cs ih =>
    rw [runAt, add_assoc] at h
    refine ih h.erase (fun i hi => ?_) fun k hk => ?_
    · have hnext := hin (i + 1) (Nat.succ_lt_succ hi)
      rwa [Nat.add_comm i, ← Nat.add_assoc] at hnext
    · by_cases hpt : k = key o
      · subst hpt
        rw [Function.update_self]
        exact hin 0 (Nat.succ_pos _)
      · rw [Function.update_of_ne hpt]
        refine hout k fun i hi => ?_
        cases i with
        | zero => exact hpt
        | succ i =>
          rw [Nat.add_comm i, ← Nat.add_assoc]
          exact hk i (Nat.lt_of_succ_lt_succ hi)

/-- Taking keys in a row. -/
theorem insertRun (h : Owns f m) (hinj : Function.Injective key)
    (hfree : ∀ i < cs.length, f (key (o + i)) = none)
    (hin : ∀ i c, cs[i]? = some c → f' (key (o + i)) = some c)
    (hout : ∀ k, (∀ i < cs.length, k ≠ key (o + i)) → f' k = f k) :
    Owns f' (runAt key o cs + m) := by
  induction cs generalizing o f m with
  | nil =>
    rw [runAt, zero_add]
    rwa [funext fun k => hout k fun i hi => absurd hi (Nat.not_lt_zero i)]
  | cons c cs ih =>
    have hcons := h.insert (hfree 0 (Nat.succ_pos _)) c
    have hapart : ∀ i, key (o + 1 + i) ≠ key o := fun i heq => by
      have := hinj heq
      omega
    have hrun := ih (o := o + 1) hcons (fun i hi => ?_) (fun i d hd => ?_) fun k hk => ?_
    · rwa [runAt, add_assoc, add_left_comm]
    · rw [Nat.add_zero, Function.update_of_ne (hapart i), Nat.add_assoc, Nat.add_comm 1]
      exact hfree (i + 1) (Nat.succ_lt_succ hi)
    · rw [Nat.add_assoc, Nat.add_comm 1]
      exact hin (i + 1) d hd
    · rw [Nat.add_zero]
      by_cases hpt : k = key o
      · subst hpt
        rw [Function.update_self]
        exact hin 0 c rfl
      · rw [Function.update_of_ne hpt]
        refine hout k fun i hi => ?_
        cases i with
        | zero => exact hpt
        | succ i =>
          rw [Nat.add_comm i, ← Nat.add_assoc]
          exact hk i (Nat.lt_of_succ_lt_succ hi)

end Owns

/-! ## Holdings -/

/-- **What a part of a program owns**: contents at keys, and values. -/
abbrev Holdings (K C V : Type) := Multiset (K × C) × Multiset V

/-- **A memory**: what is at its keys, and the values that ended. -/
class Store (S : Type) (K C V : outParam Type) where
  view : S → K → Option C
  dropped : S → List V

/-- **All of a memory**, where `total` are the values that did not end and those that did. -/
structure Has [Store S K C V] (total : Multiset V) (s : S) (held : Holdings K C V) : Prop where
  owns : Owns (Store.view s) held.1
  values : held.2 + (Store.dropped s : Multiset V) = total

/-- **Where the pure computation returns, the program does what it does** with what it is
given, or stops as it may. -/
def Realizes [Store S K C V] (stops : E → Prop) (x : StateT S (Except E) α)
    (given : Holdings K C V) (p : Except F β) (R : α → β → Holdings K C V → Prop) : Prop :=
  ∀ b, p = .ok b → ∀ s total frame, Has total s (given + frame) →
    (∃ e, stops e ∧ x s = .error e)
      ∨ ∃ a s' kept, x s = .ok (a, s') ∧ R a b kept ∧ Has total s' (kept + frame)

/-- **The program changes nothing**, and finds what the pure computation returns. -/
def Looks [Store S K C V] (x : StateT S (Except E) α) (given : Holdings K C V)
    (p : Except F α) : Prop :=
  ∀ a, p = .ok a → ∀ s total frame, Has total s (given + frame) → x s = .ok (a, s)

/-- **The program changes nothing**, and `R` relates what it finds to what the pure
computation returns. -/
def Finds [Store S K C V] (x : StateT S (Except E) α) (given : Holdings K C V)
    (p : Except F β) (R : α → β → Prop) : Prop :=
  ∀ b, p = .ok b → ∀ s total frame, Has total s (given + frame) → ∃ a, x s = .ok (a, s) ∧ R a b

theorem Except.bind_eq_ok {p : Except F α} {q : α → Except F β} {b : β}
    (h : p >>= q = .ok b) : ∃ a, p = .ok a ∧ q a = .ok b := by
  cases p with
  | error e => cases h
  | ok a => exact ⟨a, rfl, h⟩

section Rules

variable [Store S K C V] {stops : E → Prop} {x : StateT S (Except E) α}
  {given rest all : Holdings K C V} {p : Except F β} {R R' : α → β → Holdings K C V → Prop}

theorem StateT.bind_eq_ok_apply {f : α → StateT S (Except E) β} {s s' : S} {a : α}
    (h : x s = .ok (a, s')) : (x >>= f) s = f a s' := by
  show (x s >>= fun r => f r.1 r.2) = _
  rw [h]
  rfl

theorem StateT.bind_eq_error_apply {f : α → StateT S (Except E) β} {s : S} {e : E}
    (h : x s = .error e) : (x >>= f) s = .error e := by
  show (x s >>= fun r => f r.1 r.2) = _
  rw [h]
  rfl

namespace Looks

variable {p : Except F α}

/-- Whoever owns more sees as much. -/
theorem more (hx : Looks x given p) (hall : all = given + rest) : Looks x all p :=
  fun a ha s total frame h => hx a ha s total (rest + frame) (by rwa [← add_assoc, ← hall])

theorem moreLeft (hx : Looks x given p) : Looks x (rest + given) p := hx.more (add_comm _ _)

theorem ret (a : α) : Looks (pure a : StateT S (Except E) α) given (.ok a : Except F α) :=
  fun _ ha _ _ _ _ => by
    obtain rfl := Except.ok.inj ha
    rfl

/-- **One look after another.** -/
theorem bind {f : α → StateT S (Except E) γ} {q : α → Except F γ} (hx : Looks x given p)
    (hf : ∀ a, p = .ok a → Looks (f a) given (q a)) : Looks (x >>= f) given (p >>= q) := by
  intro c hc s total frame h
  obtain ⟨a, ha, hc⟩ := Except.bind_eq_ok hc
  exact (StateT.bind_eq_ok_apply (hx a ha s total frame h)).trans (hf a ha c hc s total frame h)

/-- A look that the pure computation has no part in. -/
theorem bindLeft {f : α → StateT S (Except E) γ} {a : α} {q : Except F γ}
    (hx : Looks x given (.ok a : Except F α)) (hf : Looks (f a) given q) :
    Looks (x >>= f) given q := fun c hc s total frame h =>
  (StateT.bind_eq_ok_apply (hx a rfl s total frame h)).trans (hf c hc s total frame h)

/-- A look with what was found. -/
theorem find {f : α → StateT S (Except E) γ} {p : Except F β} {q : β → Except F γ}
    {R : α → β → Prop} (hx : Finds x given p R)
    (hf : ∀ a b, p = .ok b → R a b → Looks (f a) given (q b)) :
    Looks (x >>= f) given (p >>= q) := by
  intro c hc s total frame h
  obtain ⟨b, hb, hc⟩ := Except.bind_eq_ok hc
  obtain ⟨a, ha, hR⟩ := hx b hb s total frame h
  exact (StateT.bind_eq_ok_apply ha).trans (hf a b hb hR c hc s total frame h)

end Looks

namespace Finds

variable {R : α → β → Prop}

/-- Whoever owns more finds as much. -/
theorem more (hx : Finds x given p R) (hall : all = given + rest) : Finds x all p R :=
  fun b hb s total frame h => hx b hb s total (rest + frame) (by rwa [← add_assoc, ← hall])

theorem ret {a : α} {b : β} (hR : R a b) :
    Finds (pure a : StateT S (Except E) α) given (.ok b : Except F β) R :=
  fun _ hb _ _ _ _ => ⟨a, rfl, Except.ok.inj hb ▸ hR⟩

/-- **A look, and a search after it.** -/
theorem look {f : α → StateT S (Except E) γ} {p : Except F α} {q : α → Except F δ}
    {R : γ → δ → Prop} (hx : Looks x given p)
    (hf : ∀ a, p = .ok a → Finds (f a) given (q a) R) : Finds (x >>= f) given (p >>= q) R := by
  intro d hd s total frame h
  obtain ⟨a, ha, hd⟩ := Except.bind_eq_ok hd
  rw [StateT.bind_eq_ok_apply (hx a ha s total frame h)]
  exact hf a ha d hd s total frame h

/-- A look that the pure computation has no part in. -/
theorem lookLeft {f : α → StateT S (Except E) γ} {a : α} {q : Except F δ} {R : γ → δ → Prop}
    (hx : Looks x given (.ok a : Except F α)) (hf : Finds (f a) given q R) :
    Finds (x >>= f) given q R :=
  look (q := fun _ => q) hx fun a' ha => by
    obtain rfl : a = a' := Except.ok.inj ha
    exact hf

end Finds

namespace Realizes

/-- A program that does nothing. -/
theorem ret {a : α} {b : β} (hR : R a b given) :
    Realizes stops (pure a : StateT S (Except E) α) given (.ok b : Except F β) R :=
  fun _ hb s _ _ h => Or.inr ⟨a, s, given, rfl, Except.ok.inj hb ▸ hR, h⟩

/-- **One program after another**: the second is given what the first left and did not
need. -/
theorem bind {f : α → StateT S (Except E) γ} {q : β → Except F δ}
    {Q : γ → δ → Holdings K C V → Prop} (hall : all = given + rest)
    (hx : Realizes stops x given p R)
    (hf : ∀ a b kept, p = .ok b → R a b kept → Realizes stops (f a) (kept + rest) (q b) Q) :
    Realizes stops (x >>= f) all (p >>= q) Q := by
  intro d hd s total frame h
  obtain ⟨b, hb, hd⟩ := Except.bind_eq_ok hd
  rw [hall, add_assoc] at h
  rcases hx b hb s total (rest + frame) h with ⟨e, he, hstop⟩ | ⟨a, s', kept, hok, hR, h'⟩
  · exact Or.inl ⟨e, he, StateT.bind_eq_error_apply hstop⟩
  · rw [StateT.bind_eq_ok_apply hok]
    exact hf a b kept hb hR d hd s' total frame (by rwa [add_assoc])

/-- One program after another, where the pure computation does nothing for the first. -/
theorem bindLeft {f : α → StateT S (Except E) γ} {q : Except F δ} {b : β}
    {Q : γ → δ → Holdings K C V → Prop} (hall : all = given + rest)
    (hx : Realizes stops x given (.ok b : Except F β) R)
    (hf : ∀ a kept, R a b kept → Realizes stops (f a) (kept + rest) q Q) :
    Realizes stops (x >>= f) all q Q :=
  bind (q := fun _ => q) hall hx fun a b' kept hb hR => hf a kept (by
    obtain rfl : b = b' := Except.ok.inj hb
    exact hR)

/-- One program after another, where the pure computation does nothing for the second. -/
theorem andThen {f : α → StateT S (Except E) γ} {Q : γ → β → Holdings K C V → Prop}
    (hall : all = given + rest) (hx : Realizes stops x given p R)
    (hf : ∀ a b kept, p = .ok b → R a b kept →
      Realizes stops (f a) (kept + rest) (.ok b : Except F β) Q) :
    Realizes stops (x >>= f) all p Q := by
  rw [← bind_pure p]
  exact bind hall hx hf

/-- A program that is the last one, and has a part in a larger one. -/
theorem map {g : β → δ} {Q : α → δ → Holdings K C V → Prop} (hall : all = given + rest)
    (hx : Realizes stops x given p R)
    (hQ : ∀ a b kept, p = .ok b → R a b kept → Q a (g b) (kept + rest)) :
    Realizes stops x all (p >>= fun b => .ok (g b)) Q := by
  intro d hd s total frame h
  obtain ⟨b, hb, hd⟩ := Except.bind_eq_ok hd
  obtain rfl := Except.ok.inj hd
  rw [hall, add_assoc] at h
  rcases hx b hb s total (rest + frame) h with hstop | ⟨a, s', kept, hok, hR, h'⟩
  · exact Or.inl hstop
  · exact Or.inr ⟨a, s', kept + rest, hok, hQ a b kept hb hR, by rwa [add_assoc]⟩

/-- It may be one that the pure computation has no part in. -/
theorem last {b : β} {d : δ} {Q : α → δ → Holdings K C V → Prop} (hall : all = given + rest)
    (hx : Realizes stops x given (.ok b : Except F β) R)
    (hQ : ∀ a kept, R a b kept → Q a d (kept + rest)) :
    Realizes stops x all (.ok d : Except F δ) Q :=
  map (g := fun _ => d) hall hx fun a b' kept hb hR => hQ a kept (by
    obtain rfl := Except.ok.inj hb
    exact hR)

/-- **A look, and a program after it.** -/
theorem look {f : α → StateT S (Except E) γ} {p : Except F α} {q : α → Except F δ}
    {Q : γ → δ → Holdings K C V → Prop} (hx : Looks x given p)
    (hf : ∀ a, p = .ok a → Realizes stops (f a) given (q a) Q) :
    Realizes stops (x >>= f) given (p >>= q) Q := by
  intro d hd s total frame h
  obtain ⟨a, ha, hd⟩ := Except.bind_eq_ok hd
  rw [StateT.bind_eq_ok_apply (hx a ha s total frame h)]
  exact hf a ha d hd s total frame h

/-- A look that the pure computation has no part in. -/
theorem lookLeft {f : α → StateT S (Except E) γ} {a : α} {q : Except F δ}
    {Q : γ → δ → Holdings K C V → Prop} (hx : Looks x given (.ok a : Except F α))
    (hf : Realizes stops (f a) given q Q) : Realizes stops (x >>= f) given q Q :=
  look (q := fun _ => q) hx fun a' ha => by
    obtain rfl : a = a' := Except.ok.inj ha
    exact hf

/-- **A search, and a program after it.** -/
theorem find {f : α → StateT S (Except E) γ} {q : β → Except F δ} {R : α → β → Prop}
    {Q : γ → δ → Holdings K C V → Prop} (hx : Finds x given p R)
    (hf : ∀ a b, p = .ok b → R a b → Realizes stops (f a) given (q b) Q) :
    Realizes stops (x >>= f) given (p >>= q) Q := by
  intro d hd s total frame h
  obtain ⟨b, hb, hd⟩ := Except.bind_eq_ok hd
  obtain ⟨a, ha, hR⟩ := hx b hb s total frame h
  rw [StateT.bind_eq_ok_apply ha]
  exact hf a b hb hR d hd s total frame h

/-- A weaker relation of the results. -/
theorem imp (hx : Realizes stops x given p R)
    (h : ∀ a b kept, p = .ok b → R a b kept → R' a b kept) : Realizes stops x given p R' := by
  intro b hb s total frame hs
  rcases hx b hb s total frame hs with hstop | ⟨a, s', kept, hok, hR, h'⟩
  · exact Or.inl hstop
  · exact Or.inr ⟨a, s', kept, hok, h a b kept hb hR, h'⟩

end Realizes

end Rules

/-! ## One key -/

namespace Holdings

/-- What is at a key. -/
def single (k : K) (c : C) : Holdings K C V := ({(k, c)}, 0)

/-- A value. -/
def value (v : V) : Holdings K C V := (0, {v})

/-- What is at keys in a row. -/
def row (key : ℕ → K) (o : ℕ) (cs : List C) : Holdings K C V := (Owns.runAt key o cs, 0)

/-- **A holding for each** of the things in a list, and the things that stand for them. -/
inductive Each (P : α → β → Holdings K C V → Prop) : List α → List β → Holdings K C V → Prop
  | nil : Each P [] [] 0
  | cons {a : α} {b : β} {as : List α} {bs : List β} {r rs : Holdings K C V} (h : P a b r)
      (hs : Each P as bs rs) : Each P (a :: as) (b :: bs) (r + rs)

namespace Each

variable {P : α → β → Holdings K C V → Prop} {as : List α} {bs : List β} {r : Holdings K C V}
  {i : ℕ} {a : α}

theorem length_eq (h : Each P as bs r) : as.length = bs.length := by
  induction h with
  | nil => rfl
  | cons _ _ ih => exact congrArg Nat.succ ih

/-- **One of them**, which may change or be taken out. -/
theorem split (h : Each P as bs r) (ha : as[i]? = some a) :
    ∃ b own rest, bs[i]? = some b ∧ P a b own ∧ r = own + rest
      ∧ (∀ a' b' own', P a' b' own' → Each P (as.set i a') (bs.set i b') (own' + rest))
      ∧ Each P (as.eraseIdx i) (bs.eraseIdx i) rest := by
  induction h generalizing i with
  | nil => cases ha
  | @cons a₀ b₀ as bs r₀ rs h hs ih =>
    cases i with
    | zero =>
      obtain rfl := Option.some.inj ha
      exact ⟨b₀, r₀, rs, rfl, h, rfl, fun _ _ _ h' => .cons h' hs, hs⟩
    | succ i =>
      obtain ⟨b, own, rest, hb, hown, rfl, hset, herase⟩ := ih ha
      refine ⟨b, own, r₀ + rest, hb, hown, add_left_comm _ _ _, fun a' b' own' h' => ?_,
        .cons h herase⟩
      rw [add_left_comm]
      exact .cons h (hset a' b' own' h')

/-- One more. -/
theorem insertIdx {b : β} {own : Holdings K C V} (h : Each P as bs r) (hi : i ≤ as.length)
    (hown : P a b own) : Each P (as.insertIdx i a) (bs.insertIdx i b) (own + r) := by
  induction h generalizing i with
  | nil =>
    obtain rfl := Nat.le_zero.mp hi
    exact .cons hown .nil
  | @cons a₀ b₀ as bs r₀ rs h hs ih =>
    cases i with
    | zero => exact .cons hown (.cons h hs)
    | succ i =>
      rw [add_left_comm]
      exact .cons h (ih (Nat.le_of_succ_le_succ hi))

/-- **Something that adds up** over the parts of a holding. -/
theorem measure {M : Type} [AddCommMonoid M] {R : M → M → Prop} (hzero : R 0 0)
    (hadd : ∀ a b c d, R a b → R c d → R (a + c) (b + d)) (φ : Holdings K C V →+ M) {g : α → M}
    (h : Each P as bs r) (hP : ∀ a ∈ as, ∀ b own, P a b own → R (φ own) (g a)) :
    R (φ r) (as.map g).sum := by
  induction h with
  | nil => rwa [map_zero]
  | @cons a b as bs r rs h hs ih =>
    rw [map_add, List.map_cons, List.sum_cons]
    exact hadd _ _ _ _ (hP a List.mem_cons_self b r h)
      (ih fun a ha => hP a (List.mem_cons_of_mem _ ha))

end Each

end Holdings

namespace Has

variable [Store S K C V] {total : Multiset V} {s s' : S} {frame : Holdings K C V} {k : K}
  {c c' : C}

theorem get (h : Has total s (Holdings.single k c + frame)) : Store.view s k = some c :=
  h.owns.get

theorem getRow {key : ℕ → K} {o i : ℕ} {cs : List C}
    (h : Has total s (Holdings.row key o cs + frame)) (hc : cs[i]? = some c) :
    Store.view s (key (o + i)) = some c :=
  h.owns.getRun i c hc

/-- Values that end. -/
theorem drop {v : V} (h : Has total s (Holdings.value v + frame))
    (hview : Store.view s' = Store.view s) (hdrop : Store.dropped s' = v :: Store.dropped s) :
    Has total s' frame where
  owns := by
    rw [hview, ← zero_add frame.1]
    exact h.owns
  values := by
    rw [hdrop, ← Multiset.cons_coe, ← Multiset.singleton_add, ← h.values]
    exact (add_left_comm _ _ _).trans (add_assoc _ _ _).symm

section Update

variable [DecidableEq K]

theorem set (h : Has total s (Holdings.single k c + frame))
    (hview : Store.view s' = Function.update (Store.view s) k (some c'))
    (hdrop : Store.dropped s' = Store.dropped s) :
    Has total s' (Holdings.single k c' + frame) where
  owns := by
    rw [hview]
    exact h.owns.set c'
  values := by
    rw [hdrop]
    exact h.values

theorem insert (h : Has total s frame) (hk : Store.view s k = none)
    (hview : Store.view s' = Function.update (Store.view s) k (some c))
    (hdrop : Store.dropped s' = Store.dropped s) :
    Has total s' (Holdings.single k c + frame) where
  owns := by
    rw [hview]
    exact h.owns.insert hk c
  values := by
    rw [hdrop, ← h.values]
    exact congrArg (· + _) (zero_add _)

theorem erase (h : Has total s (Holdings.single k c + frame))
    (hview : Store.view s' = Function.update (Store.view s) k none)
    (hdrop : Store.dropped s' = Store.dropped s) : Has total s' frame where
  owns := by
    rw [hview]
    exact h.owns.erase
  values := by
    rw [hdrop, ← h.values]
    exact congrArg (· + _) (zero_add _).symm

variable {key : ℕ → K} {o : ℕ} {cs : List C}

theorem insertRow (h : Has total s frame) (hinj : Function.Injective key)
    (hfree : ∀ i < cs.length, Store.view s (key (o + i)) = none)
    (hin : ∀ i c, cs[i]? = some c → Store.view s' (key (o + i)) = some c)
    (hout : ∀ k, (∀ i < cs.length, k ≠ key (o + i)) → Store.view s' k = Store.view s k)
    (hdrop : Store.dropped s' = Store.dropped s) :
    Has total s' (Holdings.row key o cs + frame) where
  owns := h.owns.insertRun hinj hfree hin hout
  values := by
    rw [hdrop, ← h.values]
    exact congrArg (· + _) (zero_add _)

theorem eraseRow (h : Has total s (Holdings.row key o cs + frame))
    (hin : ∀ i < cs.length, Store.view s' (key (o + i)) = none)
    (hout : ∀ k, (∀ i < cs.length, k ≠ key (o + i)) → Store.view s' k = Store.view s k)
    (hdrop : Store.dropped s' = Store.dropped s) : Has total s' frame where
  owns := h.owns.eraseRun hin hout
  values := by
    rw [hdrop, ← h.values]
    exact congrArg (· + _) (zero_add _).symm

end Update

end Has
