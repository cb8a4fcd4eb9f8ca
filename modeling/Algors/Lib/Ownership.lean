import Mathlib.Algebra.Order.Group.Multiset
import Mathlib.Algebra.Group.Prod

/-!
# Programs that own blocks and values

A program that manages memory by hand allocates blocks, frees them, and drops
values. `Ledger` is the account of that, and `Owning` a program that keeps it: it
fails when it frees a block that is not allocated.

`Settles x given p own R` is what is proved of such a program. Given the blocks and
values in `given`, `x` does what the pure computation `p` does – it fails when `p`
fails, and returns a result that `R` relates to that of `p` when `p` returns – and
accounts for all it was given: the blocks of the result are those that are allocated
and not freed, and the values of the result with the values dropped are the values
given. What others own is not touched. So nothing is leaked, nothing freed or dropped
twice, and nothing owned twice.

The judgement composes: `Settles.bind` runs one program after another, with whatever
the first did not need handed past it.
-/

variable {E V α β γ δ : Type}

/-- **The account of a program**: the blocks that are allocated, and the values that
were dropped. No block is allocated twice. -/
structure Ledger (V : Type) where
  next : ℕ
  live : List ℕ
  dropped : List V

/-- **Blocks and values** that something owns, each as often as it does. -/
abbrev Holding (V : Type) := Multiset ℕ × Multiset V

namespace Holding

/-- A block. -/
def block (pt : ℕ) : Holding V := ({pt}, 0)

/-- A value. -/
def value (v : V) : Holding V := (0, {v})

/-- What is owned where there may be nothing. -/
def option (own : α → Holding V) : Option α → Holding V
  | none => 0
  | some a => own a

end Holding

namespace Ledger

/-- The account at the start. -/
def empty : Ledger V := ⟨0, [], []⟩

/-- The account with nothing dropped yet. -/
def anew (l : Ledger V) : Ledger V := { l with dropped := [] }

/-- Blocks are numbered as they are allocated. -/
structure Valid (l : Ledger V) : Prop where
  lt_next : ∀ pt ∈ l.live, pt < l.next
  nodup : l.live.Nodup

theorem valid_empty : (empty : Ledger V).Valid := ⟨List.forall_mem_nil _, List.nodup_nil⟩

theorem Valid.anew {l : Ledger V} (h : l.Valid) : l.anew.Valid := ⟨h.lt_next, h.nodup⟩

/-- **From one account to another**, of a program that was given `given` and is left
with `kept`, where others own the blocks of `frame`. -/
structure Settled (l l' : Ledger V) (given kept : Holding V) (frame : Multiset ℕ) : Prop where
  valid : l'.Valid
  live : (l'.live : Multiset ℕ) = kept.1 + frame
  values : given.2 + (l.dropped : Multiset V) = kept.2 + (l'.dropped : Multiset V)

/-- One settlement after another, with `rest` handed past the first. -/
theorem Settled.trans {l₁ l₂ l₃ : Ledger V} {given kept kept' rest : Holding V}
    {frame : Multiset ℕ} (h : Settled l₁ l₂ given kept (rest.1 + frame))
    (h' : Settled l₂ l₃ (kept + rest) kept' frame) : Settled l₁ l₃ (given + rest) kept' frame where
  valid := h'.valid
  live := h'.live
  values := by
    have hfirst := h.values
    have hsecond := h'.values
    rw [Prod.snd_add] at hsecond ⊢
    rw [add_right_comm, hfirst, add_right_comm, hsecond]

end Ledger

/-- **A program that keeps an account.** -/
abbrev Owning (E V : Type) := StateT (Ledger V) (Except E)

namespace Owning

/-- A new block. -/
def alloc : Owning E V ℕ := fun l =>
  .ok (l.next, { l with next := l.next + 1, live := l.next :: l.live })

/-- Freeing a block, which fails with `e` when it is not allocated. -/
def free (e : E) (pt : ℕ) : Owning E V Unit := fun l =>
  if pt ∈ l.live then .ok ((), { l with live := l.live.erase pt }) else .error e

/-- Dropping a value. -/
def dispose (v : V) : Owning E V Unit := fun l =>
  .ok ((), { l with dropped := v :: l.dropped })

/-- A computation that allocates and drops nothing. -/
def lift (x : Except E α) : Owning E V α := fun l => x.map fun a => (a, l)

theorem bind_apply (x : Owning E V α) (f : α → Owning E V β) (l : Ledger V) :
    (x >>= f) l = x l >>= fun p => f p.1 p.2 := rfl

end Owning

/-- **The program does what the pure one does, and accounts for what it is given.** -/
def Settles (x : Owning E V α) (given : Holding V) (p : Except E β) (own : α → Holding V)
    (R : α → β → Prop) : Prop :=
  ∀ (l : Ledger V) (frame : Multiset ℕ), l.Valid → (l.live : Multiset ℕ) = given.1 + frame →
    match p with
    | .error e => x l = .error e
    | .ok b => ∃ a l', x l = .ok (a, l') ∧ R a b ∧ l.Settled l' given (own a) frame

namespace Settles

variable {x : Owning E V α} {given rest : Holding V} {p : Except E β} {own : α → Holding V}
  {R R' : α → β → Prop}

section Outcomes

variable {l l' : Ledger V} {frame : Multiset ℕ}

/-- Where the pure computation returns the program does. -/
theorem exists_ok {b : β} (hx : Settles x given (.ok b) own R) (hl : l.Valid)
    (hlive : (l.live : Multiset ℕ) = given.1 + frame) :
    ∃ a l', x l = .ok (a, l') ∧ R a b ∧ l.Settled l' given (own a) frame :=
  hx l frame hl hlive

/-- **A program that returns** does what the pure computation does. -/
theorem of_eq_ok {a : α} (hx : Settles x given p own R) (hl : l.Valid)
    (hlive : (l.live : Multiset ℕ) = given.1 + frame) (h : x l = .ok (a, l')) :
    ∃ b, p = .ok b ∧ R a b ∧ l.Settled l' given (own a) frame := by
  have hrun := hx l frame hl hlive
  cases p with
  | error e => cases h.symm.trans hrun
  | ok b =>
    obtain ⟨a', l'', hok, hR, hsettled⟩ := hrun
    obtain ⟨rfl, rfl⟩ := Prod.mk.inj (Except.ok.inj (h.symm.trans hok))
    exact ⟨b, rfl, hR, hsettled⟩

/-- A program that fails fails as the pure computation does. -/
theorem of_eq_error {e : E} (hx : Settles x given p own R) (hl : l.Valid)
    (hlive : (l.live : Multiset ℕ) = given.1 + frame) (h : x l = .error e) : p = .error e := by
  have hrun := hx l frame hl hlive
  cases p with
  | error e' => exact congrArg Except.error (Except.error.inj (hrun.symm.trans h))
  | ok b =>
    obtain ⟨a', l'', hok, -⟩ := hrun
    cases h.symm.trans hok

end Outcomes

/-- A program that does nothing. -/
theorem ret {a : α} {b : β} (hgiven : given = own a) (hR : R a b) :
    Settles (pure a : Owning E V α) given (.ok b) own R :=
  fun l _ hl hlive => ⟨a, l, rfl, hR, hl, hgiven ▸ hlive, by rw [hgiven]⟩

/-- **One program after another**: the second is given what the first left and did not
need. -/
theorem bind {f : α → Owning E V γ} {q : β → Except E δ} {own' : γ → Holding V}
    {S : γ → δ → Prop} {total : Holding V} (htotal : total = given + rest)
    (hx : Settles x given p own R)
    (hf : ∀ a b, p = .ok b → R a b → Settles (f a) (own a + rest) (q b) own' S) :
    Settles (x >>= f) total (p >>= q) own' S := by
  intro l frame hl hlive
  rw [htotal, Prod.fst_add, add_assoc] at hlive
  have hfirst := hx l (rest.1 + frame) hl hlive
  cases p with
  | error e =>
    rw [Owning.bind_apply, show x l = .error e from hfirst]
    rfl
  | ok b =>
    obtain ⟨a, l', hxl, hR, hsettled⟩ := hfirst
    have hsecond := hf a b rfl hR l' frame hsettled.valid (by
      rw [hsettled.live, Prod.fst_add, add_assoc])
    rw [Owning.bind_apply, hxl]
    show match q b with | .error e => f a l' = .error e | .ok d => _
    cases hq : q b with
    | error e =>
      rw [hq] at hsecond
      exact hsecond
    | ok d =>
      rw [hq] at hsecond
      obtain ⟨c, l'', hfl, hS, hsettled'⟩ := hsecond
      exact ⟨c, l'', hfl, hS, htotal ▸ hsettled.trans hsettled'⟩

/-- One program after another, where the pure computation does nothing for the
first. -/
theorem bindLeft {f : α → Owning E V γ} {q : Except E δ} {b : β} {own' : γ → Holding V}
    {S : γ → δ → Prop} {total : Holding V} (htotal : total = given + rest)
    (hx : Settles x given (.ok b) own R)
    (hf : ∀ a, R a b → Settles (f a) (own a + rest) q own' S) :
    Settles (x >>= f) total q own' S :=
  bind (q := fun _ => q) htotal hx fun a b' hb hR => hf a (by
    obtain rfl : b = b' := Except.ok.inj hb
    exact hR)

/-- One program after another, where the first is given all that there is. -/
theorem andThen {f : α → Owning E V γ} {q : Except E δ} {b : β} {own' : γ → Holding V}
    {S : γ → δ → Prop} (hx : Settles x given (.ok b) own R)
    (hf : ∀ a, R a b → Settles (f a) (own a) q own' S) : Settles (x >>= f) given q own' S :=
  bindLeft (add_zero given).symm hx fun a hR => (add_zero (own a)).symm ▸ hf a hR

/-- **Allocation.** -/
theorem alloc : Settles (Owning.alloc : Owning E V ℕ) 0 (.ok ()) Holding.block
    fun _ _ => True := by
  intro l frame hl hlive
  refine ⟨l.next, _, rfl, trivial, ⟨fun pt hpt => ?_, ?_⟩, ?_, rfl⟩
  · rcases List.mem_cons.mp hpt with rfl | hpt
    · exact Nat.lt_succ_self _
    · exact (hl.lt_next pt hpt).trans (Nat.lt_succ_self _)
  · exact List.nodup_cons.mpr ⟨fun hmem => lt_irrefl _ (hl.lt_next _ hmem), hl.nodup⟩
  · rw [← Multiset.cons_coe, hlive, Prod.fst_zero, zero_add, Holding.block, Multiset.singleton_add]

/-- **Freeing** a block that is owned. -/
theorem free (e : E) (pt : ℕ) : Settles (Owning.free e pt : Owning E V Unit) (Holding.block pt)
    (.ok ()) (fun _ => 0) fun _ _ => True := by
  intro l frame hl hlive
  have hmem : pt ∈ l.live := by
    rw [← Multiset.mem_coe, hlive]
    exact Multiset.mem_add.mpr (Or.inl (Multiset.mem_singleton_self pt))
  refine ⟨(), _, if_pos hmem, trivial, ⟨fun q hq => ?_, hl.nodup.erase pt⟩, ?_, rfl⟩
  · exact hl.lt_next q (List.mem_of_mem_erase hq)
  · show ((l.live.erase pt : List ℕ) : Multiset ℕ) = _
    rw [← Multiset.coe_erase, hlive, Holding.block, Multiset.singleton_add,
      Multiset.erase_cons_head, Prod.fst_zero, zero_add]

/-- **Dropping** a value that is owned. -/
theorem dispose (v : V) : Settles (Owning.dispose v : Owning E V Unit) (Holding.value v) (.ok ())
    (fun _ => 0) fun _ _ => True := by
  intro l frame hl hlive
  refine ⟨(), _, rfl, trivial, ⟨hl.lt_next, hl.nodup⟩, hlive, ?_⟩
  show {v} + (l.dropped : Multiset V) = 0 + ((v :: l.dropped : List V) : Multiset V)
  rw [zero_add, Multiset.singleton_add, Multiset.cons_coe]

/-- **A step that both take**, and that allocates and drops nothing. -/
theorem lift_bind {f : α → Owning E V γ} {q : α → Except E δ} {own' : γ → Holding V}
    {S : γ → δ → Prop} {p : Except E α}
    (hf : ∀ a, p = .ok a → Settles (f a) given (q a) own' S) :
    Settles (Owning.lift p >>= f) given (p >>= q) own' S := by
  cases p with
  | error e => exact fun l _ _ _ => rfl
  | ok a => exact hf a rfl

end Settles
