import Mathlib.Data.Finset.Order
import Mathlib.Data.List.Basic
import Mathlib.Order.Lattice
import Mathlib.Order.BoundedOrder.Basic
import Mathlib.Order.Lattice.Nat

/-!
# Weak memory

Memory as threads see it when their atomic accesses are relaxed, acquire or
release. A variable is not one value but all the stores that were made to it,
each with a stamp that gives its place in the order of the stores, and a load
may read any of them that is not older than what the thread has seen. What a
thread has seen is its view: a stamp for each variable, and for each thread how
many of its plain accesses are over. A release store carries the view of its
thread, and an acquire load of that store adds the view to that of the reader;
a relaxed store carries nothing but itself, and a relaxed load takes nothing
else. A compare-exchange reads a store and puts its own right behind it, one
stamp further, so that no other can come between, and passes on what the store
it read carried.

Plain accesses must not race: one that touches a cell must know, by its
thread's view, that the last write is over, and for a write also that all the
reads since are. An access that does not know this is undefined and has no
result. The choices – which store is read, where a store is put – are arguments
of the operations, so that these are functions; a thread does its accesses in
program order, and no load reads a store that is not made yet.
-/

namespace WeakMemory

variable {L C τ α : Type}

/-! ## The memory -/

/-- The orderings of atomic loads and stores, as in `Ordering`. -/
inductive MemOrder where
  | relaxed
  | acquire
  | release
deriving DecidableEq

/-- **What is known**: of each variable the stamp of a store, of each thread the
number of plain accesses that are over. -/
abbrev View (L τ : Type) := L ⊕ τ → ℕ

/-- **A store of a variable**, with the view it carries. -/
structure Message (L τ : Type) where
  stamp : ℕ
  val : ℕ
  view : View L τ

/-- **A plain cell**: its value, unless it has none or the value was moved out,
the last write and the reads since. An access is named by its thread and the
number it has there. -/
structure Cell (τ α : Type) where
  val : Option α
  write : Option (τ × ℕ)
  reads : List (τ × ℕ)

/-- **The memory**: the stores of each variable, the latest made first, the
cells, and what each thread has seen. -/
structure Mem (L C τ α : Type) where
  stores : L → List (Message L τ)
  cell : C → Cell τ α
  view : τ → View L τ

/-- A view knows that an access is over. -/
abbrev View.Knows (v : View L τ) (access : τ × ℕ) : Prop := access.2 ≤ v (.inr access.1)

/-- A view knows that the last write of a cell is over. -/
def Cell.Written (c : Cell τ α) (v : View L τ) : Prop := ∀ w, c.write = some w → v.Knows w

/-- A view knows that the reads of a cell since the last write are over. -/
def Cell.Unread (c : Cell τ α) (v : View L τ) : Prop := ∀ r ∈ c.reads, v.Knows r

/-- More is known by whoever knows more. -/
theorem Cell.Written.mono {c : Cell τ α} {v v' : View L τ} (h : c.Written v) (hle : v ≤ v') :
    c.Written v' := fun w hw => (h w hw).trans (hle _)

theorem Cell.Unread.mono {c : Cell τ α} {v v' : View L τ} (h : c.Unread v) (hle : v ≤ v') :
    c.Unread v' := fun r hr => (h r hr).trans (hle _)

/-- A view knows that all accesses to a cell are over. -/
def Cell.Known (c : Cell τ α) (v : View L τ) : Prop := c.Written v ∧ c.Unread v

theorem Cell.Known.mono {c : Cell τ α} {v v' : View L τ} (h : c.Known v) (hle : v ≤ v') :
    c.Known v' := ⟨h.1.mono hle, h.2.mono hle⟩

instance (c : Cell τ α) (v : View L τ) : Decidable (c.Written v) :=
  match h : c.write with
  | none => .isTrue fun w hw => by cases h.symm.trans hw
  | some w => decidable_of_iff (v.Knows w)
      ⟨fun hknows w' hw' => Option.some.inj (h.symm.trans hw') ▸ hknows, fun hall => hall w h⟩

instance (c : Cell τ α) (v : View L τ) : Decidable (c.Unread v) :=
  inferInstanceAs (Decidable (∀ r ∈ c.reads, v.Knows r))

/-- One store was made to each variable, before everything else. -/
def Mem.start (val : L → ℕ) : Mem L C τ α :=
  ⟨fun l => [⟨0, val l, ⊥⟩], fun _ => ⟨none, none, []⟩, fun _ => ⊥⟩

variable [DecidableEq L] [DecidableEq C] [DecidableEq τ]

/-- The view that knows of one thing. -/
def View.only (k : L ⊕ τ) (n : ℕ) : View L τ := Function.update ⊥ k n

omit [DecidableEq C] in
@[simp] theorem View.only_self (k : L ⊕ τ) (n : ℕ) : View.only k n k = n :=
  Function.update_self ..

omit [DecidableEq C] in
theorem View.only_of_ne {k k' : L ⊕ τ} (hne : k' ≠ k) (n : ℕ) : View.only k n k' = 0 :=
  Function.update_of_ne hne ..

namespace Mem

/-- A thread learns what a view knows. -/
def see (m : Mem L C τ α) (t : τ) (v : View L τ) : Mem L C τ α :=
  { m with view := Function.update m.view t (m.view t ⊔ v) }

/-- The memory with one more store. -/
def post (m : Mem L C τ α) (l : L) (msg : Message L τ) : Mem L C τ α :=
  { m with stores := Function.update m.stores l (msg :: m.stores l) }

/-- The memory with a cell changed. -/
def setCell (m : Mem L C τ α) (c : C) (cell : Cell τ α) : Mem L C τ α :=
  { m with cell := Function.update m.cell c cell }

/-- The store of a variable with a stamp. -/
def message (m : Mem L C τ α) (l : L) (stamp : ℕ) : Option (Message L τ) :=
  (m.stores l).find? fun msg => msg.stamp == stamp

/-- **An atomic load** that reads the store with the given stamp. -/
def load (m : Mem L C τ α) (t : τ) (l : L) (order : MemOrder) (stamp : ℕ) :
    Option (Mem L C τ α × ℕ) :=
  if m.view t (.inl l) ≤ stamp then
    (m.message l stamp).map fun msg =>
      (m.see t (View.only (.inl l) stamp ⊔ if order = .acquire then msg.view else ⊥), msg.val)
  else none

/-- **An atomic store** that takes the given stamp: one that is not taken, and
later than what the thread has seen. -/
def store (m : Mem L C τ α) (t : τ) (l : L) (val : ℕ) (order : MemOrder) (stamp : ℕ) :
    Option (Mem L C τ α) :=
  if m.view t (.inl l) < stamp ∧ m.message l stamp = none then
    let m := m.see t (View.only (.inl l) stamp)
    some (m.post l
      ⟨stamp, val, if order = .release then m.view t else View.only (.inl l) stamp⟩)
  else none

/-- **A compare-exchange**, weak and relaxed, that reads the store with the
given stamp: what `compare_exchange_weak` returns, the value it found. It may
fail where it could succeed. -/
def exchange (m : Mem L C τ α) (t : τ) (l : L) (current new stamp : ℕ) (spurious : Bool) :
    Option (Mem L C τ α × Except ℕ ℕ) :=
  if m.view t (.inl l) ≤ stamp then
    (m.message l stamp).bind fun msg =>
      if msg.val = current ∧ spurious = false then
        if m.message l (stamp + 1) = none then
          some ((m.see t (View.only (.inl l) (stamp + 1))).post l
            ⟨stamp + 1, new, msg.view ⊔ View.only (.inl l) (stamp + 1)⟩, .ok msg.val)
        else none
      else some (m.see t (View.only (.inl l) stamp), .error msg.val)
  else none

/-- The access a thread makes next. -/
def access (m : Mem L C τ α) (t : τ) : τ × ℕ := (t, m.view t (.inr t) + 1)

/-- The thread makes it. -/
def tick (m : Mem L C τ α) (t : τ) : Mem L C τ α := m.see t (View.only (.inr t) (m.access t).2)

/-- **A plain write** of a cell. -/
def write (m : Mem L C τ α) (t : τ) (c : C) (val : α) : Option (Mem L C τ α) :=
  if (m.cell c).Written (m.view t) ∧ (m.cell c).Unread (m.view t) then
    some ((m.tick t).setCell c ⟨some val, some (m.access t), []⟩)
  else none

/-- **A plain read** that moves the value out of a cell. -/
def take (m : Mem L C τ α) (t : τ) (c : C) : Option (Mem L C τ α × α) :=
  if (m.cell c).Written (m.view t) then
    (m.cell c).val.map fun val =>
      ((m.tick t).setCell c ⟨none, (m.cell c).write, m.access t :: (m.cell c).reads⟩, val)
  else none

/-- **Synchronisation by other means**: what `u` has done so far happens before
what `t` does from now on. -/
abbrev join (m : Mem L C τ α) (t u : τ) : Mem L C τ α := m.see t (m.view u)

/-! ## What the operations do -/

section Fields

variable (m : Mem L C τ α) (t u : τ) (v : View L τ) (l : L) (c : C)

omit [DecidableEq L] [DecidableEq C] in
@[simp] theorem stores_see : (m.see t v).stores = m.stores := rfl

omit [DecidableEq L] [DecidableEq C] in
@[simp] theorem cell_see : (m.see t v).cell = m.cell := rfl

omit [DecidableEq L] [DecidableEq C] in
@[simp] theorem view_see_self : (m.see t v).view t = m.view t ⊔ v := Function.update_self ..

omit [DecidableEq L] [DecidableEq C] in
/-- **No thread forgets** what it has seen. -/
theorem le_view_see : m.view u ≤ (m.see t v).view u := by
  by_cases hut : u = t
  · rw [hut, view_see_self]
    exact le_sup_left
  · exact (Function.update_of_ne hut _ m.view).ge

omit [DecidableEq L] [DecidableEq C] in
/-- Who has learnt what another thread has done knows what that one knows. -/
theorem view_join_le : (m.join t u).view u ≤ (m.join t u).view t := by
  by_cases hut : u = t
  · rw [hut]
  · have hview : (m.join t u).view u = m.view u := Function.update_of_ne hut ..
    rw [hview, view_see_self]
    exact le_sup_right

omit [DecidableEq C] [DecidableEq τ] in
@[simp] theorem view_post (msg : Message L τ) : (m.post l msg).view = m.view := rfl

omit [DecidableEq C] [DecidableEq τ] in
@[simp] theorem cell_post (msg : Message L τ) : (m.post l msg).cell = m.cell := rfl

omit [DecidableEq C] [DecidableEq τ] in
@[simp] theorem stores_post_self (msg : Message L τ) :
    (m.post l msg).stores l = msg :: m.stores l := Function.update_self ..

omit [DecidableEq C] [DecidableEq τ] in
theorem stores_post_of_ne {l' : L} (hne : l' ≠ l) (msg : Message L τ) :
    (m.post l msg).stores l' = m.stores l' := Function.update_of_ne hne ..

omit [DecidableEq L] [DecidableEq τ] in
@[simp] theorem view_setCell (cell : Cell τ α) : (m.setCell c cell).view = m.view := rfl

omit [DecidableEq L] [DecidableEq τ] in
@[simp] theorem stores_setCell (cell : Cell τ α) : (m.setCell c cell).stores = m.stores := rfl

omit [DecidableEq L] [DecidableEq τ] in
@[simp] theorem cell_setCell_self (cell : Cell τ α) : (m.setCell c cell).cell c = cell :=
  Function.update_self ..

omit [DecidableEq L] [DecidableEq τ] in
theorem cell_setCell_of_ne {c' : C} (hne : c' ≠ c) (cell : Cell τ α) :
    (m.setCell c cell).cell c' = m.cell c' := Function.update_of_ne hne ..

end Fields

section Cases

variable {m m' : Mem L C τ α} {t : τ} {l : L} {c : C} {stamp val : ℕ}

omit [DecidableEq L] [DecidableEq C] [DecidableEq τ] in
theorem mem_of_message {msg : Message L τ} (h : m.message l stamp = some msg) :
    msg ∈ m.stores l ∧ msg.stamp = stamp :=
  ⟨List.mem_of_find?_eq_some h, by simpa using List.find?_some h⟩

omit [DecidableEq L] [DecidableEq C] [DecidableEq τ] in
theorem message_eq_none :
    m.message l stamp = none ↔ ∀ msg ∈ m.stores l, msg.stamp ≠ stamp := by
  simp [message]

omit [DecidableEq L] [DecidableEq C] [DecidableEq τ] in
theorem exists_message {msg : Message L τ} (hmem : msg ∈ m.stores l) :
    ∃ msg', m.message l msg.stamp = some msg' := by
  rw [← Option.isSome_iff_exists, Option.isSome_iff_ne_none, Ne, message_eq_none]
  exact fun hall => hall msg hmem rfl

omit [DecidableEq C] in
/-- **A load** reads some store that is not older than what the thread has
seen. -/
theorem load_cases {order : MemOrder} (h : m.load t l order stamp = some (m', val)) :
    ∃ msg ∈ m.stores l, msg.stamp = stamp ∧ msg.val = val ∧ m.view t (.inl l) ≤ stamp
      ∧ m' = m.see t (View.only (.inl l) stamp ⊔ if order = .acquire then msg.view else ⊥) := by
  unfold load at h
  by_cases hle : m.view t (.inl l) ≤ stamp
  case neg => simp [hle] at h
  rw [if_pos hle] at h
  obtain ⟨msg, hmsg, hp⟩ := Option.map_eq_some_iff.mp h
  obtain ⟨rfl, rfl⟩ := Prod.mk.inj hp
  obtain ⟨hmem, hstamp⟩ := mem_of_message hmsg
  exact ⟨msg, hmem, hstamp, rfl, hle, rfl⟩

omit [DecidableEq C] in
/-- **A store** is later than what the thread has seen, and takes a stamp of its
own. -/
theorem store_cases {order : MemOrder} (h : m.store t l val order stamp = some m') :
    m.view t (.inl l) < stamp ∧ (∀ msg ∈ m.stores l, msg.stamp ≠ stamp)
      ∧ m' = (m.see t (View.only (.inl l) stamp)).post l ⟨stamp, val, if order = .release
        then m.view t ⊔ View.only (.inl l) stamp else View.only (.inl l) stamp⟩ := by
  unfold store at h
  by_cases hfresh : m.view t (.inl l) < stamp ∧ m.message l stamp = none
  case neg => simp [hfresh] at h
  rw [if_pos hfresh] at h
  obtain rfl := Option.some.inj h
  exact ⟨hfresh.1, message_eq_none.mp hfresh.2, by rw [view_see_self]⟩

omit [DecidableEq C] in
/-- **A compare-exchange** that succeeds puts its store right behind the one it
reads, and one that fails is a relaxed load. -/
theorem exchange_cases {current new : ℕ} {spurious : Bool} {r : Except ℕ ℕ}
    (h : m.exchange t l current new stamp spurious = some (m', r)) :
    ∃ msg ∈ m.stores l, msg.stamp = stamp ∧ m.view t (.inl l) ≤ stamp
      ∧ ((msg.val = current ∧ r = .ok current ∧ (∀ msg' ∈ m.stores l, msg'.stamp ≠ stamp + 1)
          ∧ m' = (m.see t (View.only (.inl l) (stamp + 1))).post l
            ⟨stamp + 1, new, msg.view ⊔ View.only (.inl l) (stamp + 1)⟩)
        ∨ (r = .error msg.val ∧ m' = m.see t (View.only (.inl l) stamp))) := by
  unfold exchange at h
  by_cases hle : m.view t (.inl l) ≤ stamp
  case neg => simp [hle] at h
  rw [if_pos hle] at h
  obtain ⟨msg, hmsg, h⟩ := Option.bind_eq_some_iff.mp h
  obtain ⟨hmem, hstamp⟩ := mem_of_message hmsg
  refine ⟨msg, hmem, hstamp, hle, ?_⟩
  split_ifs at h with hcond hfresh
  · obtain ⟨rfl, rfl⟩ := Prod.mk.inj (Option.some.inj h)
    exact Or.inl ⟨hcond.1, by rw [hcond.1], message_eq_none.mp hfresh, rfl⟩
  · obtain ⟨rfl, rfl⟩ := Prod.mk.inj (Option.some.inj h)
    exact Or.inr ⟨rfl, rfl⟩

/-- **A plain write** races with nothing. -/
theorem write_cases {a : α} (h : m.write t c a = some m') :
    (m.cell c).Written (m.view t) ∧ (m.cell c).Unread (m.view t)
      ∧ m' = (m.tick t).setCell c ⟨some a, some (m.access t), []⟩ := by
  unfold write at h
  by_cases hknown : (m.cell c).Written (m.view t) ∧ (m.cell c).Unread (m.view t)
  case neg => simp [hknown] at h
  rw [if_pos hknown] at h
  exact ⟨hknown.1, hknown.2, (Option.some.inj h).symm⟩

/-- **A plain read** races with no write, and finds a value. -/
theorem take_cases {a : α} (h : m.take t c = some (m', a)) :
    (m.cell c).Written (m.view t) ∧ (m.cell c).val = some a
      ∧ m' = (m.tick t).setCell c ⟨none, (m.cell c).write, m.access t :: (m.cell c).reads⟩ := by
  unfold take at h
  by_cases hknown : (m.cell c).Written (m.view t)
  case neg => simp [hknown] at h
  rw [if_pos hknown] at h
  obtain ⟨a', ha', hp⟩ := Option.map_eq_some_iff.mp h
  obtain ⟨rfl, rfl⟩ := Prod.mk.inj hp
  exact ⟨hknown, ha', rfl⟩

omit [DecidableEq C] in
/-- **A load** changes nothing but what its thread knows. -/
theorem load_frame {order : MemOrder} (h : m.load t l order stamp = some (m', val)) :
    m'.stores = m.stores ∧ m'.cell = m.cell ∧ ∀ u, m.view u ≤ m'.view u := by
  obtain ⟨msg, -, -, -, -, rfl⟩ := load_cases h
  exact ⟨rfl, rfl, fun u => m.le_view_see t u _⟩

omit [DecidableEq C] in
/-- **A store** changes one variable, and what its thread knows. -/
theorem store_frame {order : MemOrder} (h : m.store t l val order stamp = some m') :
    m'.cell = m.cell ∧ (∀ l', l' ≠ l → m'.stores l' = m.stores l')
      ∧ ∀ u, m.view u ≤ m'.view u := by
  obtain ⟨-, -, rfl⟩ := store_cases h
  exact ⟨rfl, fun l' hne => stores_post_of_ne _ _ hne _, fun u => m.le_view_see t u _⟩

omit [DecidableEq C] in
/-- **A compare-exchange**, likewise, and none where it fails. -/
theorem exchange_frame {current new : ℕ} {spurious : Bool} {r : Except ℕ ℕ}
    (h : m.exchange t l current new stamp spurious = some (m', r)) :
    m'.cell = m.cell ∧ (∀ l', l' ≠ l → m'.stores l' = m.stores l')
      ∧ (∀ u, m.view u ≤ m'.view u) ∧ ∀ k, r = .error k → m'.stores = m.stores := by
  obtain ⟨msg, -, -, -, ⟨-, rfl, -, rfl⟩ | ⟨rfl, rfl⟩⟩ := exchange_cases h
  · exact ⟨rfl, fun l' hne => stores_post_of_ne _ _ hne _, fun u => m.le_view_see t u _,
      fun k hk => by cases hk⟩
  · exact ⟨rfl, fun _ _ => rfl, fun u => m.le_view_see t u _, fun _ _ => rfl⟩

/-- **A plain write** changes one cell, and what its thread knows. -/
theorem write_frame {a : α} (h : m.write t c a = some m') :
    m'.stores = m.stores ∧ (∀ c', c' ≠ c → m'.cell c' = m.cell c')
      ∧ (m'.cell c).val = some a ∧ ∀ u, m.view u ≤ m'.view u := by
  obtain ⟨-, -, rfl⟩ := write_cases h
  exact ⟨rfl, fun c' hne => cell_setCell_of_ne _ _ hne _, by simp, fun u => m.le_view_see t u _⟩

/-- **A plain read**, likewise. -/
theorem take_frame {a : α} (h : m.take t c = some (m', a)) :
    m'.stores = m.stores ∧ (∀ c', c' ≠ c → m'.cell c' = m.cell c')
      ∧ (m'.cell c).val = none ∧ ∀ u, m.view u ≤ m'.view u := by
  obtain ⟨-, -, rfl⟩ := take_cases h
  exact ⟨rfl, fun c' hne => cell_setCell_of_ne _ _ hne _, by simp, fun u => m.le_view_see t u _⟩

/-- **A write that races with nothing** can be made. -/
theorem exists_write (hwritten : (m.cell c).Written (m.view t))
    (hunread : (m.cell c).Unread (m.view t)) (a : α) : ∃ m', m.write t c a = some m' :=
  ⟨_, if_pos ⟨hwritten, hunread⟩⟩

/-- **A read after the write** can be made, where there is a value. -/
theorem exists_take {a : α} (hwritten : (m.cell c).Written (m.view t))
    (hval : (m.cell c).val = some a) : ∃ m', m.take t c = some (m', a) := by
  rw [take, if_pos hwritten, hval]
  exact ⟨_, rfl⟩

omit [DecidableEq C] in
/-- A thread knows its own accesses. -/
theorem knows_access : ((m.tick t).view t).Knows (m.access t) := by
  show (m.access t).2 ≤ (m.tick t).view t (.inr t)
  rw [tick, view_see_self, Pi.sup_apply, View.only_self]
  exact le_sup_right

end Cases

/-! ## What has been seen of a variable -/

/-- **A store of `n` or more has been seen.** -/
def Seen (m : Mem L C τ α) (v : View L τ) (l : L) (n : ℕ) : Prop :=
  ∃ msg ∈ m.stores l, n ≤ msg.val ∧ msg.stamp ≤ v (.inl l)

/-- **A variable that only goes up**, and is at `n`: the order of its stores is
that of their values. -/
structure Increasing (m : Mem L C τ α) (l : L) (n : ℕ) : Prop where
  order : ∀ a ∈ m.stores l, ∀ b ∈ m.stores l, a.stamp ≤ b.stamp ↔ a.val ≤ b.val
  le : ∀ a ∈ m.stores l, a.val ≤ n
  latest : ∃ a ∈ m.stores l, a.val = n

section Seen

variable {m m' : Mem L C τ α} {v v' : View L τ} {t : τ} {l : L} {n k : ℕ}

omit [DecidableEq L] [DecidableEq C] [DecidableEq τ]

/-- What was seen stays seen, by whoever knows more, in a memory with more
stores. -/
theorem Seen.mono (h : Seen m v l n) (hv : v (.inl l) ≤ v' (.inl l)) (hk : k ≤ n)
    (hstores : ∀ msg ∈ m.stores l, msg ∈ m'.stores l) : Seen m' v' l k := by
  obtain ⟨msg, hmem, hval, hstamp⟩ := h
  exact ⟨msg, hstores msg hmem, hk.trans hval, hstamp.trans hv⟩

/-- Before everything else, the first store has been seen. -/
theorem seen_start (val : L → ℕ) (v : View L τ) :
    Seen (start val : Mem L C τ α) v l (val l) :=
  ⟨⟨0, val l, ⊥⟩, List.mem_singleton_self _, le_rfl, Nat.zero_le _⟩

theorem increasing_start (val : L → ℕ) : Increasing (start val : Mem L C τ α) l (val l) where
  order a ha b hb := by
    obtain rfl := List.mem_singleton.mp ha
    obtain rfl := List.mem_singleton.mp hb
    exact iff_of_true le_rfl le_rfl
  le a ha := by
    obtain rfl := List.mem_singleton.mp ha
    exact le_rfl
  latest := ⟨_, List.mem_singleton_self _, rfl⟩

namespace Increasing

/-- It matters only which stores there are. -/
theorem of_eq (h : Increasing m l n) (hstores : m'.stores l = m.stores l) : Increasing m' l n :=
  ⟨by rw [hstores]; exact h.order, by rw [hstores]; exact h.le, by rw [hstores]; exact h.latest⟩

theorem le_of_seen (h : Increasing m l n) (hseen : Seen m v l k) : k ≤ n := by
  obtain ⟨msg, hmem, hk, _⟩ := hseen
  exact hk.trans (h.le msg hmem)

/-- **What is read** is not less than what was seen. -/
theorem ge_of_seen (h : Increasing m l n) (hseen : Seen m v l k) {msg : Message L τ}
    (hmem : msg ∈ m.stores l) (hle : v (.inl l) ≤ msg.stamp) : k ≤ msg.val := by
  obtain ⟨old, hold, hk, hstamp⟩ := hseen
  exact hk.trans ((h.order old hold msg hmem).mp (hstamp.trans hle))

/-- **Who has seen the latest store reads it.** -/
theorem eq_of_seen (h : Increasing m l n) (hseen : Seen m v l n) {msg : Message L τ}
    (hmem : msg ∈ m.stores l) (hle : v (.inl l) ≤ msg.stamp) : msg.val = n :=
  Nat.le_antisymm (h.le msg hmem) (h.ge_of_seen hseen hmem hle)

omit [DecidableEq C] in
theorem load_bounds [DecidableEq L] [DecidableEq τ] (h : Increasing m l n) {order : MemOrder}
    {stamp val : ℕ} (hload : m.load t l order stamp = some (m', val)) :
    val ≤ n ∧ ∀ k, Seen m (m.view t) l k → k ≤ val := by
  obtain ⟨msg, hmem, rfl, rfl, hle, -⟩ := load_cases hload
  exact ⟨h.le msg hmem, fun k hseen => h.ge_of_seen hseen hmem hle⟩

/-- Who has seen the latest store has seen no earlier stamp than any. -/
theorem stamp_le_of_seen (h : Increasing m l n) (hseen : Seen m v l n) {msg : Message L τ}
    (hmem : msg ∈ m.stores l) : msg.stamp ≤ v (.inl l) := by
  obtain ⟨top, htop, hn, hstamp⟩ := hseen
  exact ((h.order msg hmem top htop).mpr ((h.le msg hmem).trans hn)).trans hstamp

end Increasing

end Seen

namespace Increasing

variable {m m' : Mem L C τ α} {t : τ} {l : L} {n : ℕ}

omit [DecidableEq C] [DecidableEq τ] in
/-- **One more store**, of a greater value and with a later stamp than any. -/
theorem post (h : Increasing m l n) {msg : Message L τ} (hval : n < msg.val)
    (hstamp : ∀ a ∈ m.stores l, a.stamp < msg.stamp) : Increasing (m.post l msg) l msg.val where
  order a ha b hb := by
    rw [stores_post_self, List.mem_cons] at ha hb
    rcases ha with rfl | ha <;> rcases hb with rfl | hb
    · exact iff_of_true le_rfl le_rfl
    · exact iff_of_false (hstamp b hb).not_ge ((h.le b hb).trans_lt hval).not_ge
    · exact iff_of_true (hstamp a ha).le ((h.le a ha).trans hval.le)
    · exact h.order a ha b hb
  le a ha := by
    rw [stores_post_self] at ha
    rcases List.mem_cons.mp ha with rfl | ha
    · exact le_rfl
    · exact (h.le a ha).trans hval.le
  latest := ⟨msg, by simp, rfl⟩

omit [DecidableEq C] in
/-- **Who has seen the latest store may store a greater value**, and has seen
that. -/
theorem store (h : Increasing m l n) (hseen : m.Seen (m.view t) l n) {val stamp : ℕ} (hlt : n < val)
    {order : MemOrder} (hstore : m.store t l val order stamp = some m') :
    Increasing m' l val ∧ m'.Seen (m'.view t) l val := by
  obtain ⟨hstamp, _, rfl⟩ := store_cases hstore
  refine ⟨Increasing.post ?_ hlt ?_, ?_⟩
  · exact h.of_eq rfl
  · exact fun a ha => (h.stamp_le_of_seen hseen ha).trans_lt hstamp
  · exact ⟨_, by rw [stores_post_self]; exact List.mem_cons_self, le_rfl, by simp⟩

end Increasing

/-! ## Nothing is stuck -/

/-- A view has the stamp of some store for each variable. -/
def Backed (m : Mem L C τ α) (v : View L τ) : Prop :=
  ∀ l, ∃ msg ∈ m.stores l, msg.stamp = v (.inl l)

/-- **What is known was done**: the views, of the threads and of the stores, are
backed. -/
structure Closed (m : Mem L C τ α) : Prop where
  bot : m.Backed ⊥
  view : ∀ t, m.Backed (m.view t)
  carried : ∀ l, ∀ msg ∈ m.stores l, m.Backed msg.view

section Closed

variable {m m' : Mem L C τ α} {v w : View L τ} {t : τ} {l : L} {c : C} {val stamp : ℕ}

omit [DecidableEq L] [DecidableEq C] [DecidableEq τ] in
theorem Backed.sup (hv : m.Backed v) (hw : m.Backed w) : m.Backed (v ⊔ w) := by
  intro l
  rcases le_total (v (.inl l)) (w (.inl l)) with hle | hle
  · rw [Pi.sup_apply, sup_of_le_right hle]
    exact hw l
  · rw [Pi.sup_apply, sup_of_le_left hle]
    exact hv l

omit [DecidableEq L] [DecidableEq C] [DecidableEq τ] in
theorem Backed.mono (hv : m.Backed v) (hstores : ∀ l, ∀ msg ∈ m.stores l, msg ∈ m'.stores l) :
    m'.Backed v := by
  intro l
  obtain ⟨msg, hmem, hstamp⟩ := hv l
  exact ⟨msg, hstores l msg hmem, hstamp⟩

omit [DecidableEq C] in
theorem backed_single (hbot : m.Backed ⊥) {msg : Message L τ} (hmem : msg ∈ m.stores l) :
    m.Backed (View.only (.inl l) msg.stamp) := by
  intro l'
  by_cases heq : l' = l
  · subst heq
    exact ⟨msg, hmem, (View.only_self _ _).symm⟩
  · obtain ⟨msg', hmem', hstamp'⟩ := hbot l'
    refine ⟨msg', hmem', hstamp'.trans ?_⟩
    exact (View.only_of_ne (fun h => heq (Sum.inl.inj h)) _).symm

omit [DecidableEq C] [DecidableEq τ] in
theorem mem_stores_post {msg msg' : Message L τ} {l' : L} :
    msg' ∈ (m.post l msg).stores l' ↔ (l' = l ∧ msg' = msg) ∨ msg' ∈ m.stores l' := by
  by_cases heq : l' = l
  · subst heq
    simp
  · simp [stores_post_of_ne m l heq, heq]

omit [DecidableEq C] in
/-- No store goes away. -/
theorem mem_stores_of_store {order : MemOrder} {stamp val : ℕ} {l' : L} {msg : Message L τ}
    (hstore : m.store t l val order stamp = some m') (hmem : msg ∈ m.stores l') :
    msg ∈ m'.stores l' := by
  obtain ⟨-, -, rfl⟩ := store_cases hstore
  exact mem_stores_post.mpr (Or.inr hmem)

omit [DecidableEq L] [DecidableEq C] [DecidableEq τ] in
theorem closed_start (val : L → ℕ) : (start val : Mem L C τ α).Closed where
  bot l := ⟨⟨0, val l, ⊥⟩, List.mem_singleton_self _, rfl⟩
  view t l := ⟨⟨0, val l, ⊥⟩, List.mem_singleton_self _, rfl⟩
  carried l msg hmem l' := by
    obtain rfl := List.mem_singleton.mp hmem
    exact ⟨⟨0, val l', ⊥⟩, List.mem_singleton_self _, rfl⟩

namespace Closed

omit [DecidableEq L] [DecidableEq C] in
/-- A thread may learn what is backed. -/
theorem see (h : m.Closed) (hv : m.Backed v) : (m.see t v).Closed where
  bot := h.bot
  view u := by
    by_cases hut : u = t
    · rw [hut, view_see_self]
      exact (h.view t).sup hv
    · have hview : (m.see t v).view u = m.view u := Function.update_of_ne hut ..
      rw [hview]
      exact h.view u
  carried := h.carried

omit [DecidableEq C] in
/-- A store is made that carries its own stamp, and what is backed. -/
theorem see_post (h : m.Closed) (msg : Message L τ)
    (hstamp : msg.view = v ⊔ View.only (.inl l) msg.stamp) (hv : m.Backed v) :
    ((m.see t (View.only (.inl l) msg.stamp)).post l msg).Closed := by
  have hstores : ∀ l', ∀ msg' ∈ m.stores l',
      msg' ∈ ((m.see t (View.only (.inl l) msg.stamp)).post l msg).stores l' :=
    fun l' msg' hmem => mem_stores_post.mpr (Or.inr hmem)
  have hone : ((m.see t (View.only (.inl l) msg.stamp)).post l msg).Backed
      (View.only (.inl l) msg.stamp) :=
    backed_single (h.bot.mono hstores) (mem_stores_post.mpr (Or.inl ⟨rfl, rfl⟩))
  refine ⟨h.bot.mono hstores, fun u => ?_, fun l' msg' hmem => ?_⟩
  · by_cases hut : u = t
    · rw [view_post, hut, view_see_self]
      exact ((h.view t).mono hstores).sup hone
    · have hview : (m.see t (View.only (.inl l) msg.stamp)).view u = m.view u :=
        Function.update_of_ne hut ..
      rw [view_post, hview]
      exact (h.view u).mono hstores
  · rcases mem_stores_post.mp hmem with ⟨_, rfl⟩ | hold
    · rw [hstamp]
      exact (hv.mono hstores).sup hone
    · exact (h.carried l' msg' hold).mono hstores

omit [DecidableEq C] in
theorem load (h : m.Closed) {order : MemOrder} (hload : m.load t l order stamp = some (m', val)) :
    m'.Closed := by
  obtain ⟨msg, hmem, rfl, _, _, rfl⟩ := load_cases hload
  refine h.see ((backed_single h.bot hmem).sup ?_)
  split_ifs
  · exact h.carried l msg hmem
  · exact h.bot

omit [DecidableEq C] in
theorem store (h : m.Closed) {order : MemOrder} (hstore : m.store t l val order stamp = some m') :
    m'.Closed := by
  obtain ⟨_, _, rfl⟩ := store_cases hstore
  split_ifs with horder
  · exact h.see_post ⟨stamp, val, _⟩ rfl (h.view t)
  · exact h.see_post ⟨stamp, val, _⟩ (bot_sup_eq _).symm h.bot

omit [DecidableEq C] in
theorem exchange (h : m.Closed) {current new : ℕ} {spurious : Bool} {r : Except ℕ ℕ}
    (hexchange : m.exchange t l current new stamp spurious = some (m', r)) : m'.Closed := by
  obtain ⟨msg, hmem, rfl, _, ⟨_, _, _, rfl⟩ | ⟨_, rfl⟩⟩ := exchange_cases hexchange
  · exact h.see_post ⟨_, new, _⟩ rfl (h.carried l msg hmem)
  · exact h.see (backed_single h.bot hmem)

omit [DecidableEq C] in
theorem tick (h : m.Closed) (t : τ) : (m.tick t).Closed :=
  h.see fun l => h.bot l

theorem write (h : m.Closed) {a : α} (hwrite : m.write t c a = some m') : m'.Closed := by
  obtain ⟨-, -, rfl⟩ := write_cases hwrite
  exact ⟨h.bot, (h.tick t).view, h.carried⟩

theorem take (h : m.Closed) {a : α} (htake : m.take t c = some (m', a)) : m'.Closed := by
  obtain ⟨-, -, rfl⟩ := take_cases htake
  exact ⟨h.bot, (h.tick t).view, h.carried⟩

omit [DecidableEq L] [DecidableEq τ] in
theorem setCell (h : m.Closed) (c : C) (cell : Cell τ α) : (m.setCell c cell).Closed :=
  ⟨h.bot, h.view, h.carried⟩

omit [DecidableEq C] in
/-- **A load can read something**: what the thread has seen. -/
theorem exists_load (h : m.Closed) (t : τ) (l : L) (order : MemOrder) :
    ∃ stamp r, m.load t l order stamp = some r := by
  obtain ⟨msg, hmem, hstamp⟩ := h.view t l
  obtain ⟨msg', hmsg'⟩ := exists_message hmem
  refine ⟨msg.stamp, ?_⟩
  simp [Mem.load, hstamp.ge, hmsg']

omit [DecidableEq C] in
/-- **A store can be put** behind all others. -/
theorem exists_store (h : m.Closed) (t : τ) (l : L) (val : ℕ) (order : MemOrder) :
    ∃ stamp m', m.store t l val order stamp = some m' := by
  obtain ⟨msg, hmem, hstamp⟩ := h.view t l
  obtain ⟨top, htop⟩ := ((m.stores l).map Message.stamp).toFinset.exists_le
  have hle : ∀ a ∈ m.stores l, a.stamp < top + 1 := fun a ha =>
    Nat.lt_succ_of_le (htop _ (List.mem_toFinset.mpr (List.mem_map_of_mem ha)))
  have hfresh : m.message l (top + 1) = none := message_eq_none.mpr fun a ha => (hle a ha).ne
  refine ⟨top + 1, ?_⟩
  simp [Mem.store, hfresh, ← hstamp, hle msg hmem]

omit [DecidableEq C] in
/-- **A compare-exchange can be done**, at the worst to fail. -/
theorem exists_exchange (h : m.Closed) (t : τ) (l : L) (current new : ℕ) :
    ∃ stamp spurious r, m.exchange t l current new stamp spurious = some r := by
  obtain ⟨msg, hmem, hstamp⟩ := h.view t l
  obtain ⟨msg', hmsg'⟩ := exists_message hmem
  refine ⟨msg.stamp, true, ?_⟩
  simp [Mem.exchange, hstamp.ge, hmsg']

end Closed

end Closed

/-! ## Counters -/

/-- **A variable that is counted up to `n`** by compare-exchanges alone: its
stores are one behind the other. -/
structure Counts (m : Mem L C τ α) (l : L) (n : ℕ) : Prop where
  val_eq : ∀ msg ∈ m.stores l, msg.val = msg.stamp
  le : ∀ msg ∈ m.stores l, msg.val ≤ n
  all : ∀ k ≤ n, ∃ msg ∈ m.stores l, msg.stamp = k

namespace Counts

variable {m m' : Mem L C τ α} {t : τ} {l : L} {n stamp : ℕ}

omit [DecidableEq L] [DecidableEq C] [DecidableEq τ] in
/-- It matters only which stores there are. -/
theorem of_eq (h : Counts m l n) (hstores : m'.stores l = m.stores l) : Counts m' l n :=
  ⟨by rw [hstores]; exact h.val_eq, by rw [hstores]; exact h.le, by rw [hstores]; exact h.all⟩

omit [DecidableEq L] [DecidableEq C] [DecidableEq τ] in
theorem start {val : L → ℕ} (hval : val l = 0) : Counts (start val : Mem L C τ α) l 0 where
  val_eq msg hmem := by
    obtain rfl := List.mem_singleton.mp hmem
    exact hval
  le msg hmem := by
    obtain rfl := List.mem_singleton.mp hmem
    exact hval.le
  all k hk := ⟨_, List.mem_singleton_self _, (Nat.le_zero.mp hk).symm⟩

omit [DecidableEq C] in
theorem load_le (h : Counts m l n) {order : MemOrder} {val : ℕ}
    (hload : m.load t l order stamp = some (m', val)) : val ≤ n := by
  obtain ⟨msg, hmem, -, rfl, -, -⟩ := load_cases hload
  exact h.le msg hmem

omit [DecidableEq C] in
theorem exchange_le (h : Counts m l n) {current new k : ℕ} {spurious : Bool}
    (hexchange : m.exchange t l current new stamp spurious = some (m', .error k)) : k ≤ n := by
  obtain ⟨msg, hmem, -, -, ⟨-, hr, -, -⟩ | ⟨hr, -⟩⟩ := exchange_cases hexchange
  · cases hr
  · obtain rfl := Except.error.inj hr
    exact h.le msg hmem

omit [DecidableEq C] in
/-- **Only the latest count is exchanged** for the next one. -/
theorem exchange (h : Counts m l n) {current k : ℕ} {spurious : Bool}
    (hexchange : m.exchange t l current (current + 1) stamp spurious = some (m', .ok k)) :
    current = n ∧ Counts m' l (n + 1) := by
  obtain ⟨msg, hmem, hstamp, -, ⟨hval, -, hfresh, rfl⟩ | ⟨hr, -⟩⟩ := exchange_cases hexchange
  · have hcurrent : stamp = current := by rw [← hstamp, ← h.val_eq msg hmem, hval]
    subst hcurrent
    -- a later store would have the stamp the exchange takes
    have hn : stamp = n := by
      refine le_antisymm (hval ▸ h.le msg hmem) (Nat.le_of_not_lt fun hlt => ?_)
      obtain ⟨next, hnext, hstamp'⟩ := h.all (stamp + 1) hlt
      exact hfresh next hnext hstamp'
    subst hn
    refine ⟨rfl, fun a ha => ?_, fun a ha => ?_, fun k hk => ?_⟩
    · rcases mem_stores_post.mp ha with ⟨-, rfl⟩ | hold
      · rfl
      · exact h.val_eq a hold
    · rcases mem_stores_post.mp ha with ⟨-, rfl⟩ | hold
      · exact le_rfl
      · exact Nat.le_succ_of_le (h.le a hold)
    · rcases Nat.le_succ_iff.mp hk with hle | rfl
      · obtain ⟨a, ha, hk⟩ := h.all k hle
        exact ⟨a, mem_stores_post.mpr (Or.inr ha), hk⟩
      · exact ⟨_, mem_stores_post.mpr (Or.inl ⟨rfl, rfl⟩), rfl⟩
  · cases hr

end Counts

/-! ## What all threads know -/

/-- **What is in the memory was done by threads**, which know of it. -/
structure Done (m : Mem L C τ α) : Prop where
  stores : ∀ l, ∀ msg ∈ m.stores l, msg.stamp = 0 ∨ ∃ u, msg.stamp ≤ m.view u (.inl l)
  writes : ∀ c w, (m.cell c).write = some w → (m.view w.1).Knows w
  reads : ∀ c, ∀ r ∈ (m.cell c).reads, (m.view r.1).Knows r

/-- **A view has seen every store.** -/
def SeenAll (m : Mem L C τ α) (v : View L τ) : Prop :=
  ∀ l, ∀ msg ∈ m.stores l, msg.stamp ≤ v (.inl l)

section Done

variable {m m' : Mem L C τ α} {v : View L τ} {t : τ} {l : L} {c : C} {n stamp val : ℕ}

omit [DecidableEq L] [DecidableEq C] [DecidableEq τ] in
theorem done_start (val : L → ℕ) : (start val : Mem L C τ α).Done where
  stores l msg hmem := by
    obtain rfl := List.mem_singleton.mp hmem
    exact Or.inl rfl
  writes c w hw := by cases hw
  reads c r hr := by cases hr

omit [DecidableEq L] [DecidableEq C] [DecidableEq τ] in
/-- **Who knows what every thread knows** has seen every store. -/
theorem Done.seenAll (h : m.Done) (hall : ∀ u, m.view u ≤ v) : m.SeenAll v := by
  intro l msg hmem
  rcases h.stores l msg hmem with hzero | ⟨u, hle⟩
  · exact hzero.le.trans (Nat.zero_le _)
  · exact hle.trans (hall u _)

omit [DecidableEq L] [DecidableEq C] [DecidableEq τ] in
/-- And that all accesses to the cells are over. -/
theorem Done.known (h : m.Done) (hall : ∀ u, m.view u ≤ v) (c : C) : (m.cell c).Known v :=
  ⟨fun w hw => (h.writes c w hw).trans (hall _ _), fun r hr => (h.reads c r hr).trans (hall _ _)⟩

namespace Done

omit [DecidableEq L] [DecidableEq C] [DecidableEq τ] in
/-- More is known. -/
theorem grow (h : m.Done) (hstores : m'.stores = m.stores) (hcell : m'.cell = m.cell)
    (hview : ∀ u, m.view u ≤ m'.view u) : m'.Done where
  stores l msg hmem := by
    rw [hstores] at hmem
    exact (h.stores l msg hmem).imp_right fun ⟨u, hle⟩ => ⟨u, hle.trans (hview u _)⟩
  writes c w hw := by
    rw [hcell] at hw
    exact (h.writes c w hw).trans (hview _ _)
  reads c r hr := by
    rw [hcell] at hr
    exact (h.reads c r hr).trans (hview _ _)

omit [DecidableEq C] [DecidableEq τ] in
/-- A thread makes a store, which it has seen. -/
theorem post (h : m.Done) (msg : Message L τ) (hle : msg.stamp ≤ m.view t (.inl l)) :
    (m.post l msg).Done where
  stores l' msg' hmem := by
    rcases mem_stores_post.mp hmem with ⟨rfl, rfl⟩ | hold
    · exact Or.inr ⟨t, hle⟩
    · exact h.stores l' msg' hold
  writes := h.writes
  reads := h.reads

omit [DecidableEq L] [DecidableEq τ] in
/-- A thread makes an access, and knows of all accesses to the cell. -/
theorem setCell (h : m.Done) {cell : Cell τ α} (hwrite : ∀ w, cell.write = some w →
      (m.view w.1).Knows w) (hreads : ∀ r ∈ cell.reads, (m.view r.1).Knows r) :
    (m.setCell c cell).Done where
  stores := h.stores
  writes c' w hw := by
    by_cases heq : c' = c
    · subst heq
      rw [cell_setCell_self] at hw
      exact hwrite w hw
    · rw [cell_setCell_of_ne _ _ heq] at hw
      exact h.writes c' w hw
  reads c' r hr := by
    by_cases heq : c' = c
    · subst heq
      rw [cell_setCell_self] at hr
      exact hreads r hr
    · rw [cell_setCell_of_ne _ _ heq] at hr
      exact h.reads c' r hr

omit [DecidableEq L] [DecidableEq C] in
theorem see (h : m.Done) (t : τ) (v : View L τ) : (m.see t v).Done :=
  h.grow rfl rfl fun u => m.le_view_see t u v

omit [DecidableEq C] in
theorem load (h : m.Done) {order : MemOrder} (hload : m.load t l order stamp = some (m', val)) :
    m'.Done := by
  obtain ⟨hstores, hcell, hview⟩ := load_frame hload
  exact h.grow hstores hcell hview

omit [DecidableEq C] in
theorem store (h : m.Done) {order : MemOrder} (hstore : m.store t l val order stamp = some m') :
    m'.Done := by
  obtain ⟨-, -, rfl⟩ := store_cases hstore
  refine (h.see t _).post (t := t) _ ?_
  simp

omit [DecidableEq C] in
theorem exchange (h : m.Done) {current new : ℕ} {spurious : Bool} {r : Except ℕ ℕ}
    (hexchange : m.exchange t l current new stamp spurious = some (m', r)) : m'.Done := by
  obtain ⟨msg, -, -, -, ⟨-, -, -, rfl⟩ | ⟨-, rfl⟩⟩ := exchange_cases hexchange
  · refine (h.see t _).post (t := t) _ ?_
    simp
  · exact h.see t _

theorem write (h : m.Done) {a : α} (hwrite : m.write t c a = some m') : m'.Done := by
  obtain ⟨-, -, rfl⟩ := write_cases hwrite
  refine (h.see t _).setCell (fun w hw => ?_) fun r hr => by cases hr
  obtain rfl := Option.some.inj hw
  exact knows_access

theorem take (h : m.Done) {a : α} (htake : m.take t c = some (m', a)) : m'.Done := by
  obtain ⟨-, -, rfl⟩ := take_cases htake
  refine (h.see t _).setCell (fun w hw => (h.writes c w hw).trans (m.le_view_see t _ _ _))
    fun r hr => ?_
  rcases List.mem_cons.mp hr with rfl | hold
  · exact knows_access
  · exact (h.reads c r hold).trans (m.le_view_see t _ _ _)

end Done

omit [DecidableEq C] in
/-- **A relaxed load of a thread that has seen all** changes nothing. -/
theorem SeenAll.load (h : m.SeenAll (m.view t))
    (hload : m.load t l .relaxed stamp = some (m', val)) : m' = m := by
  obtain ⟨msg, hmem, rfl, -, -, rfl⟩ := load_cases hload
  have hle : View.only (.inl l) msg.stamp ≤ m.view t := fun k => by
    by_cases heq : k = .inl l
    · subst heq
      rw [View.only_self]
      exact h l msg hmem
    · rw [View.only_of_ne heq]
      exact Nat.zero_le _
  simp [Mem.see, sup_of_le_left hle]

omit [DecidableEq C] in
/-- It reads the count as it is. -/
theorem Counts.load_eq (h : Counts m l n) (hall : m.SeenAll (m.view t)) {order : MemOrder}
    (hload : m.load t l order stamp = some (m', val)) : val = n := by
  obtain ⟨msg, hmem, hstamp, rfl, hle, -⟩ := load_cases hload
  obtain ⟨top, htop, rfl⟩ := h.all n le_rfl
  refine Nat.le_antisymm (h.le msg hmem) ?_
  rw [h.val_eq msg hmem, hstamp]
  exact (hall l top htop).trans hle

omit [DecidableEq C] in
/-- And a variable that only goes up. -/
theorem Increasing.load_eq (h : Increasing m l n) (hall : m.SeenAll (m.view t)) {order : MemOrder}
    (hload : m.load t l order stamp = some (m', val)) : val = n := by
  obtain ⟨hle, hge⟩ := h.load_bounds hload
  obtain ⟨top, htop, hn⟩ := h.latest
  exact Nat.le_antisymm hle (hge n ⟨top, htop, hn.ge, hall l top htop⟩)

omit [DecidableEq C] in
/-- What a load may read depends on what was stored to the variable, and on what
the thread has seen of it. -/
theorem exists_load_of_eq {order : MemOrder} (hview : m'.view t (.inl l) = m.view t (.inl l))
    (hstores : m'.stores l = m.stores l) (hload : (m.load t l order stamp).isSome) :
    ∃ m₁ val, m'.load t l order stamp = some (m₁, val) := by
  obtain ⟨⟨m₁, val⟩, hload⟩ := Option.isSome_iff_exists.mp hload
  rw [Mem.load, message, ← hview, ← hstores] at hload
  by_cases hle : m'.view t (.inl l) ≤ stamp
  case neg => simp [hle] at hload
  rw [if_pos hle] at hload
  obtain ⟨msg, hmsg, -⟩ := Option.map_eq_some_iff.mp hload
  exact ⟨_, _, by rw [Mem.load, if_pos hle, message, hmsg]; rfl⟩

/-- A plain read says nothing of the variables. -/
theorem view_take {a : α} (htake : m.take t c = some (m', a)) (l : L) :
    m'.view t (.inl l) = m.view t (.inl l) := by
  obtain ⟨-, -, rfl⟩ := take_cases htake
  have hne : (.inl l : L ⊕ τ) ≠ .inr t := nofun
  rw [view_setCell, tick, view_see_self, Pi.sup_apply, View.only_of_ne hne]
  exact sup_of_le_left (Nat.zero_le _)

end Done

/-! ## Cells that a variable hands on -/

/-- **A thread has a cell** that a variable at `n` hands on: it has seen the
latest store, and knows that all accesses to the cell are over. -/
structure Has (m : Mem L C τ α) (v : View L τ) (l : L) (c : C) (n : ℕ) : Prop where
  seen : m.Seen v l n
  known : (m.cell c).Known v

/-- **The variable hands the cell on**: its latest store carries the knowledge
that all accesses to the cell are over. -/
def HandsOn (m : Mem L C τ α) (l : L) (c : C) (n : ℕ) : Prop :=
  ∀ msg ∈ m.stores l, msg.val = n → (m.cell c).Known msg.view

section Handing

variable {m m' : Mem L C τ α} {v v' : View L τ} {t : τ} {l : L} {c : C} {n stamp : ℕ}

omit [DecidableEq L] [DecidableEq C] [DecidableEq τ] in
/-- A cell stays with who has it, while others do other things. -/
theorem Has.mono (h : m.Has v l c n) (hle : v ≤ v')
    (hstores : ∀ msg ∈ m.stores l, msg ∈ m'.stores l) (hcell : m'.cell c = m.cell c) :
    m'.Has v' l c n :=
  ⟨h.seen.mono (hle _) le_rfl hstores, hcell ▸ h.known.mono hle⟩

omit [DecidableEq L] [DecidableEq C] [DecidableEq τ] in
theorem HandsOn.of_eq (h : m.HandsOn l c n) (hstores : m'.stores l = m.stores l)
    (hcell : m'.cell c = m.cell c) : m'.HandsOn l c n := fun msg hmem hval =>
  hcell ▸ h msg (hstores ▸ hmem) hval

omit [DecidableEq C] in
/-- **Who reads the latest store** with acquire has the cell. -/
theorem HandsOn.acquire (h : m.HandsOn l c n)
    (hload : m.load t l .acquire stamp = some (m', n)) : m'.Has (m'.view t) l c n := by
  obtain ⟨msg, hmem, rfl, hval, -, rfl⟩ := load_cases hload
  rw [if_pos rfl]
  have hcell := h msg hmem hval
  refine ⟨⟨msg, hmem, hval.ge, by simp⟩, hcell.mono ?_⟩
  rw [view_see_self]
  exact le_sup_of_le_right le_sup_right

/-- **Who has the cell may write it.** -/
theorem Has.write (h : m.Has (m.view t) l c n) {a : α} (hwrite : m.write t c a = some m') :
    m'.Has (m'.view t) l c n := by
  obtain ⟨-, -, rfl⟩ := write_cases hwrite
  refine ⟨h.seen.mono (m.le_view_see t t _ _) le_rfl fun _ hmem => hmem, ?_⟩
  rw [cell_setCell_self]
  refine ⟨fun w hw => ?_, fun r hr => by cases hr⟩
  obtain rfl := Option.some.inj hw
  exact knows_access

/-- **Who has the cell may take its value.** -/
theorem Has.take (h : m.Has (m.view t) l c n) {a : α} (htake : m.take t c = some (m', a)) :
    m'.Has (m'.view t) l c n := by
  obtain ⟨-, -, rfl⟩ := take_cases htake
  have hle : m.view t ≤ (m.tick t).view t := m.le_view_see t t _
  refine ⟨h.seen.mono (hle _) le_rfl fun _ hmem => hmem, ?_⟩
  rw [cell_setCell_self]
  refine ⟨h.known.1.mono hle, fun r hr => ?_⟩
  rcases List.mem_cons.mp hr with rfl | hold
  · exact knows_access
  · exact h.known.2.mono hle r hold

omit [DecidableEq C] in
/-- **Who has the cell hands it on** with a release store of a greater value. -/
theorem Has.release (h : m.Has (m.view t) l c n) (hinc : m.Increasing l n) {val : ℕ} (hlt : n < val)
    (hstore : m.store t l val .release stamp = some m') : m'.HandsOn l c val := by
  obtain ⟨-, -, rfl⟩ := store_cases hstore
  intro msg hmem hval
  rcases mem_stores_post.mp hmem with ⟨-, rfl⟩ | hold
  · rw [if_pos rfl]
    exact h.known.mono le_sup_left
  · exact absurd (hinc.le msg hold) (by omega)

end Handing

end Mem

end WeakMemory
