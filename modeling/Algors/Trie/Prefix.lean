import Algors.Raw
import Algors.Trie.Lcp
import Mathlib.Data.Nat.Find

/-!
# Prefixes

A `Prefix` is an owned byte string whose length fits in a `u32`: the two
representations of the source – up to 15 bytes inline, or a heap block with
its length beside the pointer – hold the same bytes, and the length field of
the second is where the bound comes from. The structure carries it.

The constructors panic on longer data, and on data that the target has no
layout for: with pointers of 4 bytes, data of `isize::MAX` bytes or more. `Fits`
are the lengths they take, and `Refuses` are their panics. The 16 bytes
themselves are in `Packed`.
-/

namespace Trie

/-- `INLINE_CAP`: the bytes a prefix can hold without allocating. -/
def INLINE_CAP : ℕ := 15

/-- **A prefix**: at most `u32::MAX` bytes. -/
structure Prefix where
  bytes : Bytes
  len_lt : bytes.length < 2 ^ 32
deriving DecidableEq

namespace Prefix

/-- The message of `u32::try_from(len).expect(..)`. -/
def lenMsg : String := "Prefix length exceeds u32::MAX"

/-- The message of `Layout::from_size_align(..).expect(..)`. -/
def layoutMsg : String := "Prefix layout could not be created"

section Constructors

variable [Target]

/-- `Prefix::new`. -/
def new (data : Bytes) : Rust Prefix :=
  if h : data.length ≤ INLINE_CAP then
    .ok ⟨data, h.trans_lt (by decide)⟩
  else if h : data.length < 2 ^ 32 then do
    let _layout ← Rust.expect layoutMsg (Layout.fromSizeAlign data.length 2)
    .ok ⟨data, h⟩
  else
    .error (.expectFailed lenMsg)

/-- `Prefix::from_slices`: the prefix of several slices put together. -/
def fromSlices (slices : List Bytes) : Rust Prefix :=
  if h : slices.flatten.length ≤ INLINE_CAP then
    .ok ⟨slices.flatten, h.trans_lt (by decide)⟩
  else if h : slices.flatten.length < 2 ^ 32 then do
    let _layout ← Rust.expect layoutMsg (Layout.fromSizeAlign slices.flatten.length 2)
    .ok ⟨slices.flatten, h⟩
  else
    .error (.expectFailed lenMsg)

end Constructors

/-- `Prefix::len`. -/
def len (self : Prefix) : ℕ := self.bytes.length

/-- `Prefix::first_byte`, which asserts in debug builds that there is one. -/
def firstByte (self : Prefix) : Rust UInt8 :=
  match self.bytes with
  | [] => .error (.assertFailed "Prefix cannot be empty")
  | b :: _ => .ok b

@[ext] theorem ext {p q : Prefix} (h : p.bytes = q.bytes) : p = q := by
  cases p; cases q; cases h; rfl

/-! ## The lengths a prefix can have -/

section Lengths

variable [Target]

/-- **The lengths a prefix can have**: those that are kept inline, and those that
a `u32` can count and a block can be laid out for. -/
def Fits (len : ℕ) : Prop :=
  len ≤ INLINE_CAP ∨ (len < 2 ^ 32 ∧ (Layout.fromSizeAlign len 2).isSome)

instance (len : ℕ) : Decidable (Fits len) :=
  inferInstanceAs (Decidable (_ ∨ (_ ∧ (Layout.fromSizeAlign len 2).isSome)))

/-- **The panics of the constructors**, on data of at most `room` bytes: its
length does not fit in a `u32`, or it has no layout. -/
inductive Refuses (room : ℕ) : Fault → Prop
  | len {n : ℕ} (hle : n ≤ room) (h : 2 ^ 32 ≤ n) : Refuses room (.expectFailed lenMsg)
  | layout {n : ℕ} (hle : n ≤ room) (hcap : INLINE_CAP < n)
      (h : Layout.fromSizeAlign n 2 = none) : Refuses room (.expectFailed layoutMsg)

/-- A part of what has a layout has one. -/
theorem layout_mono {m n : ℕ} (hle : m ≤ n) (h : (Layout.fromSizeAlign n 2).isSome) :
    (Layout.fromSizeAlign m 2).isSome := by
  unfold Layout.fromSizeAlign at h ⊢
  split_ifs at h with hn
  · rw [if_pos ⟨hn.1, le_trans (by omega) hn.2⟩]
    rfl
  · cases h

theorem Fits.lt {len : ℕ} (h : Fits len) : len < 2 ^ 32 :=
  h.elim (fun hcap => hcap.trans_lt (by decide)) And.left

/-- **A part of what fits, fits.** -/
theorem Fits.mono {m n : ℕ} (h : Fits n) (hle : m ≤ n) : Fits m :=
  h.imp hle.trans fun ⟨hlt, hlayout⟩ => ⟨hle.trans_lt hlt, layout_mono hle hlayout⟩

/-- A layout of two-byte alignment is there up to `isize::MAX`. -/
theorem fromSizeAlign_two (hptr : Target.ptrSize = 4 ∨ Target.ptrSize = 8) (len : ℕ) :
    Layout.fromSizeAlign len 2 = if len < isizeMax then some ⟨len, 2⟩ else none := by
  have hodd : isizeMax % 2 = 1 := by
    rcases hptr with h | h <;> rw [isizeMax, h] <;> norm_num
  unfold Layout.fromSizeAlign
  have hlog : 2 ^ Nat.log2 2 = 2 := by decide
  split_ifs with hfits hlt hlt
  · rfl
  · omega
  · exact absurd ⟨hlog, by omega⟩ hfits
  · rfl

/-- **What fits**, on targets with pointers of 4 or 8 bytes: less than 2³² bytes,
and less than `isize::MAX`, which matters with pointers of 4 bytes only. -/
theorem fits_iff (hptr : Target.ptrSize = 4 ∨ Target.ptrSize = 8) {len : ℕ} :
    Fits len ↔ len < 2 ^ 32 ∧ len < isizeMax := by
  have hcap : INLINE_CAP < isizeMax := by
    rcases hptr with h | h <;> rw [isizeMax, h, INLINE_CAP] <;> norm_num
  have hcap' : INLINE_CAP < 2 ^ 32 := by decide
  unfold Fits
  rw [fromSizeAlign_two hptr]
  split_ifs with hlt
  · simp only [Option.isSome_some, and_true]
    omega
  · simp only [Option.isSome_none, Bool.false_eq_true, and_false, or_false]
    omega

theorem Refuses.mono {room room' : ℕ} {e : Fault} (h : Refuses room e) (hle : room ≤ room') :
    Refuses room' e := by
  cases h with
  | len hn h => exact .len (hn.trans hle) h
  | layout hn hcap h => exact .layout (hn.trans hle) hcap h

/-- **What fits is not refused.** -/
theorem Refuses.not_fits {room : ℕ} {e : Fault} (h : Refuses room e) : ¬ Fits room := by
  intro hfits
  cases h with
  | len hn h => exact absurd (hn.trans_lt hfits.lt) (Nat.not_lt.mpr h)
  | layout hn hcap h =>
    rcases hfits.mono hn with hinline | ⟨-, hlayout⟩
    · exact absurd hcap (Nat.not_lt.mpr hinline)
    · rw [h] at hlayout
      cases hlayout

/-- Data that a `u32` can count is refused for its layout only. -/
theorem Refuses.eq_layout {room : ℕ} {e : Fault} (h : Refuses room e) (hroom : room < 2 ^ 32) :
    e = .expectFailed layoutMsg := by
  cases h with
  | len hn h => exact absurd (hn.trans_lt hroom) (Nat.not_lt.mpr h)
  | layout hn hcap h => rfl

/-- **Data that fits makes a prefix**, and it is that data. -/
theorem new_eq_ok {data : Bytes} (h : Fits data.length) : new data = .ok ⟨data, h.lt⟩ := by
  unfold new
  split_ifs with hcap hlt
  · rfl
  · obtain ⟨layout, hlayout⟩ := Option.isSome_iff_exists.mp (h.resolve_left hcap).2
    rw [hlayout, Rust.expect_some, Rust.ok_bind]
  · exact absurd h.lt hlt

/-- Other data does not. -/
theorem new_eq_error {data : Bytes} (h : ¬ Fits data.length) :
    ∃ e, new data = .error e ∧ Refuses data.length e := by
  unfold new
  split_ifs with hcap hlt
  · exact absurd (Or.inl hcap) h
  · have hnone : Layout.fromSizeAlign data.length 2 = none :=
      Option.not_isSome_iff_eq_none.mp fun hsome => h (Or.inr ⟨hlt, hsome⟩)
    exact ⟨_, by rw [hnone]; rfl, .layout le_rfl (Nat.lt_of_not_le hcap) hnone⟩
  · exact ⟨_, rfl, .len le_rfl (Nat.le_of_not_lt hlt)⟩

omit [Target] in
/-- With pointers of 4 bytes, `isize::MAX` bytes of data have no layout. -/
theorem new_eq_error_i686 {data : Bytes} (h : data.length = 2 ^ 31 - 1) :
    @new .i686 data = .error (.expectFailed layoutMsg) := by
  have hcap : ¬ data.length ≤ INLINE_CAP := by rw [h, INLINE_CAP]; norm_num
  have hlt : data.length < 2 ^ 32 := by rw [h]; norm_num
  have hmax : ¬ data.length < @isizeMax .i686 := by rw [h]; exact lt_irrefl (2 ^ 31 - 1)
  unfold new
  rw [dif_neg hcap, dif_pos hlt, @fromSizeAlign_two .i686 (Or.inl rfl), if_neg hmax]
  rfl

theorem fits_of_new {data : Bytes} {p : Prefix} (h : new data = .ok p) : Fits data.length := by
  by_contra hno
  obtain ⟨e, hnew, -⟩ := new_eq_error hno
  cases hnew.symm.trans h

theorem fromSlices_eq_new (slices : List Bytes) : fromSlices slices = new slices.flatten := rfl

/-- Two slices that fit together make the prefix of both. -/
theorem fromSlices_pair (p q : Bytes) : fromSlices [p, q] = new (p ++ q) := by
  rw [fromSlices_eq_new]
  simp

/-- The longest that fits, of those that a `u32` can count. -/
def maxLen : ℕ := Nat.findGreatest Fits (2 ^ 32 - 1)

theorem fits_maxLen : Fits maxLen :=
  Nat.findGreatest_spec (P := Fits) (Nat.zero_le _) (Or.inl (Nat.zero_le _))

theorem Fits.le_maxLen {len : ℕ} (h : Fits len) : len ≤ maxLen :=
  Nat.le_findGreatest (Nat.le_sub_one_of_lt h.lt) h

end Lengths

end Prefix

/-! ## Calls that may outgrow a length -/

variable [Target]

/-- **The call returns and `post` holds of what it returns**, or a prefix was to
be made of data, of at most `room` bytes, that does not fit. -/
def Returns {α : Type} (room : ℕ) (x : Rust α) (post : α → Prop) : Prop :=
  match x with
  | .ok a => post a
  | .error e => Prefix.Refuses room e

namespace Returns

variable {α β : Type} {room : ℕ} {x : Rust α} {P Q : α → Prop}

/-- A weaker claim of the result. -/
theorem imp (h : Returns room x P) (hPQ : ∀ a, P a → Q a) : Returns room x Q := by
  cases x with
  | ok a => exact hPQ a h
  | error e => exact h

/-- More room. -/
theorem mono {room' : ℕ} (h : Returns room x P) (hle : room ≤ room') : Returns room' x P := by
  cases x with
  | ok a => exact h
  | error e => exact Prefix.Refuses.mono h hle

/-- **Calls in sequence.** -/
theorem bind {f : α → Rust β} {R : β → Prop} (h : Returns room x P)
    (hf : ∀ a, P a → Returns room (f a) R) : Returns room (x >>= f) R := by
  cases x with
  | ok a => exact hf a h
  | error e => exact h

/-- **Where everything fits the call returns.** -/
theorem exists_ok (h : Returns room x P) (hroom : Prefix.Fits room) : ∃ a, x = .ok a ∧ P a := by
  cases x with
  | ok a => exact ⟨a, rfl, h⟩
  | error e => exact absurd hroom (Prefix.Refuses.not_fits h)

theorem of_eq_ok {a : α} (h : Returns room x P) (hx : x = .ok a) : P a := by
  rw [hx] at h
  exact h

/-- **Making a prefix** of data of at most `room` bytes. -/
theorem new {data : Bytes} (hle : data.length ≤ room) :
    Returns room (Prefix.new data) fun p => p.bytes = data := by
  by_cases h : Prefix.Fits data.length
  · rw [Prefix.new_eq_ok h]
    rfl
  · obtain ⟨e, hnew, hrefuses⟩ := Prefix.new_eq_error h
    rw [hnew]
    exact hrefuses.mono hle

/-- Making a prefix of two slices. -/
theorem fromSlices {p q : Bytes} (hle : (p ++ q).length ≤ room) :
    Returns room (Prefix.fromSlices [p, q]) fun r => r.bytes = p ++ q := by
  rw [Prefix.fromSlices_pair]
  exact new hle

end Returns

end Trie
