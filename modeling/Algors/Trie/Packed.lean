import Algors.Lib.Overwrite
import Algors.Raw
import Algors.Trie.Prefix

/-!
# Prefixes, packed into 16 bytes

A prefix is 16 bytes. Up to 15 bytes of data are kept in them, with a byte that
has the length and a set tag bit; longer data is in a block of the heap, and the
16 bytes have the pointer to it, the length and the first byte. The tag bit is
the lowest of the pointer there, and blocks are at even addresses. Where these
fields lie depends on the byte order and on the size of a pointer.

The allocator is a parameter, what `alloc` returns for a layout. Data that no
layout can be made for makes the constructors panic: on a target with pointers
of 4 bytes, data of `isize::MAX` bytes.
-/

namespace Trie

/-! ## The fields -/

def PREFIX_SIZE : ℕ := 16

def ALLOC_LEN_SIZE : ℕ := 4

section Offsets

variable [Target]

def PTR_SIZE : ℕ := Target.ptrSize

def INLINE_TAG_LEN_BYTE : ℕ :=
  match Target.endian with
  | .little => 0
  | .big => PREFIX_SIZE - 1

def INLINE_DATA : ℕ :=
  match Target.endian with
  | .little => 1
  | .big => 0

def ALLOC_DATA_PTR : ℕ :=
  match Target.endian with
  | .little => 0
  | .big => PREFIX_SIZE - PTR_SIZE

def ALLOC_LEN : ℕ :=
  match Target.endian with
  | .little => PTR_SIZE
  | .big => PREFIX_SIZE - PTR_SIZE - ALLOC_LEN_SIZE

def ALLOC_FIRST_BYTE : ℕ :=
  match Target.endian with
  | .little => PTR_SIZE + ALLOC_LEN_SIZE
  | .big => PREFIX_SIZE - PTR_SIZE - ALLOC_LEN_SIZE - 1

/-- A number as bytes in the memory of the target. -/
def toBytes (n value : ℕ) : Bytes :=
  match Target.endian with
  | .little => leBytes n value
  | .big => (leBytes n value).reverse

/-- The number that bytes in the memory of the target are. -/
def ofBytes (bs : Bytes) : ℕ :=
  match Target.endian with
  | .little => leNat bs
  | .big => leNat bs.reverse

end Offsets

/-- **A packed prefix.** -/
structure Packed where
  bytes : Bytes
  length_eq : bytes.length = PREFIX_SIZE
deriving DecidableEq

namespace Packed

theorem ext {p q : Packed} (h : p.bytes = q.bytes) : p = q := by
  cases p
  cases q
  cases h
  rfl

/-- `[0u8; PREFIX_SIZE]`. -/
def zero : Packed := ⟨List.replicate PREFIX_SIZE 0, List.length_replicate⟩

/-- `self.bytes[i]`. -/
def byte (self : Packed) (i : ℕ) : Raw UInt8 := Raw.lift (Rust.index self.bytes i)

/-- `self.bytes[i] = b`. -/
def set (self : Packed) (i : ℕ) (b : UInt8) : Raw Packed :=
  if i < PREFIX_SIZE then .ok ⟨self.bytes.set i b, by rw [List.length_set, self.length_eq]⟩
  else .error (.panic .indexOutOfBounds)

/-- Writing to `self.bytes.as_mut_ptr().add(off)`. -/
def write (self : Packed) (off : ℕ) (data : Bytes) : Raw Packed :=
  if h : off + data.length ≤ PREFIX_SIZE then
    .ok ⟨overwrite self.bytes off data,
      (length_overwrite (self.length_eq.symm ▸ h)).trans self.length_eq⟩
  else .error .undefined

/-- Reading from `self.bytes.as_ptr().add(off)`. -/
def read (self : Packed) (off n : ℕ) : Raw Bytes :=
  if off + n ≤ PREFIX_SIZE then .ok (run self.bytes off n) else .error .undefined

/-! ## The constructors -/

/-- `((len << 1) as u8) | 0x1`. -/
def tagByte (len : ℕ) : UInt8 := UInt8.ofNat (len <<< 1) ||| 1

/-- The message of `find_map(..).expect(..)`. -/
def firstMsg : String := "A non-empty prefix must contain a first byte"

section Constructors

variable [Target] (alloc : Layout → ℕ)

/-- The fields of a prefix whose data is in a block. -/
def allocated (storedLen : ℕ) (first : Rust UInt8) (pt : ℕ) : Raw Packed := do
  let res ← zero.write ALLOC_LEN (toBytes ALLOC_LEN_SIZE storedLen)
  let first ← Raw.lift first
  let res ← res.set ALLOC_FIRST_BYTE first
  res.write ALLOC_DATA_PTR (toBytes PTR_SIZE pt)

/-- The block for data of `len` bytes, and the length as it is stored. -/
def allocateData (len : ℕ) (mem : Memory) : Raw (ℕ × ℕ × Memory) := do
  let storedLen ← Raw.lift (Rust.expect Prefix.lenMsg (toU32 len))
  let layout ← Raw.lift (Rust.expect Prefix.layoutMsg (Layout.fromSizeAlign len 2))
  let pt := alloc layout
  if pt = 0 then .error .allocError else .ok (storedLen, pt, mem.allocate pt layout.size)

/-- **`Prefix::new`.** -/
def new (mem : Memory) (data : Bytes) : Raw (Packed × Memory) :=
  let len := data.length
  if len ≤ INLINE_CAP then do
    let res ← zero.set INLINE_TAG_LEN_BYTE (tagByte len)
    let res ← res.write INLINE_DATA data
    .ok (res, mem)
  else do
    let (storedLen, pt, mem) ← allocateData alloc len mem
    let mem ← mem.write pt data
    let res ← allocated storedLen (Rust.index data 0) pt
    .ok (res, mem)

/-- `slices.iter().map(|s| s.len()).sum()`. -/
def totalLen (slices : List Bytes) : Rust ℕ :=
  slices.foldlM (fun total slice => toUsize (total + slice.length)) 0

/-- The loop over the slices that writes the 16 bytes. -/
def copyInline : Packed → ℕ → List Bytes → Raw Packed
  | res, _, [] => .ok res
  | res, i, slice :: slices => do
    let res ← res.write (INLINE_DATA + i) slice
    copyInline res (i + slice.length) slices

/-- The loop over the slices that writes the block. -/
def copyAlloc (pt : ℕ) : Memory → ℕ → List Bytes → Raw Memory
  | mem, _, [] => .ok mem
  | mem, i, slice :: slices => do
    let mem ← mem.write (pt + i) slice
    copyAlloc pt mem (i + slice.length) slices

/-- **`Prefix::from_slices`.** -/
def fromSlices (mem : Memory) (slices : List Bytes) : Raw (Packed × Memory) := do
  let totalLen ← Raw.lift (totalLen slices)
  if totalLen ≤ INLINE_CAP then do
    let res ← zero.set INLINE_TAG_LEN_BYTE (tagByte totalLen)
    let res ← copyInline res 0 slices
    .ok (res, mem)
  else do
    let (storedLen, pt, mem) ← allocateData alloc totalLen mem
    let mem ← copyAlloc pt mem 0 slices
    let res ← allocated storedLen (Rust.expect firstMsg (slices.findSome? List.head?)) pt
    .ok (res, mem)

end Constructors

/-! ## The getters -/

section Getters

variable [Target] (self : Packed)

/-- `Prefix::is_inline`. -/
def isInline : Raw Bool := do
  let tag ← self.byte INLINE_TAG_LEN_BYTE
  .ok (tag &&& 1 == 1)

/-- `Prefix::len_inline`. -/
def lenInline : Raw ℕ := do
  let tag ← self.byte INLINE_TAG_LEN_BYTE
  .ok (tag >>> 1).toNat

/-- `Prefix::len_alloc`. -/
def lenAlloc : Raw ℕ := do
  let bs ← self.read ALLOC_LEN ALLOC_LEN_SIZE
  .ok (ofBytes bs)

/-- `Prefix::ptr_alloc`. -/
def ptrAlloc : Raw ℕ := do
  let bs ← self.read ALLOC_DATA_PTR PTR_SIZE
  .ok (ofBytes bs)

/-- `Prefix::len`. -/
def len : Raw ℕ := do
  if ← self.isInline then self.lenInline else self.lenAlloc

/-- `Prefix::first_byte`. -/
def firstByte : Raw UInt8 := do
  let len ← self.len
  if len > 0 then
    if ← self.isInline then self.byte INLINE_DATA else self.byte ALLOC_FIRST_BYTE
  else .error (.panic (.assertFailed "Prefix cannot be empty"))

/-- **`Prefix::as_ref`.** -/
def asRef (mem : Memory) : Raw Bytes := do
  if ← self.isInline then do
    let len ← self.lenInline
    let front ← Raw.lift (Rust.sliceTo self.bytes (INLINE_DATA + len))
    Raw.lift (Rust.sliceFrom front INLINE_DATA)
  else do
    let pt ← self.ptrAlloc
    let len ← self.lenAlloc
    mem.read pt len

end Getters

/-! ## The fields lie apart -/

/-- A field: its first byte, and how many it has. -/
structure Field where
  start : ℕ
  size : ℕ

/-- No byte is in both fields. -/
def Field.Apart (f g : Field) : Prop := f.start + f.size ≤ g.start ∨ g.start + g.size ≤ f.start

/-- **The fields of either variant lie apart in the 16 bytes**, and the tag byte
is one of the bytes of the pointer. -/
structure FieldsApart [Target] : Prop where
  inlineTagData : Field.Apart ⟨INLINE_TAG_LEN_BYTE, 1⟩ ⟨INLINE_DATA, INLINE_CAP⟩
  ptrLen : Field.Apart ⟨ALLOC_DATA_PTR, PTR_SIZE⟩ ⟨ALLOC_LEN, ALLOC_LEN_SIZE⟩
  ptrFirst : Field.Apart ⟨ALLOC_DATA_PTR, PTR_SIZE⟩ ⟨ALLOC_FIRST_BYTE, 1⟩
  lenFirst : Field.Apart ⟨ALLOC_LEN, ALLOC_LEN_SIZE⟩ ⟨ALLOC_FIRST_BYTE, 1⟩
  inlineWithin : INLINE_TAG_LEN_BYTE < PREFIX_SIZE ∧ INLINE_DATA + INLINE_CAP ≤ PREFIX_SIZE
  allocWithin : ALLOC_DATA_PTR + PTR_SIZE ≤ PREFIX_SIZE ∧ ALLOC_LEN + ALLOC_LEN_SIZE ≤ PREFIX_SIZE
    ∧ ALLOC_FIRST_BYTE < PREFIX_SIZE
  tagInPtr : ALLOC_DATA_PTR ≤ INLINE_TAG_LEN_BYTE
    ∧ INLINE_TAG_LEN_BYTE < ALLOC_DATA_PTR + PTR_SIZE

section Fields

variable [Target] {n value : ℕ}

/-- With pointers of 4 or 8 bytes, of either byte order. -/
theorem fieldsApart (hptr : PTR_SIZE = 4 ∨ PTR_SIZE = 8) : FieldsApart := by
  cases hendian : Target.endian <;> constructor <;>
    simp only [Field.Apart, INLINE_TAG_LEN_BYTE, INLINE_DATA, INLINE_CAP, ALLOC_DATA_PTR, ALLOC_LEN,
      ALLOC_LEN_SIZE, ALLOC_FIRST_BYTE, PREFIX_SIZE, hendian] <;>
    omega

@[simp] theorem length_toBytes : (toBytes n value).length = n := by
  unfold toBytes
  cases Target.endian <;> simp

theorem ofBytes_toBytes (h : value < 2 ^ (8 * n)) : ofBytes (toBytes n value) = value := by
  unfold ofBytes toBytes
  cases Target.endian with
  | little => exact leNat_leBytes h
  | big => simpa using leNat_leBytes h

/-- **The tag byte is the lowest of the pointer.** -/
theorem getElem?_toBytes_tag (hptr : PTR_SIZE = 4 ∨ PTR_SIZE = 8) :
    (toBytes PTR_SIZE value)[INLINE_TAG_LEN_BYTE - ALLOC_DATA_PTR]?
      = some (UInt8.ofNat (value % 2 ^ 8)) := by
  obtain ⟨n, hn⟩ : ∃ n, PTR_SIZE = n + 1 := ⟨PTR_SIZE - 1, by omega⟩
  unfold toBytes INLINE_TAG_LEN_BYTE ALLOC_DATA_PTR
  rw [hn]
  cases Target.endian with
  | little => rfl
  | big =>
    have hlast : PREFIX_SIZE - 1 - (PREFIX_SIZE - (n + 1)) = n := by
      unfold PREFIX_SIZE
      omega
    dsimp only
    rw [hlast, List.getElem?_reverse (by simp), length_leBytes]
    simp [leBytes]

end Fields

/-- The tag byte of inline data. -/
theorem tagByte_spec {len : ℕ} (h : len ≤ INLINE_CAP) :
    (tagByte len &&& 1 == 1) = true ∧ (tagByte len >>> 1).toNat = len := by
  have hall : ∀ len < 16, (tagByte len &&& 1 == 1) = true ∧ (tagByte len >>> 1).toNat = len := by
    decide
  exact hall len (Nat.lt_succ_of_le h)

/-- The lowest byte of an even number has no tag. -/
theorem tag_even {pt : ℕ} (h : 2 ∣ pt) : (UInt8.ofNat (pt % 2 ^ 8) &&& 1 == 1) = false := by
  have hall : ∀ n < 2 ^ 8, n % 2 = 0 → (UInt8.ofNat n &&& 1 == 1) = false := by decide +kernel
  exact hall _ (Nat.mod_lt _ (by decide)) (by omega)

/-! ## What was written -/

section Written

variable {self : Packed} {off i : ℕ} {data : Bytes} {b : UInt8}

theorem write_eq (self : Packed) (h : off + data.length ≤ PREFIX_SIZE) :
    ∃ self', self.write off data = .ok self' ∧ self'.bytes = overwrite self.bytes off data :=
  ⟨_, dif_pos h, rfl⟩

theorem set_eq (self : Packed) (b : UInt8) (h : i < PREFIX_SIZE) :
    ∃ self', self.set i b = .ok self' ∧ self'.bytes = overwrite self.bytes i [b] :=
  ⟨_, if_pos h, set_eq_overwrite (self.length_eq.symm ▸ h)⟩

theorem byte_eq (h : self.bytes[i]? = some b) : self.byte i = .ok b := by
  rw [byte, Rust.index, h]
  rfl

/-- **A prefix stands for data**: what its getters return. -/
structure Decodes [Target] (mem : Memory) (self : Packed) (d : Bytes) : Prop where
  asRef : self.asRef mem = .ok d
  len : self.len = .ok d.length
  isInline : self.isInline = .ok (decide (d.length ≤ INLINE_CAP))
  firstByte : ∀ b, d.head? = some b → self.firstByte = .ok b

end Written

section Inline

variable [Target] {d : Bytes} {mem : Memory}

/-- The 16 bytes of inline data. -/
def inlineBytes (d : Bytes) : Bytes :=
  overwrite (overwrite zero.bytes INLINE_TAG_LEN_BYTE [tagByte d.length]) INLINE_DATA d

/-- **Inline data is read back.** -/
theorem decodes_inline (hptr : PTR_SIZE = 4 ∨ PTR_SIZE = 8) (hd : d.length ≤ INLINE_CAP)
    {self : Packed} (hself : self.bytes = inlineBytes d) : Decodes mem self d := by
  have hapart := fieldsApart hptr
  obtain ⟨htagwithin, hdatawithin⟩ := hapart.inlineWithin
  have htagdata := hapart.inlineTagData
  simp only [Field.Apart] at htagdata
  have hlen : (overwrite zero.bytes INLINE_TAG_LEN_BYTE [tagByte d.length]).length = PREFIX_SIZE :=
    (length_overwrite (zero.length_eq.symm ▸ htagwithin)).trans zero.length_eq
  have hroom : INLINE_DATA + d.length
      ≤ (overwrite zero.bytes INLINE_TAG_LEN_BYTE [tagByte d.length]).length := by omega
  have htag : self.byte INLINE_TAG_LEN_BYTE = .ok (tagByte d.length) := by
    refine byte_eq ?_
    rw [hself, inlineBytes, getElem?_overwrite hroom, if_neg (by omega),
      getElem?_overwrite (zero.length_eq.symm ▸ htagwithin), if_pos ⟨le_rfl, Nat.lt_succ_self _⟩,
      Nat.sub_self]
    rfl
  have hrun : run self.bytes INLINE_DATA d.length = d := by
    rw [hself]
    exact run_overwrite_self hroom
  have hinline : self.isInline = .ok true := by
    rw [isInline, htag]
    exact congrArg Except.ok (tagByte_spec hd).1
  have hlenInline : self.lenInline = .ok d.length := by
    rw [lenInline, htag]
    exact congrArg Except.ok (tagByte_spec hd).2
  have hlen' : self.len = .ok d.length := by
    rw [len, hinline, Raw.ok_bind, if_pos rfl, hlenInline]
  refine ⟨?_, hlen', ?_, fun b hb => ?_⟩
  · have hbytes : INLINE_DATA + d.length ≤ self.bytes.length := by
      rw [self.length_eq]
      omega
    have htake : INLINE_DATA ≤ (self.bytes.take (INLINE_DATA + d.length)).length := by
      rw [List.length_take]
      omega
    simp only [asRef, hinline, Raw.ok_bind, if_true, hlenInline, Rust.sliceTo_eq_ok hbytes,
      Raw.lift_ok, Rust.sliceFrom_eq_ok htake, List.drop_take, Nat.add_sub_cancel_left]
    exact congrArg Except.ok hrun
  · rw [hinline, decide_eq_true hd]
  · obtain ⟨rest, rfl⟩ := List.head?_eq_some_iff.mp hb
    have hfirst : self.byte INLINE_DATA = .ok b := by
      refine byte_eq ?_
      have hget := congrArg (·[0]?) hrun
      simpa [getElem?_run] using hget
    simp only [firstByte, hlen', Raw.ok_bind, hinline, if_true, hfirst, List.length_cons,
      if_pos (Nat.succ_pos rest.length)]

/-- `Prefix::new` of data that fits into the 16 bytes. -/
theorem new_inline {alloc : Layout → ℕ} (hptr : PTR_SIZE = 4 ∨ PTR_SIZE = 8)
    (hd : d.length ≤ INLINE_CAP) :
    ∃ self, new alloc mem d = .ok (self, mem) ∧ Decodes mem self d := by
  obtain ⟨htagwithin, hdatawithin⟩ := (fieldsApart hptr).inlineWithin
  obtain ⟨p₁, hset, hp₁⟩ := set_eq zero (tagByte d.length) htagwithin
  have hroom : INLINE_DATA + d.length ≤ PREFIX_SIZE := by omega
  obtain ⟨p₂, hwrite, hp₂⟩ := write_eq p₁ hroom
  refine ⟨p₂, ?_, decodes_inline hptr hd (by rw [hp₂, hp₁]; rfl)⟩
  simp only [new, if_pos hd, hset, Raw.ok_bind, hwrite]

end Inline

section Alloc

variable [Target] {d : Bytes} {mem : Memory} {pt : ℕ}

/-- The 16 bytes of data in a block. -/
def allocBytes (len : ℕ) (first : UInt8) (pt : ℕ) : Bytes :=
  overwrite (overwrite (overwrite zero.bytes ALLOC_LEN (toBytes ALLOC_LEN_SIZE len))
    ALLOC_FIRST_BYTE [first]) ALLOC_DATA_PTR (toBytes PTR_SIZE pt)

theorem allocated_eq (hptr : PTR_SIZE = 4 ∨ PTR_SIZE = 8) (len : ℕ) (first : UInt8) (pt : ℕ) :
    ∃ self, allocated len (.ok first) pt = .ok self ∧ self.bytes = allocBytes len first pt := by
  obtain ⟨hptrwithin, hlenwithin, hfirstwithin⟩ := (fieldsApart hptr).allocWithin
  have hlenroom : ALLOC_LEN + (toBytes ALLOC_LEN_SIZE len).length ≤ PREFIX_SIZE := by
    rwa [length_toBytes]
  have hptrroom : ALLOC_DATA_PTR + (toBytes PTR_SIZE pt).length ≤ PREFIX_SIZE := by
    rwa [length_toBytes]
  obtain ⟨p₁, hlen, hp₁⟩ := write_eq zero hlenroom
  obtain ⟨p₂, hfirst, hp₂⟩ := set_eq p₁ first hfirstwithin
  obtain ⟨p₃, hpt, hp₃⟩ := write_eq p₂ hptrroom
  refine ⟨p₃, ?_, by rw [hp₃, hp₂, hp₁]; rfl⟩
  simp only [allocated, hlen, hfirst, hpt, Raw.ok_bind, Raw.lift_ok]

/-- **Data in a block is read back.** -/
theorem decodes_alloc (hptr : PTR_SIZE = 4 ∨ PTR_SIZE = 8) (hd : ¬ d.length ≤ INLINE_CAP)
    (hlt : d.length < 2 ^ 32) (heven : 2 ∣ pt) (hpt : pt < 2 ^ (8 * PTR_SIZE))
    (hread : mem.read pt d.length = .ok d) {self : Packed} {first : UInt8}
    (hfirst : d.head? = some first) (hself : self.bytes = allocBytes d.length first pt) :
    Decodes mem self d := by
  have hapart := fieldsApart hptr
  obtain ⟨hptrwithin, hlenwithin, hfirstwithin⟩ := hapart.allocWithin
  obtain ⟨htagle, htaglt⟩ := hapart.tagInPtr
  have hptrlen := hapart.ptrLen
  have hptrfirst := hapart.ptrFirst
  have hlenfirst := hapart.lenFirst
  simp only [Field.Apart] at hptrlen hptrfirst hlenfirst
  -- the lengths of the array after each of the three writes
  have hzero : ALLOC_LEN + (toBytes ALLOC_LEN_SIZE d.length).length ≤ zero.bytes.length := by
    rwa [length_toBytes, zero.length_eq]
  set bytes₁ := overwrite zero.bytes ALLOC_LEN (toBytes ALLOC_LEN_SIZE d.length) with hbytes₁
  have hlen₁ : bytes₁.length = PREFIX_SIZE := (length_overwrite hzero).trans zero.length_eq
  have hroom₁ : ALLOC_FIRST_BYTE + [first].length ≤ bytes₁.length := hlen₁.symm ▸ hfirstwithin
  set bytes₂ := overwrite bytes₁ ALLOC_FIRST_BYTE [first] with hbytes₂
  have hlen₂ : bytes₂.length = PREFIX_SIZE := (length_overwrite hroom₁).trans hlen₁
  have hroom₂ : ALLOC_DATA_PTR + (toBytes PTR_SIZE pt).length ≤ bytes₂.length := by
    rwa [length_toBytes, hlen₂]
  have hbytes : self.bytes = overwrite bytes₂ ALLOC_DATA_PTR (toBytes PTR_SIZE pt) := hself
  -- what is in the fields after all of them
  have hrunptr : run self.bytes ALLOC_DATA_PTR PTR_SIZE = toBytes PTR_SIZE pt := by
    have := run_overwrite_self hroom₂
    rwa [length_toBytes, ← hbytes] at this
  have hrunlen : run self.bytes ALLOC_LEN ALLOC_LEN_SIZE = toBytes ALLOC_LEN_SIZE d.length := by
    have := run_overwrite_self hzero
    rw [length_toBytes] at this
    rw [hbytes, run_overwrite_of_apart hroom₂ (by rw [length_toBytes]; omega), hbytes₂,
      run_overwrite_of_apart hroom₁ (by rw [List.length_singleton]; omega), this]
  have hbyte : self.byte ALLOC_FIRST_BYTE = .ok first := by
    refine byte_eq ?_
    rw [hbytes, getElem?_overwrite hroom₂, if_neg (by rw [length_toBytes]; omega), hbytes₂,
      getElem?_overwrite hroom₁, if_pos ⟨le_rfl, Nat.lt_succ_self _⟩, Nat.sub_self]
    rfl
  have htag : self.byte INLINE_TAG_LEN_BYTE = .ok (UInt8.ofNat (pt % 2 ^ 8)) := by
    refine byte_eq ?_
    rw [hbytes, getElem?_overwrite hroom₂, if_pos ⟨htagle, by rwa [length_toBytes]⟩]
    exact getElem?_toBytes_tag hptr
  have hinline : self.isInline = .ok false := by
    rw [isInline, htag]
    exact congrArg Except.ok (tag_even heven)
  have hlenAlloc : self.lenAlloc = .ok d.length := by
    rw [lenAlloc, read, if_pos hlenwithin, hrunlen, Raw.ok_bind,
      ofBytes_toBytes (show d.length < 2 ^ (8 * ALLOC_LEN_SIZE) from hlt)]
  have hptrAlloc : self.ptrAlloc = .ok pt := by
    rw [ptrAlloc, read, if_pos hptrwithin, hrunptr, Raw.ok_bind, ofBytes_toBytes hpt]
  have hlen : self.len = .ok d.length := by
    rw [len, hinline, Raw.ok_bind, if_neg Bool.false_ne_true, hlenAlloc]
  refine ⟨?_, hlen, ?_, fun b hb => ?_⟩
  · simp only [asRef, hinline, Raw.ok_bind, if_neg Bool.false_ne_true, hptrAlloc, hlenAlloc, hread]
  · rw [hinline, decide_eq_false hd]
  · obtain rfl := Option.some.inj (hfirst.symm.trans hb)
    have hpos : d.length > 0 := by omega
    simp only [firstByte, hlen, Raw.ok_bind, if_pos hpos, hinline, if_neg Bool.false_ne_true, hbyte]

/-- **What the allocator returns for a new block**: an even address that is not
null, at which there is no other block. -/
structure Fresh (mem : Memory) (pt n : ℕ) : Prop where
  nonnull : pt ≠ 0
  even : 2 ∣ pt
  fits : pt < 2 ^ (8 * PTR_SIZE)
  free : ∀ a, pt ≤ a → a < pt + n → mem a = .free

section Constructor

variable {alloc : Layout → ℕ}

theorem allocateData_eq (hptr : PTR_SIZE = 4 ∨ PTR_SIZE = 8) {len : ℕ} (hlt : len < 2 ^ 32)
    (hlayout : len < isizeMax) (hnonnull : alloc ⟨len, 2⟩ ≠ 0) :
    allocateData alloc len mem
      = .ok (len, alloc ⟨len, 2⟩, mem.allocate (alloc ⟨len, 2⟩) len) := by
  simp only [allocateData, toU32, if_pos hlt, Rust.expect_some, Raw.lift_ok, Raw.ok_bind,
    Prefix.fromSizeAlign_two hptr, if_pos hlayout, if_neg hnonnull]

/-- Data without a layout. -/
theorem allocateData_eq_panic (hptr : PTR_SIZE = 4 ∨ PTR_SIZE = 8) {len : ℕ} (hlt : len < 2 ^ 32)
    (hlayout : ¬ len < isizeMax) :
    allocateData alloc len mem = .error (.panic (.expectFailed Prefix.layoutMsg)) := by
  simp only [allocateData, toU32, if_pos hlt, Raw.lift_ok, Raw.ok_bind,
    Prefix.fromSizeAlign_two hptr, if_neg hlayout, Rust.expect, Raw.lift_error, Raw.error_bind]

/-- `Prefix::new` of longer data. -/
theorem new_alloc (hptr : PTR_SIZE = 4 ∨ PTR_SIZE = 8) (hd : ¬ d.length ≤ INLINE_CAP)
    (hlt : d.length < 2 ^ 32) (hlayout : d.length < isizeMax)
    (hfresh : Fresh mem (alloc ⟨d.length, 2⟩) d.length) :
    ∃ self mem', new alloc mem d = .ok (self, mem') ∧ Decodes mem' self d
      ∧ ∀ a, mem a ≠ .free → mem' a = mem a := by
  obtain ⟨b, hhead, hindex⟩ : ∃ b, d.head? = some b ∧ Rust.index d 0 = .ok b := by
    cases d with
    | nil => exact absurd (Nat.zero_le _) hd
    | cons b rest => exact ⟨b, rfl, rfl⟩
  set pt := alloc ⟨d.length, 2⟩ with hpt
  have hblock : ∀ a, pt ≤ a → a < pt + d.length → mem.allocate pt d.length a ≠ .free :=
    fun a hle hltend => by
      rw [Memory.allocate, if_pos ⟨hle, hltend⟩]
      exact Cell.noConfusion
  obtain ⟨mem', hwrite, hin, hout⟩ := Memory.write_eq hblock
  obtain ⟨self, hself, hbytes⟩ := allocated_eq hptr d.length b pt
  refine ⟨self, mem', ?_, decodes_alloc hptr hd hlt hfresh.even hfresh.fits (Memory.read_eq hin)
    hhead hbytes, fun a ha => ?_⟩
  · simp only [new, if_neg hd, allocateData_eq hptr hlt hlayout hfresh.nonnull, Raw.ok_bind,
      ← hpt, hwrite, hindex, hself]
  · have hoff : a < pt ∨ pt + d.length ≤ a := by
      by_contra hin
      exact ha (hfresh.free a (by omega) (by omega))
    rw [hout a hoff, Memory.allocate, if_neg (by omega)]

end Constructor

end Alloc

/-! ## Slices put together -/

section FromSlices

variable [Target] {alloc : Layout → ℕ} {mem : Memory} {slices : List Bytes}

theorem totalLen_eq (h : slices.flatten.length < 2 ^ (8 * PTR_SIZE)) :
    totalLen slices = .ok slices.flatten.length := by
  have hall : ∀ (slices : List Bytes) (total : ℕ),
      total + slices.flatten.length < 2 ^ (8 * PTR_SIZE) →
      slices.foldlM (fun total slice => toUsize (total + slice.length)) total
        = (.ok (total + slices.flatten.length) : Rust ℕ) := by
    intro slices
    induction slices with
    | nil => exact fun total _ => rfl
    | cons slice slices ih =>
      intro total hlt
      rw [List.flatten_cons, List.length_append] at hlt
      have hslice : total + slice.length < 2 ^ (8 * Target.ptrSize) := by
        change total + (slice.length + slices.flatten.length) < 2 ^ (8 * Target.ptrSize) at hlt
        omega
      rw [List.foldlM_cons, toUsize, if_pos hslice, Rust.ok_bind, ih _ (by omega),
        List.flatten_cons, List.length_append, Nat.add_assoc]
  rw [totalLen, hall slices 0 (by rwa [Nat.zero_add]), Nat.zero_add]

/-- **The slices are written as one.** -/
theorem copyInline_eq {i : ℕ} {res : Packed}
    (h : INLINE_DATA + i + slices.flatten.length ≤ PREFIX_SIZE) :
    copyInline res i slices = res.write (INLINE_DATA + i) slices.flatten := by
  induction slices generalizing res i with
  | nil =>
    rw [copyInline, write, dif_pos h]
    exact congrArg Except.ok (ext overwrite_nil.symm)
  | cons slice slices ih =>
    rw [List.flatten_cons, List.length_append] at h
    have hroom : INLINE_DATA + i + slice.length ≤ PREFIX_SIZE := by omega
    rw [copyInline, write, dif_pos hroom, Raw.ok_bind, ih (by omega), write, write,
      dif_pos (by rw [← Nat.add_assoc]; omega),
      dif_pos (by rw [List.flatten_cons, List.length_append]; omega)]
    congr 2
    rw [← Nat.add_assoc, overwrite_append (by rw [res.length_eq]; omega), List.flatten_cons]

omit [Target] in
theorem copyAlloc_eq {pt i : ℕ} :
    copyAlloc pt mem i slices = mem.write (pt + i) slices.flatten := by
  induction slices generalizing mem i with
  | nil => rfl
  | cons slice slices ih =>
    rw [copyAlloc, List.flatten_cons, Memory.write_append]
    congr 1
    funext mem'
    rw [ih, Nat.add_assoc]

/-- **`from_slices` is `new` of the slices put together**, whose length is a
`usize`. -/
theorem fromSlices_eq_new (hptr : PTR_SIZE = 4 ∨ PTR_SIZE = 8)
    (h : slices.flatten.length < 2 ^ (8 * PTR_SIZE)) :
    fromSlices alloc mem slices = new alloc mem slices.flatten := by
  simp only [fromSlices, totalLen_eq h, Raw.lift_ok, Raw.ok_bind, new]
  split_ifs with hlen
  · have hwithin := (fieldsApart hptr).inlineWithin.2
    have hcopy : ∀ res : Packed,
        copyInline res 0 slices = res.write INLINE_DATA slices.flatten :=
      fun res => copyInline_eq (by omega)
    simp only [hcopy]
  · have hfirst : Rust.expect firstMsg (slices.findSome? List.head?)
        = Rust.index slices.flatten 0 := by
      rw [← List.head?_flatten]
      cases hflat : slices.flatten with
      | nil =>
        rw [hflat] at hlen
        exact absurd (Nat.zero_le _) hlen
      | cons b rest => rfl
    simp only [copyAlloc_eq, Nat.add_zero, hfirst]

end FromSlices

/-! ## The prefixes of the trie -/

section Abstract

variable [Target] {alloc : Layout → ℕ} {mem : Memory} {d : Bytes}

/-- **A packed prefix is one of the trie's**: the packed constructor returns when
the other does, and what it returns stands for the bytes of the other's. -/
theorem exists_of_prefix_new (hptr : PTR_SIZE = 4 ∨ PTR_SIZE = 8) {pre : Prefix}
    (hpre : Prefix.new d = .ok pre)
    (hfresh : ¬ d.length ≤ INLINE_CAP → Fresh mem (alloc ⟨d.length, 2⟩) d.length) :
    ∃ self mem', new alloc mem d = .ok (self, mem') ∧ Decodes mem' self pre.bytes
      ∧ ∀ a, mem a ≠ .free → mem' a = mem a := by
  have hfits := Prefix.fits_of_new hpre
  rw [Prefix.new_eq_ok hfits] at hpre
  obtain rfl := Except.ok.inj hpre
  by_cases hd : d.length ≤ INLINE_CAP
  · obtain ⟨self, hnew, hdecodes⟩ := @new_inline _ d mem alloc hptr hd
    exact ⟨self, mem, hnew, hdecodes, fun _ _ => rfl⟩
  · exact new_alloc hptr hd hfits.lt ((Prefix.fits_iff hptr).mp hfits).2 (hfresh hd)

end Abstract

/-! ## The round trip -/

section RoundTrip

variable [Target]

/-- **A prefix is read back as the data it was made of**, on targets with
pointers of 4 or 8 bytes and either byte order, from data of less than 2³²
bytes, in one piece or several. Data for which there is no layout, of
`isize::MAX` bytes or more, makes the constructor panic. -/
theorem roundTrip (hptr : PTR_SIZE = 4 ∨ PTR_SIZE = 8) (alloc : Layout → ℕ) (mem : Memory)
    (d : Bytes) (hd : d.length < 2 ^ 32)
    (hfresh : ¬ d.length ≤ INLINE_CAP → Fresh mem (alloc ⟨d.length, 2⟩) d.length) :
    FieldsApart
      ∧ (d.length ≤ INLINE_CAP ∨ d.length < isizeMax →
        ∃ self mem', new alloc mem d = .ok (self, mem') ∧ Decodes mem' self d
          ∧ ∀ a, mem a ≠ .free → mem' a = mem a)
      ∧ (¬ (d.length ≤ INLINE_CAP ∨ d.length < isizeMax) →
        new alloc mem d = .error (.panic (.expectFailed Prefix.layoutMsg)))
      ∧ ∀ slices : List Bytes, slices.flatten = d →
        fromSlices alloc mem slices = new alloc mem d := by
  refine ⟨fieldsApart hptr, fun hlayout => ?_, fun hlayout => ?_, fun slices hslices => ?_⟩
  · have hfits : Prefix.Fits d.length :=
      hlayout.elim Or.inl fun hlt => (Prefix.fits_iff hptr).mpr ⟨hd, hlt⟩
    exact exists_of_prefix_new hptr (Prefix.new_eq_ok hfits) hfresh
  · rw [not_or] at hlayout
    simp only [new, if_neg hlayout.1, allocateData_eq_panic hptr hd hlayout.2, Raw.error_bind]
  · subst hslices
    refine fromSlices_eq_new hptr (hd.trans_le ?_)
    have hpow : 4 ≤ PTR_SIZE := by omega
    exact Nat.pow_le_pow_right (by decide) (Nat.mul_le_mul_left 8 hpow)

end RoundTrip

/-- Twenty bytes, in one piece and in three. -/
theorem roundTrip_twenty :
    (∃ self mem', @new .x86_64 (fun _ => 4096) (fun _ => .free) (List.replicate 20 7)
        = .ok (self, mem') ∧ @Decodes .x86_64 mem' self (List.replicate 20 7)
      ∧ ∀ a, (fun _ => .free : Memory) a ≠ .free → mem' a = (fun _ => .free : Memory) a)
    ∧ @fromSlices .x86_64 (fun _ => 4096) (fun _ => .free) [[7], [], List.replicate 19 7]
      = @new .x86_64 (fun _ => 4096) (fun _ => .free) (List.replicate 20 7) :=
  have hfresh : @Fresh .x86_64 (fun _ => .free) 4096 20 :=
    @Fresh.mk .x86_64 _ _ _ (by decide) (by decide) (by decide) fun _ _ _ => rfl
  have hround := @roundTrip .x86_64 (Or.inr rfl) (fun _ => 4096) (fun _ => .free)
    (List.replicate 20 7) (by decide) fun _ => hfresh
  ⟨hround.2.1 (Or.inr (by decide)), hround.2.2.2 [[7], [], List.replicate 19 7] rfl⟩

/-- **With pointers of 4 bytes, `isize::MAX` bytes of data have no layout**, and
the constructor panics. -/
theorem new_eq_panic_i686 :
    (List.replicate (2 ^ 31 - 1) 0 : Bytes).length < 2 ^ 32
      ∧ @Fresh .i686 (fun _ => .free) 2 (2 ^ 31 - 1)
      ∧ @new .i686 (fun _ => 2) (fun _ => .free) (List.replicate (2 ^ 31 - 1) 0)
        = .error (.panic (.expectFailed Prefix.layoutMsg)) := by
  have hlt : (List.replicate (2 ^ 31 - 1) 0 : Bytes).length < 2 ^ 32 := by
    rw [List.length_replicate]
    norm_num
  have hinline : ¬ (List.replicate (2 ^ 31 - 1) 0 : Bytes).length ≤ INLINE_CAP := by
    rw [List.length_replicate, INLINE_CAP]
    norm_num
  have hlayout : ¬ (List.replicate (2 ^ 31 - 1) 0 : Bytes).length < @isizeMax .i686 := by
    rw [List.length_replicate]
    exact lt_irrefl (2 ^ 31 - 1)
  refine ⟨hlt, @Fresh.mk .i686 _ _ _ (by decide) (by decide) (by decide) fun _ _ _ => rfl, ?_⟩
  simp only [new, if_neg hinline, @allocateData_eq_panic .i686 _ _ (Or.inl rfl) _ hlt hlayout,
    Raw.error_bind]

end Packed

end Trie
