import Algors.Trie.Children

/-!
# The map of a node's children

`Node.childMap` is what the children of a node are for: a map from first bytes to
children. Under agreement the operations on a child are those of the map – a test
and a reading at a byte, and a change at one byte – and the vector lists the map in
the order of its bytes. The index read off the bitmap is the number of bits set
below the byte for any four words, agreement or not.
-/

namespace Trie

variable {T : Type}

namespace Node

/-- **The child that starts with a byte**, where there is one. -/
def childMap (self : Node T) (b : UInt8) : Option (Node T) :=
  self.children.lookupKey key b.toNat

/-- The bit of a byte in a node's bitmap, which a leaf does not have. -/
def bit : Node T → ℕ → Bool
  | leaf _ => fun _ => false
  | internal _ bitmap _ => bitmap.bit

/-- **The index is the number of bits set below the byte**, in the four words of any
bitmap. -/
theorem childIdxFromPos_eq_count (n : Node T) (b : UInt8) :
    n.childIdxFromPos (childPosFromByte b) = Nat.count (fun i => n.bit i = true) b.toNat := by
  cases n with
  | leaf h => simp [childIdxFromPos, bit]
  | internal h bitmap cs =>
    rw [childIdxFromPos, Bitmap.childIdx_eq_count, toNat_childPosFromByte]
    rfl

variable {n : Node T} {b : UInt8} {c : Node T}

/-- A child starts with its byte. -/
theorem key_eq_of_head? (h : c.pfx.bytes.head? = some b) : c.key = b.toNat := by
  rw [key, List.headD_eq_head?_getD, h, Option.getD_some]

theorem ne_nil_of_head? (h : c.pfx.bytes.head? = some b) : c.pfx.bytes ≠ [] :=
  fun hnil => by rw [hnil] at h; cases h

theorem childMap_eq_none_iff : n.childMap b = none ↔ ∀ c ∈ n.children, c.key ≠ b.toNat :=
  List.lookupKey_eq_none_iff

namespace Agrees

theorem childMap_eq_some_iff (hn : n.Agrees) :
    n.childMap b = some c ↔ c ∈ n.children ∧ c.key = b.toNat :=
  hn.sorted.lookupKey_eq_some_iff

/-- **The child found starts with the byte.** -/
theorem head?_of_childMap (hn : n.Agrees) (h : n.childMap b = some c) :
    c.pfx.bytes.head? = some b := by
  obtain ⟨hc, hkey⟩ := hn.childMap_eq_some_iff.mp h
  obtain ⟨bs, hbs⟩ := exists_pfx_of_key_eq (hn.nonempty hc) hkey
  rw [hbs, List.head?_cons]

/-- **The test is the domain of the map.** -/
theorem childExists_eq_isSome (hn : n.Agrees) (b : UInt8) :
    n.childExists (childPosFromByte b) = (n.childMap b).isSome := by
  rw [Bool.eq_iff_iff, hn.childExists_iff, Option.isSome_iff_exists]
  exact exists_congr fun c => hn.childMap_eq_some_iff.symm

/-- **A reading after the test is the reading of the map.** -/
theorem getChildByPos_eq_childMap (hn : n.Agrees)
    (h : n.childExists (childPosFromByte b) = true) :
    n.getChildByPos (childPosFromByte b) = n.childMap b := by
  obtain ⟨c, hc, hkey⟩ := (hn.childExists_iff b).mp h
  rw [hn.getChildByPos_eq hc hkey, hn.childMap_eq_some_iff.mpr ⟨hc, hkey⟩]

/-- The maps of two nodes that agree are one outside a byte, when their children with
other first bytes are. -/
theorem childMap_eq_update {n' : Node T} (hn : n.Agrees) (hn' : n'.Agrees)
    (h : ∀ x, x.key ≠ b.toNat → (x ∈ n'.children ↔ x ∈ n.children)) :
    n'.childMap = Function.update n.childMap b (n'.childMap b) := by
  refine funext fun a => ?_
  by_cases hab : a = b
  · rw [hab, Function.update_self]
  · rw [Function.update_of_ne hab]
    refine hn.sorted.lookupKey_congr hn'.sorted fun x hx => h x ?_
    exact fun hxb => hab (UInt8.toNat_inj.mp (hx.symm.trans hxb))

/-- **Insertion changes the map at one byte**, to the child inserted. -/
theorem childMap_insertChild (hn : n.Agrees) (habsent : n.childMap b = none)
    (hchild : c.pfx.bytes.head? = some b) :
    ∃ n', n.insertChild (childPosFromByte b) c = .ok n' ∧ n'.Agrees
      ∧ n'.childMap = Function.update n.childMap b (some c)
      ∧ n'.children.filter (fun x => decide (x.key ≠ b.toNat)) = n.children
      ∧ n'.val = n.val ∧ n'.pfx = n.pfx := by
  have hb := childMap_eq_none_iff.mp habsent
  have hkey := key_eq_of_head? hchild
  obtain ⟨n', hins, hheader, hag, -, hmem⟩ := hn.insertChild hb (ne_nil_of_head? hchild) hkey
  have hothers : ∀ x, x.key ≠ b.toNat → (x ∈ n'.children ↔ x ∈ n.children) := fun x hx => by
    rw [hmem]
    exact or_iff_right fun hxc => hx (hxc ▸ hkey)
  refine ⟨n', hins, hag, ?_, ?_, congrArg Header.val hheader, congrArg Header.pfx hheader⟩
  · rw [hn.childMap_eq_update hag hothers,
      hag.childMap_eq_some_iff.mpr ⟨(hmem c).mpr (Or.inl rfl), hkey⟩]
  · rw [hn.sorted.filter_ne_eq hag.sorted hothers, List.filter_eq_self]
    exact fun x hx => decide_eq_true (hb x hx)

/-- **Removal changes the map at one byte**, to nothing, and gives what was there. -/
theorem childMap_removeChild (hn : n.Agrees) (hpresent : n.childMap b = some c) :
    (n.removeChild (childPosFromByte b)).1 = some c
      ∧ (n.removeChild (childPosFromByte b)).2.Agrees
      ∧ (n.removeChild (childPosFromByte b)).2.childMap = Function.update n.childMap b none
      ∧ (n.removeChild (childPosFromByte b)).2.children
        = n.children.filter (fun x => decide (x.key ≠ b.toNat))
      ∧ (n.removeChild (childPosFromByte b)).2.val = n.val
      ∧ (n.removeChild (childPosFromByte b)).2.pfx = n.pfx := by
  obtain ⟨hc, hkey⟩ := hn.childMap_eq_some_iff.mp hpresent
  obtain ⟨hres, hag, -, hmem⟩ := hn.removeChild hc hkey
  have hheader := header_removeChild n (childPosFromByte b)
  have hothers : ∀ x, x.key ≠ b.toNat →
      (x ∈ (n.removeChild (childPosFromByte b)).2.children ↔ x ∈ n.children) := fun x hx => by
    rw [hmem]
    exact and_iff_left hx
  refine ⟨hres, hag, ?_, ?_, congrArg Header.val hheader, congrArg Header.pfx hheader⟩
  · rw [hn.childMap_eq_update hag hothers,
      childMap_eq_none_iff.mpr fun x hx => ((hmem x).mp hx).2]
  · rw [← hn.sorted.filter_ne_eq hag.sorted hothers, eq_comm, List.filter_eq_self]
    exact fun x hx => decide_eq_true ((hmem x).mp hx).2

/-- **A transfer moves the map**, and its vector, to a node without children. -/
theorem childMap_transferChildren {other : Node T} (hn : n.Agrees) (hother : other.Agrees)
    (hnone : other.children = []) :
    (n.transferChildren other).2.Agrees
      ∧ (n.transferChildren other).2.childMap = n.childMap
      ∧ (n.transferChildren other).2.children = n.children
      ∧ (n.transferChildren other).2.header = other.header
      ∧ (n.transferChildren other).1.Agrees
      ∧ (∀ b, (n.transferChildren other).1.childMap b = none)
      ∧ (n.transferChildren other).1.lenChildren = 0
      ∧ (n.transferChildren other).1.header = n.header := by
  cases n with
  | leaf h =>
    have hmap : other.childMap = (leaf h).childMap := by
      refine funext fun b => ?_
      rw [childMap, hnone]
      rfl
    exact ⟨hother, hmap, hnone, rfl, hn, fun _ => rfl, rfl, rfl⟩
  | internal h bitmap cs =>
    have hag : (internal h Bitmap.zero ([] : List (Node T))).Agrees := ChildrenAgree.nil
    exact ⟨hn, rfl, rfl, rfl, hag, fun _ => rfl, hag.lenChildren_eq, rfl⟩

/-- **The children of a node are a finite map** from first bytes: the index is a count
of bits, test and reading are those of the map, insertion under an absent byte and
removal under a present one change it there and keep the other children in their
order, and a transfer moves it whole. -/
theorem finiteMap (hn : n.Agrees) :
    (∀ b, n.childIdxFromPos (childPosFromByte b) = Nat.count (fun i => n.bit i = true) b.toNat)
    ∧ (∀ b, n.childExists (childPosFromByte b) = (n.childMap b).isSome
      ∧ ∀ c, n.childMap b = some c → c.pfx.bytes.head? = some b)
    ∧ (∀ b, n.childExists (childPosFromByte b) = true →
      n.getChildByPos (childPosFromByte b) = n.childMap b)
    ∧ (∀ b c, n.childMap b = none → c.pfx.bytes.head? = some b →
      ∃ n', n.insertChild (childPosFromByte b) c = .ok n' ∧ n'.Agrees
        ∧ n'.childMap = Function.update n.childMap b (some c)
        ∧ n'.children.filter (fun x => decide (x.key ≠ b.toNat)) = n.children
        ∧ n'.val = n.val ∧ n'.pfx = n.pfx)
    ∧ (∀ b c, n.childMap b = some c →
      ∃ n', n.removeChild (childPosFromByte b) = (some c, n') ∧ n'.Agrees
        ∧ n'.childMap = Function.update n.childMap b none
        ∧ n'.children = n.children.filter (fun x => decide (x.key ≠ b.toNat))
        ∧ n'.val = n.val ∧ n'.pfx = n.pfx)
    ∧ ∀ other : Node T, other.Agrees → other.children = [] →
      ∃ n' other', n.transferChildren other = (n', other')
        ∧ other'.Agrees ∧ other'.childMap = n.childMap ∧ other'.children = n.children
        ∧ other'.header = other.header
        ∧ n'.Agrees ∧ (∀ b, n'.childMap b = none) ∧ n'.lenChildren = 0
        ∧ n'.header = n.header := by
  refine ⟨n.childIdxFromPos_eq_count, fun b => ⟨hn.childExists_eq_isSome b,
    fun c => hn.head?_of_childMap⟩, fun b => hn.getChildByPos_eq_childMap,
    fun b c => hn.childMap_insertChild, fun b c hpresent => ?_, fun other hother hnone => ?_⟩
  · obtain ⟨hres, hrest⟩ := hn.childMap_removeChild hpresent
    exact ⟨_, Prod.ext hres rfl, hrest⟩
  · exact ⟨_, _, rfl, hn.childMap_transferChildren hother hnone⟩

/-- A node with children in two words of the bitmap, and one more between them. -/
theorem finiteMap_twoWords :
    ∃ n n' : Node ℕ, n.childIdxFromPos (childPosFromByte 200) = 1
      ∧ n.childExists (childPosFromByte 64) = false
      ∧ n.insertChild (childPosFromByte 64) (.leaf ⟨⟨[64], by decide⟩, none⟩) = .ok n'
      ∧ (n'.childMap 63).isSome = true ∧ (n'.childMap 64).isSome = true
      ∧ (n'.childMap 200).isSome = true := by
  have hone : ChildrenAgree (Bitmap.zero.set (childPosFromByte 63))
      [leaf ⟨⟨[63], by decide⟩, some 1⟩] :=
    ChildrenAgree.nil.insert (fun _ h => nomatch h) (List.cons_ne_nil _ _) rfl
  have htwo : ChildrenAgree ((Bitmap.zero.set (childPosFromByte 63)).set (childPosFromByte 200))
      [leaf ⟨⟨[63], by decide⟩, some 1⟩, leaf ⟨⟨[200, 7], by decide⟩, some 2⟩] :=
    hone.insert (by decide) (List.cons_ne_nil _ _) rfl
  have h := finiteMap (n := internal ⟨⟨[], by decide⟩, none⟩ _ _) htwo
  obtain ⟨n', hins, -, hmap, -⟩ := h.2.2.2.1 64 (.leaf ⟨⟨[64], by decide⟩, none⟩) rfl rfl
  refine ⟨_, n', ?_, ?_, hins, ?_⟩
  · rw [h.1]
    decide
  · rw [(h.2.1 64).1]
    rfl
  · rw [hmap]
    exact ⟨rfl, rfl, rfl⟩

end Agrees

end Node

end Trie
