import Algors.Trie.Conservation
import Algors.Trie.PlacedRuns
import Algors.Trie.Space

/-!
# What is in memory

All that there is in memory belongs to the map, and what belongs to a map adds up over its
nodes: the values are those of the entries, there is a block for each node, and there are no
more bytes than the prefixes have. So after any run the memory is no larger than the keys, and
every value that was given is in the map, or was handed back or dropped, once; and when the map
is cleared nothing is left.
-/

namespace Trie

namespace Placed

variable [Target] [PointerWidth] {T : Type} [NodeTypes T]

/-! ## What adds up over a map -/

/-- **Something that adds up over the nodes**, and over what is owned. -/
theorem NodeHolds.measure {M : Type} [AddCommMonoid M] {R : M → M → Prop} (hzero : R 0 0)
    (hadd : ∀ a b c d, R a b → R c d → R (a + c) (b + d)) (φ : Held T →+ M)
    {total self : Trie.Node T → M} (htotal : ∀ n, total n = self n + (n.children.map total).sum)
    (hself : ∀ (n : Trie.Node T) a layout b p v ws rp rv, PrefixHolds p n.pfx.bytes rp →
      VecHolds v ws rv → R (φ (nodeAt a layout (some b) + (rp + valueOf n.val + rv))) (self n))
    {n : Trie.Node T} {w : Node} {own : Held T} {depth : ℕ} (h : NodeHolds n w own)
    (hdepth : n.Shallow depth) : R (φ own) (total n) := by
  induction depth generalizing n w own with
  | zero => cases hdepth
  | succ depth ih =>
    obtain ⟨hdepth⟩ := hdepth
    rw [htotal]
    cases h with
    | @leaf hdr w a layout header r hw hlayout hheader =>
      obtain @⟨p, slot, pre, r, hp⟩ := hheader
      have hnode := hself (.leaf ⟨pre, slot.toOption⟩) a layout (.leaf ⟨⟨p, slot⟩⟩) p _ _ r 0 hp
        .null
      rw [add_zero] at hnode
      rw [← add_zero (φ _)]
      exact hadd _ _ _ _ hnode hzero
    | @internal hdr bitmap cs w a layout header v ws r rv rc hw hlayout hheader hv hcs =>
      obtain @⟨p, slot, pre, r, hp⟩ := hheader
      have hnode := hself (.internal ⟨pre, slot.toOption⟩ bitmap cs) a layout
        (.internal ⟨⟨p, slot⟩, bitmap, v⟩) p v ws r rv hp hv
      have hchildren := hcs.measure hzero hadd φ (g := total) fun c hc w own hown =>
        ih hown (hdepth c hc)
      rw [← add_assoc _ rv, ← add_assoc (nodeAt ..), map_add]
      exact hadd _ _ _ _ hnode hchildren

/-! ### The values -/

omit [Target] [PointerWidth] [NodeTypes T] in
/-- The values of the entries of a node: its own, and those of its children. -/
theorem values_entries (n : Trie.Node T) : values n.entries
    = (↑n.val.toList : Multiset T) + (n.children.map fun c => values c.entries).sum := by
  have hown : ∀ h : Trie.Header T,
      values (Trie.Node.ownEntry h) = (↑h.val.toList : Multiset T) := by
    rintro ⟨pfx, val⟩
    cases val <;> rfl
  have hall : ∀ cs : List (Trie.Node T), values (Trie.Node.entriesList cs)
      = (cs.map fun c => values c.entries).sum := fun cs => by
    induction cs with
    | nil => rfl
    | cons c cs ih =>
      rw [Trie.Node.entriesList, values_append, ih, List.map_cons, List.sum_cons]
  cases n with
  | leaf h => exact (hown h).trans (add_zero _).symm
  | internal h bitmap cs =>
    have hmoved : values ((Trie.Node.entriesList cs).map fun e => (h.pfx.bytes ++ e.1, e.2))
        = values (Trie.Node.entriesList cs) := by
      rw [values, List.map_map]
      rfl
    rw [Trie.Node.entries, values_append, hown, hmoved, hall]
    rfl

/-- **The values in the memory of a map** are those of its entries. -/
theorem MapHolds.values_eq {m : Trie.TrieMap T} {own : Held T} {room : ℕ} (h : MapHolds m own)
    (hvalid : m.Valid room) : own.2 = values m.entries := by
  cases h with
  | none => rfl
  | @some n w r hroot =>
    have hown := hroot.measure (R := Eq) rfl (fun _ _ _ _ hab hcd => by rw [hab, hcd])
      (AddMonoidHom.snd _ _) values_entries (fun n a layout b p v ws rp rv hp hv => ?_)
      (hvalid.wf n rfl).shallow
    · exact (zero_add _).trans hown
    · have hrp : rp.2 = 0 := by
        cases hp with
        | inline => rfl
        | chunk => rfl
      have hrv : rv.2 = 0 := by
        cases hv with
        | null => rfl
        | buffer => rfl
      show (0 : Multiset T) + (rp.2 + (valueOf n.val).2 + rv.2) = _
      rw [hrp, hrv, add_zero, zero_add, zero_add]
      cases n.val with
      | none => rfl
      | some v => rfl

/-! ### The blocks -/

namespace Key

/-- The key of a node. -/
def isNode : Key → Bool
  | node _ => true
  | _ => false

/-- The key of a buffer. -/
def isBuffer : Key → Bool
  | buffer _ => true
  | _ => false

/-- The key of a byte. -/
def isCell : Key → Bool
  | cell _ => true
  | _ => false

end Key

omit [PointerWidth] [NodeTypes T] in
/-- How many keys of a kind are owned. -/
def countKeys (q : Key → Bool) : Held T →+ ℕ :=
  (Multiset.countPAddMonoidHom fun x => q x.1 = true).comp (AddMonoidHom.fst _ _)

section Counts

variable {q : Key → Bool}

omit [PointerWidth] [NodeTypes T]

theorem countKeys_single (k : Key) (c : Content T) :
    countKeys q (Holdings.single k c : Held T) = (q k).toNat := by
  show Multiset.countP (fun x : Key × Content T => q x.1 = true) ((k, c) ::ₘ 0) = _
  rw [Multiset.countP_cons, Multiset.countP_zero]
  cases q k <;> rfl

/-- Keys of one kind in a row. -/
theorem countKeys_row {b : Bool} (hq : ∀ a, q (.cell a) = b) (o : ℕ) (cs : List (Content T)) :
    countKeys q (Holdings.row .cell o cs : Held T) = cs.length * b.toNat := by
  induction cs generalizing o with
  | nil => exact (Nat.zero_mul _).symm
  | cons c cs ih =>
    have hsplit : (Holdings.row .cell o (c :: cs) : Held T)
        = Holdings.single (.cell o) c + Holdings.row .cell (o + 1) cs :=
      Prod.ext rfl (add_zero _).symm
    rw [hsplit, map_add, countKeys_single, ih, hq, List.length_cons, Nat.add_one_mul, Nat.add_comm]

theorem countKeys_valueOf (v : Option T) : countKeys q (valueOf v : Held T) = 0 := by
  cases v <;> rfl

end Counts

omit [NodeTypes T] in
/-- The parts of a node, counted. -/
theorem countKeys_node {q : Key → Bool} {n : Trie.Node T} (a : Usize) (layout : Layout)
    (b : NodeBlock T) {p : Packed} {v : RawVec} {ws : List Node} {rp rv : Held T} {i j : ℕ}
    {cell : Bool}
    (hp : PrefixHolds p n.pfx.bytes rp) (hv : VecHolds v ws rv)
    (hnode : ∀ a, (q (.node a)).toNat ≤ i) (hbuffer : ∀ a, (q (.buffer a)).toNat ≤ j)
    (hchunk : ∀ a, q (.chunk a) = false) (hcell : ∀ a, q (.cell a) = cell) :
    countKeys q (nodeAt a layout (some b) + (rp + valueOf n.val + rv))
      ≤ i + n.pfx.bytes.length * cell.toNat + j := by
  have hprefix : countKeys q rp ≤ n.pfx.bytes.length * cell.toNat := by
    cases hp with
    | inline => exact Nat.zero_le _
    | chunk =>
      rw [chunkAt, map_add, countKeys_single, hchunk, countKeys_row hcell, List.length_map]
      exact (Nat.zero_add _).le
  have hvec : countKeys q rv ≤ j := by
    cases hv with
    | null => exact Nat.zero_le _
    | buffer =>
      rw [bufferAt, countKeys_single]
      exact hbuffer _
  rw [map_add, map_add, map_add, countKeys_valueOf, nodeAt, countKeys_single]
  have hself := hnode a
  omega

/-- **What there is in the memory of a map**: a block for each node, a buffer for each at most,
and no more bytes than the prefixes have. -/
theorem countKeys_le {m : Trie.TrieMap T} {own : Held T} {room : ℕ} (h : MapHolds m own)
    (hvalid : m.Valid room) : countKeys Key.isNode own ≤ m.size
      ∧ countKeys Key.isBuffer own ≤ m.size ∧ countKeys Key.isCell own ≤ m.prefixBytes := by
  cases h with
  | none => exact ⟨le_rfl, le_rfl, le_rfl⟩
  | @some n w r hroot =>
    have hcount : ∀ {q : Key → Bool} {total self : Trie.Node T → ℕ}, q .root = false →
        (∀ n, total n = self n + (n.children.map total).sum) →
        (∀ (n : Trie.Node T) a layout b p v ws rp rv, PrefixHolds p n.pfx.bytes rp →
          VecHolds v ws rv →
          countKeys q (nodeAt a layout (some b) + (rp + valueOf n.val + rv)) ≤ self n) →
        countKeys q (rootAt (some w) + r) ≤ total n := fun hq htotal hself => by
      rw [map_add, rootAt, countKeys_single, hq, Bool.toNat_false, Nat.zero_add]
      exact hroot.measure (R := (· ≤ ·)) le_rfl (fun _ _ _ _ => Nat.add_le_add) _ htotal hself
        (hvalid.wf n rfl).shallow
    refine ⟨hcount rfl Trie.Node.size_eq fun n a layout b p v ws rp rv hp hv => ?_,
      hcount rfl Trie.Node.size_eq fun n a layout b p v ws rp rv hp hv => ?_,
      hcount rfl Trie.Node.prefixBytes_eq fun n a layout b p v ws rp rv hp hv => ?_⟩
    · exact countKeys_node (q := Key.isNode) (i := 1) (j := 0) a layout b hp hv (fun _ => le_rfl)
        (fun _ => le_rfl) (fun _ => rfl) fun _ => rfl
    · exact countKeys_node (q := Key.isBuffer) (i := 0) (j := 1) a layout b hp hv
        (fun _ => le_rfl) (fun _ => le_rfl) (fun _ => rfl) fun _ => rfl
    · have hcells := countKeys_node (q := Key.isCell) (i := 0) (j := 0) a layout b hp hv
        (fun _ => le_rfl) (fun _ => le_rfl) (fun _ => rfl) fun _ => rfl
      rwa [Bool.toNat_true, Nat.mul_one, Nat.zero_add] at hcells

/-! ## What is left after a run -/

/-- **Nothing is left in memory.** -/
structure Heap.Clean (h : Heap T) : Prop where
  root : h.root = none
  nodes : ∀ a, h.nodes a = none
  buffers : ∀ a, h.buffers a = none
  chunks : ∀ a, h.chunks a = none
  bytes : ∀ a, h.bytes a = .free

omit [PointerWidth] [NodeTypes T] in
/-- Where an empty map owns all that there is, that is nothing. -/
theorem clean_of_has {h : Heap T} {total : Multiset T} {vs : List (Option T)}
    (hh : Has total h (rootAt none + valuesOf vs)) : h.Clean := by
  have hview : ∀ k c, Store.view h k = some c → (k, c) = (.root, .root none) := fun k c hc => by
    have hmem := (hh.owns.mem_iff k c).mpr hc
    change (k, c) ∈ ({(.root, .root none)} : Multiset (Key × Content T)) + 0 at hmem
    rwa [add_zero, Multiset.mem_singleton] at hmem
  have hnone : ∀ k, k ≠ .root → Store.view h k = none := fun k hk =>
    Option.eq_none_iff_forall_ne_some.mpr fun c hc => hk (Prod.mk.inj (hview k c hc)).1
  refine ⟨Content.root.inj (Prod.mk.inj (hview .root _ rfl)).2, fun a => ?_, fun a => ?_,
    fun a => ?_, fun a => ?_⟩
  · exact Option.map_eq_none_iff.mp (hnone (.node a) (by simp))
  · exact Option.map_eq_none_iff.mp (hnone (.buffer a) (by simp))
  · exact Option.map_eq_none_iff.mp (hnone (.chunk a) (by simp))
  · by_contra ha
    have hcell := hnone (.cell a) (by simp)
    exact Option.some_ne_none _ ((if_neg ha).symm.trans hcell)

namespace TrieMap

variable {A : Allocator T} {depth room : ℕ} {ops : List (Trie.TrieMap.Op T)}
  {vs : List (Option T)} {h : Heap T}

omit [Target] [PointerWidth] [NodeTypes T] in
/-- No key is bound twice. -/
theorem nodup_keys {m : Trie.TrieMap T} (h : m.Valid room) : (m.entries.map Prod.fst).Nodup := by
  obtain ⟨root⟩ := m
  cases root with
  | none => exact List.nodup_nil
  | some root =>
    refine List.pairwise_map.mpr ((h.wf root rfl).entries_sorted.imp fun {e e'} hlt heq => ?_)
    exact List.lt_irrefl _ (heq ▸ hlt)

/-- **Values are conserved, and nothing leaks**: after a run every value that was given was
handed back, is bound in the finite map, or was dropped, once; and when the map is cleared, or
goes out of scope, nothing is left in memory, and no value is. -/
theorem clear_of_run (hA : A.Sound) (hroom : Prefix.Fits room)
    (hops : ∀ op ∈ ops, op.key.length ≤ room) (hdepth : room + 2 ≤ depth)
    (hrun : run A depth ops (Heap.empty T) = .ok (vs, h)) :
    (∃ es : List (Bytes × T), (es.map Prod.fst).Nodup
      ∧ (∀ k v, (k, v) ∈ es ↔ (RefMap.empty.run ops).2.get k = some v)
      ∧ ((ops.map handed).reduceOption : Multiset T)
        = ↑vs.reduceOption + ↑(es.map Prod.snd) + ↑h.dropped)
    ∧ ∃ h', clear depth h = .ok ((), h') ∧ h'.Clean
      ∧ ((ops.map handed).reduceOption : Multiset T) = ↑vs.reduceOption + ↑h'.dropped := by
  obtain ⟨rfl, -, hs, hm, hh⟩ := after_of_run hA hroom hops hdepth hrun
  refine ⟨⟨_, nodup_keys hs.valid, hs.mem_entries, ?_⟩, ?_⟩
  · rw [← hh.values, Prod.snd_add, hm.values_eq hs.valid]
    exact congrArg (· + _) (add_comm _ _)
  · have hclear := realizes_clear (fun _ => False) hm hs.valid hdepth _ rfl h _ _ hh
    rcases hclear with ⟨e, he, -⟩ | ⟨_, h', kept, hok, hkept, hh'⟩
    · exact he.elim
    · cases hkept with
      | none =>
        refine ⟨h', hok, clean_of_has hh', ?_⟩
        rw [← hh'.values]
        exact congrArg (· + _) (zero_add _)

omit [Target] [PointerWidth] [NodeTypes T] in
/-- One value is handed back, and the map has the other until it is cleared. -/
theorem clear_of_run_long :
    letI : Target := Target.x86_64
    letI := pointerWidth_x86_64
    letI := nodeTypes_x86_64
    ∃ h h' : Heap ℕ, run pages 19 (longCalls ++ [.remove (List.replicate 16 97 ++ [98])])
        (Heap.empty ℕ) = .ok ([none, none, some 1], h)
      ∧ clear 19 h = .ok ((), h') ∧ h'.Clean ∧ ({1, 2} : Multiset ℕ) = {1} + ↑h'.dropped := by
  let _ : Target := Target.x86_64
  let _ := pointerWidth_x86_64
  let _ := nodeTypes_x86_64
  have hok : ((run pages 19 (longCalls ++ [.remove (List.replicate 16 97 ++ [98])])
      (Heap.empty ℕ)).toOption.map Prod.fst) = some [none, none, some 1] := by decide +kernel
  obtain ⟨h, hrun⟩ := exists_of_returned hok
  obtain ⟨-, h', hclear, hclean, hvalues⟩ := @clear_of_run _ _ ℕ _ pages 19 17 _ _ h
    (Allocator.sound_checked _) (by decide) (by decide) (by decide) hrun
  exact ⟨h, h', hrun, hclear, hclean, hvalues⟩

/-! ## How much memory there is -/

omit [PointerWidth] [NodeTypes T] in
/-- A run is one of the transition system. -/
theorem system_run_of_run {m m' : Trie.TrieMap T} (hrun : m.run ops = .ok (vs, m')) :
    Trie.TrieMap.system.run m ops = some m' := by
  induction ops generalizing m vs with
  | nil => exact congrArg some (Prod.mk.inj (Except.ok.inj hrun)).2
  | cons op ops ih =>
    obtain ⟨⟨v, m₁⟩, happly, hrun⟩ := Rust.bind_eq_ok.mp hrun
    obtain ⟨⟨rest, m₂⟩, hrest, hrun⟩ := Rust.bind_eq_ok.mp hrun
    obtain ⟨-, rfl⟩ := Prod.mk.inj (Except.ok.inj hrun)
    exact Option.bind_eq_some_iff.mpr
      ⟨m₁, Trie.TrieMap.system_next_eq_some.mpr ⟨v, happly⟩, ih hrest⟩

/-- **What there is in memory** after a run: no more blocks of nodes than nodes, no more buffers,
and no more bytes than the prefixes have. -/
theorem After.encard_le (hafter : After room ops h) :
    ∃ m, Trie.TrieMap.new.run ops = .ok ((RefMap.empty.run ops).1, m)
      ∧ Refines room m (RefMap.empty.run ops).2
      ∧ {a | h.nodes a ≠ none}.encard ≤ m.size ∧ {a | h.buffers a ≠ none}.encard ≤ m.size
      ∧ {a | h.bytes a ≠ .free}.encard ≤ m.prefixBytes := by
  obtain @⟨m, own, hrun, hs, hm, hh⟩ := hafter
  obtain ⟨hnodes, hbuffers, hcells⟩ := countKeys_le hm hs.valid
  have hcount : ∀ {α : Type} {g : α → Key} (q : Key → Bool), Function.Injective g →
      (∀ k, q k = true ↔ ∃ a, g a = k) →
      {a | Store.view h (g a) ≠ none}.encard = (countKeys q own : ℕ) := fun q hg hq => by
    rw [hh.owns.encard_eq hg (fun k => q k = true) hq]
    exact congrArg (fun x : Multiset _ => ((x.countP _ : ℕ) : ℕ∞)) (add_zero own.1)
  refine ⟨m, hrun, hs, ?_, ?_, ?_⟩
  · have hview : {a | h.nodes a ≠ none} = {a | Store.view h (.node a) ≠ none} :=
      Set.ext fun a => Option.map_eq_none_iff.not.symm
    rw [hview, hcount Key.isNode (fun _ _ => Key.node.inj) fun k => by
      cases k <;> simp [Key.isNode]]
    exact_mod_cast hnodes
  · have hview : {a | h.buffers a ≠ none} = {a | Store.view h (.buffer a) ≠ none} :=
      Set.ext fun a => Option.map_eq_none_iff.not.symm
    rw [hview, hcount Key.isBuffer (fun _ _ => Key.buffer.inj) fun k => by
      cases k <;> simp [Key.isBuffer]]
    exact_mod_cast hbuffers
  · have hview : {a | h.bytes a ≠ .free} = {a | Store.view h (.cell a) ≠ none} :=
      Set.ext fun a => by
        show h.bytes a ≠ .free ↔ (if h.bytes a = .free then none else some _) ≠ none
        split_ifs with ha <;> simp [ha]
    rw [hview, hcount Key.isCell (fun _ _ => Key.cell.inj) fun k => by
      cases k <;> simp [Key.isCell]]
    exact_mod_cast hcells

/-- **Memory is no larger than the keys**: after a run none of whose calls strands an empty leaf
there are no more bytes of prefixes than bytes of keys, and no more nodes than these and one,
whatever prefixes were split, merged and copied on the way; where no call leaves a node to merge
either, there are fewer branching nodes than keys. -/
theorem footprint_of_run (hA : A.Sound) (hroom : Prefix.Fits room)
    (hops : ∀ op ∈ ops, op.key.length ≤ room) (hdepth : room + 2 ≤ depth)
    (hrun : run A depth ops (Heap.empty T) = .ok (vs, h))
    (hmeets : Trie.TrieMap.system.RunMeets (fun m op => ¬ Trie.TrieMap.Strands m op) .new ops) :
    ∃ es : List (Bytes × T), (es.map Prod.fst).Nodup
      ∧ (∀ k v, (k, v) ∈ es ↔ (RefMap.empty.run ops).2.get k = some v)
      ∧ {a | h.nodes a ≠ none}.encard ≤ (1 + Trie.Node.keyBytes es : ℕ)
      ∧ {a | h.buffers a ≠ none}.encard ≤ (1 + Trie.Node.keyBytes es : ℕ)
      ∧ {a | h.bytes a ≠ .free}.encard ≤ (Trie.Node.keyBytes es : ℕ)
      ∧ (Trie.TrieMap.system.RunMeets (fun m op => ¬ Trie.TrieMap.Unmerged m op) .new ops →
        {a | h.nodes a ≠ none}.encard ≤ (2 * es.length - 1 : ℕ)) := by
  obtain ⟨-, hafter⟩ := after_of_run hA hroom hops hdepth hrun
  obtain ⟨m, hm, hs, hnodes, hbuffers, hcells⟩ := hafter.encard_le
  have hreached := system_run_of_run hm
  have hsmall := Trie.TrieMap.small_of_reachable (.of_run .init hmeets hreached)
  refine ⟨m.entries, hsmall.nodup, hs.mem_entries, hnodes.trans ?_, hbuffers.trans ?_,
    hcells.trans ?_, fun hmerged => hnodes.trans ?_⟩
  · exact_mod_cast hsmall.size_le
  · exact_mod_cast hsmall.size_le
  · exact_mod_cast hsmall.prefixBytes_le
  · exact_mod_cast Trie.TrieMap.size_le_of_merged (.of_run .init hmerged hreached)

omit [Target] [PointerWidth] [NodeTypes T] in
/-- Two keys below a prefix that is split off: what the bounds say of the memory. -/
theorem footprint_of_run_long :
    letI : Target := Target.x86_64
    letI := pointerWidth_x86_64
    letI := nodeTypes_x86_64
    ∃ (h : Heap ℕ) (es : List (Bytes × ℕ)),
      run pages 19 longCalls (Heap.empty ℕ) = .ok ([none, none], h)
      ∧ (List.replicate 16 97 ++ [98], 1) ∈ es ∧ (List.replicate 16 97 ++ [99], 2) ∈ es
      ∧ {a | h.nodes a ≠ none}.encard ≤ (1 + Trie.Node.keyBytes es : ℕ)
      ∧ {a | h.buffers a ≠ none}.encard ≤ (1 + Trie.Node.keyBytes es : ℕ)
      ∧ {a | h.bytes a ≠ .free}.encard ≤ (Trie.Node.keyBytes es : ℕ)
      ∧ {a | h.nodes a ≠ none}.encard ≤ (2 * es.length - 1 : ℕ) := by
  let _ : Target := Target.x86_64
  let _ := pointerWidth_x86_64
  let _ := nodeTypes_x86_64
  have hok : ((run pages 19 longCalls (Heap.empty ℕ)).toOption.map Prod.fst)
      = some [none, none] := by decide +kernel
  obtain ⟨h, hrun⟩ := exists_of_returned hok
  obtain ⟨es, -, hmem, hnodes, hbuffers, hbytes, hmerged⟩ :=
    @footprint_of_run _ _ ℕ _ pages 19 17 longCalls _ h (Allocator.sound_checked _) (by decide)
      (by decide) (by decide) hrun ⟨id, fun _ _ => ⟨id, fun _ _ => trivial⟩⟩
  exact ⟨h, es, hrun, (hmem _ _).mpr (by decide), (hmem _ _).mpr (by decide), hnodes, hbuffers,
    hbytes, hmerged ⟨id, fun _ _ => ⟨id, fun _ _ => trivial⟩⟩⟩

end TrieMap

end Placed

end Trie
