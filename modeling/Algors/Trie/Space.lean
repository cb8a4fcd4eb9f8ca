import Algors.Trie.History
import Algors.Trie.Traversal

/-!
# How large a tree is

What path compression buys. Every node of a compressed tree has a value or two
children, so there are fewer branching nodes than keys; and a prefix is stored
once however many keys run through it, so all prefixes together are no longer
than the keys. As long as no call strands an empty leaf the second holds still,
and there are no more nodes than bytes of keys, and a root.
-/

namespace Trie

variable {T : Type}

namespace Node

mutual

/-- **The number of nodes** at and below a node. -/
def size : Node T → ℕ
  | leaf _ => 1
  | internal _ _ cs => 1 + sizeAll cs

/-- The number of nodes of a list of siblings. -/
def sizeAll : List (Node T) → ℕ
  | [] => 0
  | c :: cs => c.size + sizeAll cs

end

mutual

/-- **The bytes of the prefixes** at and below a node. -/
def prefixBytes : Node T → ℕ
  | leaf h => h.pfx.len
  | internal h _ cs => h.pfx.len + prefixBytesAll cs

/-- The bytes of the prefixes of a list of siblings. -/
def prefixBytesAll : List (Node T) → ℕ
  | [] => 0
  | c :: cs => c.prefixBytes + prefixBytesAll cs

end

theorem size_eq (n : Node T) : n.size = 1 + (n.children.map size).sum := by
  have hall : ∀ cs : List (Node T), sizeAll cs = (cs.map size).sum := fun cs => by
    induction cs with
    | nil => rfl
    | cons c cs ih => rw [sizeAll, ih, List.map_cons, List.sum_cons]
  cases n with
  | leaf h => rw [size]; rfl
  | internal h bitmap cs => rw [size, hall]; rfl

theorem prefixBytes_eq (n : Node T) :
    n.prefixBytes = n.pfx.bytes.length + (n.children.map prefixBytes).sum := by
  have hall : ∀ cs : List (Node T), prefixBytesAll cs = (cs.map prefixBytes).sum := fun cs => by
    induction cs with
    | nil => rfl
    | cons c cs ih => rw [prefixBytesAll, ih, List.map_cons, List.sum_cons]
  cases n with
  | leaf h => rw [prefixBytes]; rfl
  | internal h bitmap cs => rw [prefixBytes, hall]; rfl

/-- The bytes of the keys of some entries. -/
def keyBytes (es : List (Bytes × T)) : ℕ := (es.map fun e => e.1.length).sum

theorem keyBytes_append (es es' : List (Bytes × T)) :
    keyBytes (es ++ es') = keyBytes es + keyBytes es' := by
  simp [keyBytes]

/-- A prefix in front of every key is counted for every key. -/
theorem keyBytes_map (p : Bytes) (es : List (Bytes × T)) :
    keyBytes (es.map fun e => (p ++ e.1, e.2)) = es.length * p.length + keyBytes es := by
  induction es with
  | nil => simp [keyBytes]
  | cons e es ih =>
    simp only [keyBytes, List.map_cons, List.sum_cons, List.length_append, List.length_cons] at ih ⊢
    rw [ih, Nat.add_one_mul]
    omega

theorem length_entriesList (cs : List (Node T)) :
    (entriesList cs).length = (cs.map fun c => c.entries.length).sum := by
  induction cs with
  | nil => rfl
  | cons c cs ih => simp [entriesList, ih]

theorem keyBytes_entriesList (cs : List (Node T)) :
    keyBytes (entriesList cs) = (cs.map fun c => keyBytes c.entries).sum := by
  induction cs with
  | nil => rfl
  | cons c cs ih => rw [entriesList, keyBytes_append, ih, List.map_cons, List.sum_cons]

/-- **The entries of a node**, counted: its own, and those of its children. -/
theorem length_entries (n : Node T) :
    n.entries.length = n.hasVal.toNat + (n.children.map fun c => c.entries.length).sum := by
  have hown : ∀ h : Header T, (ownEntry h).length = h.val.isSome.toNat := fun h => by
    unfold ownEntry
    cases h.val <;> rfl
  cases n with
  | leaf h => rw [entries, hown]; rfl
  | internal h bitmap cs =>
    rw [entries, List.length_append, hown, List.length_map, length_entriesList]
    rfl

/-- **The bytes of the keys of a node**: its prefix once for every key, and the
bytes past it. -/
theorem keyBytes_entries (n : Node T) : keyBytes n.entries
    = n.entries.length * n.pfx.bytes.length + (n.children.map fun c => keyBytes c.entries).sum := by
  have hown : ∀ h : Header T, keyBytes (ownEntry h) = (ownEntry h).length * h.pfx.bytes.length :=
    fun h => by
      unfold ownEntry
      cases h.val <;> simp [keyBytes]
  cases n with
  | leaf h =>
    rw [entries, hown]
    rfl
  | internal h bitmap cs =>
    rw [entries, keyBytes_append, hown, keyBytes_map, keyBytes_entriesList, List.length_append,
      List.length_map, Nat.add_mul, Nat.add_assoc]
    rfl

/-! ## The bounds -/

/-- **Fewer branching nodes than keys.** -/
theorem Full.size_lt {n : Node T} (h : Full 2 n) : n.size < 2 * n.entries.length := by
  induction h with
  | @intro n hself _ ih =>
    have hsum : (n.children.map size).sum + n.children.length
        ≤ 2 * (n.children.map fun c => c.entries.length).sum := by
      generalize n.children = cs at ih
      induction cs with
      | nil => simp
      | cons c cs ihcs =>
        rw [List.forall_mem_cons] at ih
        have hc := ih.1
        have hcs := ihcs ih.2
        simp only [List.map_cons, List.sum_cons, List.length_cons]
        omega
    rw [size_eq, length_entries]
    rcases hself with hval | hlen
    · rw [hval, Bool.toNat_true]
      omega
    · omega

/-- **A prefix is stored once**, however many keys run through it. -/
theorem Full.prefixBytes_le {n : Node T} (h : Full 1 n) : n.prefixBytes ≤ keyBytes n.entries := by
  have hsome : 1 ≤ n.entries.length := by
    obtain ⟨e, he⟩ := h.exists_entry
    exact List.length_pos_of_mem he
  induction h with
  | @intro n _ hkids ih =>
    have hsum : (n.children.map prefixBytes).sum
        ≤ (n.children.map fun c => keyBytes c.entries).sum := by
      refine List.sum_le_sum fun c hc => ih c hc ?_
      obtain ⟨e, he⟩ := (hkids c hc).exists_entry
      exact List.length_pos_of_mem he
    rw [prefixBytes_eq, keyBytes_entries]
    exact Nat.add_le_add (Nat.le_mul_of_pos_left _ hsome) hsum

/-- **Every node but the root has a prefix**, so nodes are no more than bytes of
prefixes, and a root. -/
theorem Wf.size_le {room : ℕ} {n : Node T} (h : Wf room n) :
    n.size + n.pfx.bytes.length ≤ 1 + n.prefixBytes := by
  induction h with
  | @intro room n _ hagrees _ ih =>
    have hsum : (n.children.map size).sum ≤ (n.children.map prefixBytes).sum := by
      refine List.sum_le_sum fun c hc => ?_
      have hpos := List.length_pos_of_ne_nil (hagrees.nonempty hc)
      have hle := ih c hc
      omega
    rw [size_eq, prefixBytes_eq]
    omega

end Node

namespace TrieMap

open Node

/-- The number of nodes of a map. -/
def size (m : TrieMap T) : ℕ := m.root.elim 0 Node.size

/-- The bytes of all prefixes of a map. -/
def prefixBytes (m : TrieMap T) : ℕ := m.root.elim 0 Node.prefixBytes

variable [Target]

/-- **How large a map is**, against the entries it stores: each key once, with
the value `get` finds. -/
structure Small (m : TrieMap T) : Prop where
  stored : ∀ k v, (k, v) ∈ m.entries ↔ m.get k = .ok (some v)
  nodup : (m.entries.map Prod.fst).Nodup
  prefixBytes_le : m.prefixBytes ≤ keyBytes m.entries
  size_le : m.size ≤ 1 + keyBytes m.entries
  /-- The bound of a path-compressed tree. -/
  size_lt : m.AllFull 2 → m.size ≤ 2 * m.entries.length - 1

/-- A map without empty leaves is small. -/
theorem small_of_refines {room : ℕ} {m : TrieMap T} {s : RefMap T} (hs : Refines room m s)
    (hfull : m.AllFull 1) : Small m where
  stored k v := by rw [hs.mem_entries, get_refines hs, Except.ok.injEq]
  nodup := by
    obtain ⟨root⟩ := m
    cases root with
    | none => exact List.nodup_nil
    | some root =>
      refine List.pairwise_map.mpr ?_
      refine (hs.valid.wf root rfl).entries_sorted.imp fun {e e'} hlt heq => ?_
      exact List.lt_irrefl _ (heq ▸ hlt)
  prefixBytes_le := by
    obtain ⟨root⟩ := m
    cases root with
    | none => exact Nat.zero_le _
    | some root => exact (hfull root rfl).prefixBytes_le
  size_le := by
    obtain ⟨root⟩ := m
    cases root with
    | none => exact Nat.zero_le _
    | some root =>
      have hsize : root.size + root.pfx.bytes.length ≤ 1 + root.prefixBytes :=
        (hs.valid.wf root rfl).size_le
      have hbytes := (hfull root rfl).prefixBytes_le
      show root.size ≤ 1 + keyBytes root.entries
      omega
  size_lt htwo := by
    obtain ⟨root⟩ := m
    cases root with
    | none => exact Nat.zero_le _
    | some root =>
      have hlt := (htwo root rfl).size_lt
      show root.size ≤ 2 * root.entries.length - 1
      omega

/-- **A call that strands no empty leaf** makes none, writes included. -/
theorem apply_allFull_one {room : ℕ} {m : TrieMap T} {s : RefMap T} (hs : Refines room m s)
    (hfull : m.AllFull 1) {op : Op T} (hkey : op.key.length ≤ room) (hop : ¬ Strands m op) :
    Returns room (m.apply op) fun p => p.2.AllFull 1 := by
  by_cases hwrite : op.isWrite = false
  · exact apply_full_one hs.valid hfull hkey ⟨hwrite, hop⟩
  cases op with
  | write key val =>
    obtain ⟨r, hr, -, -⟩ := getMut_refines hs key
    rw [apply, hr, Rust.ok_bind]
    cases r with
    | none => exact hfull
    | some p => exact getMut_full hs.valid hfull hr val
  | insert | remove | removePrefix | clear => exact absurd rfl hwrite

/-- **A trie is no larger than its keys**: as long as no call strands an empty
leaf there are no more bytes of prefixes than bytes of keys, and no more nodes
than these, but for the root. -/
theorem small_of_reachable {m : TrieMap T}
    (h : system.ReachableWhile (fun m op => ¬ Strands m op) m) : Small m := by
  obtain ⟨room, s, hs⟩ := exists_refines_of_reachable h
  refine small_of_refines hs (h.invariant allFull_none fun m op m' hm hfull hop hnext => ?_)
  obtain ⟨room, s, hs⟩ := exists_refines_of_reachable hm
  obtain ⟨r, hr⟩ := system_next_eq_some.mp hnext
  exact (apply_allFull_one (hs.mono (Nat.le_max_left _ _)) hfull (Nat.le_max_right _ _)
    hop).of_eq_ok hr

omit [Target] in
/-- Two keys below a shared prefix, which is stored once. -/
theorem small_of_reachable_pair :
    letI : Target := Target.x86_64
    ∃ m : TrieMap ℕ, system.run new [.insert [97, 98] 1, .insert [97, 99] 2] = some m
      ∧ Small m ∧ m.prefixBytes = 3 ∧ m.size = 3 := by
  have hrun : ((@System.run _ _ (@system ℕ Target.x86_64) new
      [.insert [97, 98] 1, .insert [97, 99] 2]).map fun m => (m.prefixBytes, m.size))
      = some (3, 3) := by decide
  obtain ⟨m, hm, heq⟩ := Option.map_eq_some_iff.mp hrun
  obtain ⟨hbytes, hsize⟩ := Prod.mk.inj heq
  exact ⟨m, hm, @small_of_reachable ℕ Target.x86_64 m
    (@System.ReachableWhile.of_run _ _ _ _ _ _ [.insert [97, 98] 1, .insert [97, 99] 2] .init
      ⟨id, fun _ _ => ⟨id, fun _ _ => trivial⟩⟩ hm), hbytes, hsize⟩

/-- **A tree with no node to merge** has fewer branching nodes than keys. -/
theorem size_le_of_merged {m : TrieMap T}
    (h : system.ReachableWhile (fun m op => ¬ Unmerged m op) m) :
    m.size ≤ 2 * m.entries.length - 1 := by
  obtain ⟨room, s, hs⟩ := exists_refines_of_reachable h
  have hfull := allFull_two_of_merged h
  exact (small_of_refines hs fun root hroot => (hfull root hroot).mono (by omega)).size_lt hfull

end TrieMap

end Trie
