import Algors.Trie.Refinement

/-!
# Compression

How far `compress` cleans up after a removal. `Full m` asks every node for a
value or `m` children: with one it says that no leaf is empty, which is what
makes `is_empty` right, and with two that the tree is path-compressed.

Insertion keeps both. `compress` walks up as long as it merges nodes, and
stops at the first parent it leaves as it is, without a look at whether this
parent has just lost its last child; nor does it look at the node a value was
taken from, only at the nodes above it. So both properties survive a removal
only under a condition, and both fail without it: an empty leaf stays behind
below a valueless node that had one child, and a node that loses its value
while it has one child stays unmerged.
-/

namespace Trie

variable {T : Type}

open Node

/-- A full node stores something. -/
theorem Node.Full.exists_entry {n : Node T} (h : Full 1 n) : ∃ e, e ∈ n.entries := by
  induction h with
  | @intro n hself _ ih =>
    rcases hself with hval | hlen
    · obtain ⟨v, hv⟩ := Option.isSome_iff_exists.mp hval
      exact ⟨(n.pfx.bytes, v), mem_entries.mpr (Or.inl ⟨hv, rfl⟩)⟩
    · obtain ⟨c, hc⟩ := List.exists_mem_of_length_pos hlen
      obtain ⟨⟨k, v⟩, he⟩ := ih c hc
      exact ⟨(n.pfx.bytes ++ k, v), mem_entries.mpr (Or.inr ⟨c, hc, k, rfl, he⟩)⟩

/-- Whether every node of a tree of a few levels has a value or `m` children. -/
def Node.isFull (m : ℕ) : ℕ → Node T → Bool
  | 0, _ => false
  | levels + 1, n => (n.hasVal || m ≤ n.children.length) && n.children.all (isFull m levels)

theorem Node.Full.of_isFull {m levels : ℕ} {n : Node T} (h : n.isFull m levels = true) :
    Full m n := by
  induction levels generalizing n with
  | zero => cases h
  | succ levels ih =>
    simp only [isFull, Bool.and_eq_true, Bool.or_eq_true, decide_eq_true_eq, List.all_eq_true] at h
    exact .intro h.1 fun c hc => ih (h.2 c hc)

namespace TrieMap

variable [Target]

/-! ## `is_empty` -/

/-- **The calls that leave an empty leaf behind**: a `remove` of a leaf that
is the only child of a valueless node below the root, and a `remove_prefix`
that takes the only child away from a valueless node which is such an only
child in its turn. -/
def Strands (m : TrieMap T) : Op T → Prop
  | .remove key => ∃ root x visited k, m.root = some root ∧ Path root x visited k ∧ Stuck visited
      ∧ x.children = [] ∧ x.val ≠ none ∧ key = k ++ x.pfx.bytes
  | .removePrefix key => ∃ root x visited k c r, m.root = some root ∧ Path root x visited k
      ∧ Stuck visited ∧ x.val = none ∧ x.children = [c] ∧ r ≠ [] ∧ r <+: c.pfx.bytes
      ∧ key = k ++ x.pfx.bytes ++ r
  | _ => False

/-- The calls other than a write through `get_mut`. -/
def Op.isWrite : Op T → Bool
  | .write _ _ => true
  | _ => false

/-- A call that is not a write and strands no empty leaf. -/
def Tidy (m : TrieMap T) (op : Op T) : Prop := op.isWrite = false ∧ ¬ Strands m op

/-- **A tidy call leaves no empty leaf.** -/
theorem apply_full_one {room : ℕ} {m : TrieMap T} (hm : m.Valid room) (hfull : m.AllFull 1)
    {op : Op T} (hkey : op.key.length ≤ room) (hop : Tidy m op) :
    Returns room (m.apply op) fun p => p.2.AllFull 1 := by
  obtain ⟨hwrite, hstrands⟩ := hop
  cases op with
  | insert key val =>
    by_cases hne : key = []
    · simp only [apply, insert, hne, if_true, Rust.ok_bind]
      exact hfull
    exact (insert_spec hm hne hkey val).bind fun m' hm' => hm'.2.2 1 (by omega) hfull
  | remove key =>
    refine (remove_spec hm key).imp fun p hp => hp.2.2.2 1 (by omega) (by omega) hfull ?_
    intro root c visited k hroot hpath hk hv
    have hkids : ∀ x ∈ c.takeVal.2.children, Full 1 x := by
      simpa using fun x => (hpath.full (hfull root hroot)).child
    refine ⟨hkids, fun _ => ?_, fun hd hstuck => ?_⟩
    · rcases Nat.eq_zero_or_pos c.takeVal.2.children.length with hlen | hlen
      · exact Or.inr ⟨val_takeVal c, List.length_eq_zero_iff.mp hlen⟩
      · exact Or.inl (Full.intro (Or.inr hlen) hkids)
    · exact hstrands ⟨root, c, visited, k, hroot, hpath, hstuck, by simpa using hd.2, hv, hk⟩
  | removePrefix key =>
    refine (removePrefix_spec hm key).bind fun m' hm' =>
      hm'.2.2 1 (by omega) (by omega) hfull ?_
    intro root n c visited k b r hroot hpath hc hckey hr hrc hk
    obtain ⟨room', hwf⟩ : ∃ room', Wf room' n := ⟨_, hpath.wf (hm.wf root hroot)⟩
    obtain ⟨_, _, hlen, hmem⟩ := hwf.agrees.removeChild hc hckey
    have hval : (n.removeChild (childPosFromByte b)).2.val = n.val := by
      rw [Node.val, header_removeChild, Node.val]
    have hkids : ∀ x ∈ (n.removeChild (childPosFromByte b)).2.children, Full 1 x := fun x hx =>
      (hpath.full (hfull root hroot)).child ((hmem x).mp hx).1
    refine ⟨hkids, fun _ => ?_, fun hd hstuck => ?_⟩
    · by_cases hd : Dead (n.removeChild (childPosFromByte b)).2
      · exact Or.inr hd
      · refine Or.inl (Full.intro ?_ hkids)
        by_contra hno
        rw [not_or] at hno
        exact hd ⟨by simpa [hasVal] using hno.1, List.length_eq_zero_iff.mp (by omega)⟩
    · rw [hd.2, List.length_nil, Nat.zero_add, eq_comm, List.length_eq_one_iff] at hlen
      obtain ⟨x, hx⟩ := hlen
      obtain rfl : c = x := by simpa [hx] using hc
      exact hstrands ⟨root, n, visited, k, c, r, hroot, hpath, hstuck, hval ▸ hd.1, hx, hr, hrc, hk⟩
  | clear => exact allFull_none
  | write key val => cases hwrite

/-- In a run of tidy calls there is never an empty leaf. -/
theorem allFull_one_of_reachable {m : TrieMap T} (h : system.ReachableWhile Tidy m) :
    m.AllFull 1 := by
  refine h.invariant allFull_none fun m op m' hm hfull hop hnext => ?_
  obtain ⟨room, s, hs⟩ := exists_refines_of_reachable hm
  obtain ⟨r, hr⟩ := system_next_eq_some.mp hnext
  exact (apply_full_one (hs.valid.mono (Nat.le_max_left _ _)) hfull (Nat.le_max_right _ _)
    hop).of_eq_ok hr

/-- **`is_empty` is right in every run of tidy calls**: the root is gone
exactly when no key is stored. -/
theorem isEmpty_iff_of_reachable {m : TrieMap T} (h : system.ReachableWhile Tidy m) :
    m.isEmpty = true ↔ ∀ q, m.get q = .ok none := by
  obtain ⟨room, s, hs⟩ := exists_refines_of_reachable h
  have hfull := allFull_one_of_reachable h
  simp only [get_refines hs, Except.ok.injEq]
  constructor
  · intro hempty q
    have hroot : m = ⟨none⟩ := by
      cases m with
      | mk root => simpa [isEmpty] using hempty
    exact get_eq_none_of_root (hroot ▸ hs) q
  · intro hnone
    unfold isEmpty
    cases hroot : m.root with
    | none => rfl
    | some root =>
      obtain ⟨⟨k, v⟩, he⟩ := (hfull root hroot).exists_entry
      have hv := (hs.mem_entries k v).mp (by rw [entries, hroot]; exact he)
      rw [hnone k] at hv
      cases hv

omit [Target] in
/-- **In a path-compressed tree every call but a write is tidy**: there is no
valueless node with one child for it to leave empty. -/
theorem tidy_of_allFull_two {m : TrieMap T} (hfull : m.AllFull 2) {op : Op T}
    (hwrite : op.isWrite = false) : Tidy m op := by
  refine ⟨hwrite, fun h => ?_⟩
  cases op with
  | remove key =>
    obtain ⟨root, x, visited, k, hroot, hpath, hstuck, _⟩ := h
    exact hpath.not_stuck (hfull root hroot) hstuck
  | removePrefix key =>
    obtain ⟨root, x, visited, k, c, r, hroot, hpath, hstuck, _⟩ := h
    exact hpath.not_stuck (hfull root hroot) hstuck
  | insert | clear | write => exact h

/-- Keys that branch and nest come and go, in an order in which two of the
removals merge nodes and the last one empties the map. -/
def branchingRemovals : List (Op ℕ) :=
  [.insert [97, 98] 1, .insert [97, 99] 2, .insert [97, 99, 100] 3, .insert [97, 99, 101] 4,
    .insert [98] 5, .remove [97, 98], .remove [97, 99, 100], .remove [98], .remove [97, 99, 101],
    .insert [97, 99, 101, 102] 6, .remove [97, 99, 101, 102], .remove [97, 99]]

omit [Target] in
/-- A run that meets the condition: the tree is path-compressed before every
call, which is checked on its first levels. -/
theorem isEmpty_iff_of_reachable_branching :
    letI : Target := Target.x86_64
    ∃ m : TrieMap ℕ, system.run new branchingRemovals = some m
      ∧ (m.isEmpty = true ↔ ∀ q, m.get q = .ok none) := by
  obtain ⟨m, hm⟩ := Option.isSome_iff_exists.mp (show (@System.run _ _ (@system ℕ Target.x86_64) new
    branchingRemovals).isSome = true by decide)
  have hmeets : (@system ℕ Target.x86_64).RunMeets
      (fun m op => op.isWrite = false ∧ m.root.all (isFull 2 4) = true) new branchingRemovals := by
    decide
  have hreach := System.ReachableWhile.init.of_run hmeets hm
  refine ⟨m, hm, @isEmpty_iff_of_reachable ℕ Target.x86_64 m (hreach.mono ?_)⟩
  rintro m op ⟨hwrite, hfull⟩
  refine tidy_of_allFull_two (fun root hroot => ?_) hwrite
  rw [hroot] at hfull
  exact .of_isFull hfull

/-- Three nested keys, removed from the middle outwards. -/
def nestedRemovals : List (Op ℕ) :=
  [.insert [97] 1, .insert [97, 98] 2, .insert [97, 98, 99] 3,
    .remove [97, 98], .remove [97, 98, 99], .remove [97]]

omit [Target] in
/-- **An empty map that does not know it**: an empty leaf stays behind below
the root, and becomes the root. -/
theorem isEmpty_eq_false_of_nestedRemovals :
    letI : Target := Target.x86_64
    ∃ out m, (new : TrieMap ℕ).run nestedRemovals = .ok (out, m)
      ∧ (∀ q, m.get q = .ok none) ∧ m.isEmpty = false := by
  have hrun := @run_refines ℕ Target.x86_64 3 _ _ refines_new nestedRemovals (by decide)
  obtain ⟨⟨out, m⟩, hm, -, hs⟩ := @Returns.exists_ok Target.x86_64 _ _ _ _ hrun (by decide)
  refine ⟨out, m, hm, fun q => ?_, ?_⟩
  · rw [@get_refines ℕ Target.x86_64 _ _ _ hs, Except.ok.injEq]
    simp only [nestedRemovals, RefMap.run, RefMap.apply, RefMap.get_remove]
    split_ifs with h₁ h₂ h₃
    · rfl
    · rfl
    · rfl
    · simp [RefMap.get_insert, RefMap.empty, h₁, h₂, h₃]
  · have hempty : (@TrieMap.run Target.x86_64 ℕ new nestedRemovals).toOption.map
        (fun p => p.2.isEmpty) = some false := by decide
    rw [hm] at hempty
    exact Option.some.inj hempty

/-! ## Path compression -/

/-- **The calls that leave a node to merge**: a `remove` of the value of a node
below the root that has exactly one child. -/
def LeavesSingle (m : TrieMap T) : Op T → Prop
  | .remove key => ∃ root x visited k, m.root = some root ∧ Path root x visited k ∧ visited ≠ []
      ∧ x.val ≠ none ∧ x.children.length = 1 ∧ key = k ++ x.pfx.bytes
  | _ => False

/-- An insertion or a removal that leaves no node to merge. -/
def Compressing (m : TrieMap T) (op : Op T) : Prop :=
  ((∃ key val, op = .insert key val) ∨ ∃ key, op = .remove key) ∧ ¬ LeavesSingle m op

/-- **Such a call keeps the tree path-compressed.** -/
theorem apply_full_two {room : ℕ} {m : TrieMap T} (hm : m.Valid room) (hfull : m.AllFull 2)
    {op : Op T} (hkey : op.key.length ≤ room) (hop : Compressing m op) :
    Returns room (m.apply op) fun p => p.2.AllFull 2 := by
  obtain ⟨⟨key, val, rfl⟩ | ⟨key, rfl⟩, hleaves⟩ := hop
  · by_cases hne : key = []
    · simp only [apply, insert, hne, if_true, Rust.ok_bind]
      exact hfull
    exact (insert_spec hm hne hkey val).bind fun m' hm' => hm'.2.2 2 le_rfl hfull
  · refine (remove_spec hm key).imp fun p hp => hp.2.2.2 2 (by omega) le_rfl hfull ?_
    intro root c visited k hroot hpath hk hv
    have hkids : ∀ x ∈ c.takeVal.2.children, Full 2 x := by
      simpa using fun x => (hpath.full (hfull root hroot)).child
    refine ⟨hkids, fun hvis => ?_, fun _ => hpath.not_stuck (hfull root hroot)⟩
    have hone : c.takeVal.2.children.length ≠ 1 := fun hone =>
      hleaves ⟨root, c, visited, k, hroot, hpath, hvis, hv, by simpa using hone, hk⟩
    rcases Nat.eq_zero_or_pos c.takeVal.2.children.length with hlen | hlen
    · exact Or.inr ⟨val_takeVal c, List.length_eq_zero_iff.mp hlen⟩
    · exact Or.inl (Full.intro (Or.inr (by omega)) hkids)

/-- **The tree stays path-compressed** in every run of such calls: every node
has a value or two children. -/
theorem allFull_two_of_reachable {m : TrieMap T} (h : system.ReachableWhile Compressing m) :
    m.AllFull 2 := by
  refine h.invariant allFull_none fun m op m' hm hfull hop hnext => ?_
  obtain ⟨room, s, hs⟩ := exists_refines_of_reachable hm
  obtain ⟨r, hr⟩ := system_next_eq_some.mp hnext
  exact (apply_full_two (hs.valid.mono (Nat.le_max_left _ _)) hfull (Nat.le_max_right _ _)
    hop).of_eq_ok hr

omit [Target] in
/-- A run that meets the condition: a key comes and goes, and two others
branch. -/
theorem allFull_two_of_reachable_branch :
    letI : Target := Target.x86_64
    ∃ m : TrieMap ℕ, system.run new
        [.insert [97] 1, .remove [97], .insert [97, 98] 2, .insert [97, 99] 3] = some m
      ∧ m.AllFull 2 := by
  have hinsert : ∀ (s : TrieMap ℕ) key val, Compressing s (.insert key val) :=
    fun s key val => ⟨Or.inl ⟨key, val, rfl⟩, id⟩
  obtain ⟨m, hm⟩ := Option.isSome_iff_exists.mp (show (@System.run _ _ (@system ℕ Target.x86_64) new
    [.insert [97] 1, .remove [97], .insert [97, 98] 2, .insert [97, 99] 3]).isSome = true by decide)
  refine ⟨m, hm, @allFull_two_of_reachable ℕ Target.x86_64 m (.of_run .init ?_ hm)⟩
  refine ⟨hinsert _ _ _, fun s' hs' => ?_⟩
  obtain rfl := Option.some.inj hs'
  refine ⟨⟨Or.inr ⟨_, rfl⟩, ?_⟩, fun _ _ => ⟨hinsert _ _ _, fun _ _ => ⟨hinsert _ _ _,
    fun _ _ => trivial⟩⟩⟩
  rintro ⟨root, x, visited, k, hroot, hpath, hvis, _⟩
  obtain rfl := Option.some.inj hroot
  exact hvis (hpath.visited_eq_nil rfl)

omit [Target] in
/-- A map whose root has one child, without a value and with one child, is not
path-compressed. -/
theorem not_allFull_of_child {m : TrieMap T}
    (h : (m.root.map fun r => r.children.map fun c => (c.val, c.children.length))
      = some [(none, 1)]) : ¬ m.AllFull 2 := by
  intro hfull
  obtain ⟨root, hroot, hkids⟩ := Option.map_eq_some_iff.mp h
  obtain ⟨c, hc, hcv⟩ := List.mem_map.mp (hkids ▸ List.mem_singleton_self (none, 1))
  obtain ⟨hval, hlen⟩ := Prod.mk.inj hcv
  rcases ((hfull root hroot).child hc).self with h | h
  · simp [hasVal, hval] at h
  · omega

omit [Target] in
/-- **A chain node that stays**: removing the middle one of three nested keys
leaves its node without a value and with one child. -/
theorem not_allFull_two_of_middle_removed :
    letI : Target := Target.x86_64
    ∃ m : TrieMap ℕ, system.run new
        [.insert [97] 1, .insert [97, 98] 2, .insert [97, 98, 99] 3, .remove [97, 98]] = some m
      ∧ ¬ m.AllFull 2 := by
  obtain ⟨m, hm⟩ := Option.isSome_iff_exists.mp (show (@System.run _ _ (@system ℕ Target.x86_64) new
    [.insert [97] 1, .insert [97, 98] 2, .insert [97, 98, 99] 3, .remove [97, 98]]).isSome = true
    by decide)
  have hnode : (@System.run _ _ (@system ℕ Target.x86_64) new
      [.insert [97] 1, .insert [97, 98] 2, .insert [97, 98, 99] 3, .remove [97, 98]]).map
        (fun m => m.root.map fun r => r.children.map fun c => (c.val, c.children.length))
      = some (some [(none, 1)]) := by decide
  rw [hm, Option.map_some, Option.some.injEq] at hnode
  exact ⟨m, hm, not_allFull_of_child hnode⟩

end TrieMap

end Trie
