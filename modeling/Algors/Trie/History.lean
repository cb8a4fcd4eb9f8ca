import Algors.Trie.PrefixRemoval

/-!
# The tree forgets how it came about

Insertion order does not matter, and neither does anything else, as long as no
call leaves a node to merge: two maps that answer every `get` alike, made by
any calls in any order, are the same tree. There is one thing the tree
remembers. A node that has had children stays internal when it loses the last
of them, with an empty bitmap and a buffer, where a node that never had any is
a leaf. `trim` forgets that, and nothing else: no query can tell a map from its
trimmed one.

The calls that leave a node to merge are known: a `remove` of the value of a
node with one child, and a `remove_prefix` that takes one of two children.
-/

namespace Trie

variable {T : Type}

namespace Node

/-! ## Internal nodes without children -/

mutual

/-- **The tree with every internal node that has no children made a leaf.** -/
def trim : Node T → Node T
  | leaf h => leaf h
  | internal h bitmap cs => if cs.isEmpty then leaf h else internal h bitmap (trimAll cs)

/-- The trimmed trees of a list of siblings. -/
def trimAll : List (Node T) → List (Node T)
  | [] => []
  | c :: cs => c.trim :: trimAll cs

end

theorem trimAll_eq (cs : List (Node T)) : trimAll cs = cs.map trim := by
  induction cs with
  | nil => rfl
  | cons c cs ih => rw [trimAll, ih, List.map_cons]

@[simp] theorem header_trim (n : Node T) : n.trim.header = n.header := by
  cases n with
  | leaf h => rw [trim]
  | internal h bitmap cs =>
    rw [trim]
    split_ifs <;> rfl

@[simp] theorem children_trim (n : Node T) : n.trim.children = n.children.map trim := by
  cases n with
  | leaf h => rw [trim]; rfl
  | internal h bitmap cs =>
    rw [trim]
    split_ifs with hcs
    · rw [children, children, List.isEmpty_iff.mp hcs]
      rfl
    · exact trimAll_eq cs

@[simp] theorem pfx_trim (n : Node T) : n.trim.pfx = n.pfx := by rw [pfx, header_trim, pfx]

@[simp] theorem val_trim (n : Node T) : n.trim.val = n.val := by rw [val, header_trim, val]

@[simp] theorem key_trim (n : Node T) : n.trim.key = n.key := by rw [key, pfx_trim, key]

theorem Agrees.trim {n : Node T} (h : n.Agrees) : n.trim.Agrees := by
  cases n with
  | leaf hdr => rwa [Node.trim]
  | internal hdr bitmap cs =>
    rw [Node.trim]
    split_ifs with hcs
    · trivial
    · rw [trimAll_eq]
      have hsorted : cs.Pairwise fun x y => x.key < y.key := ChildrenAgree.sorted h
      exact
        { sorted := List.pairwise_map.mpr (by simpa only [key_trim] using hsorted)
          bit_iff := fun i => (ChildrenAgree.bit_iff h i).trans (by simp)
          nonempty := fun c hc => by
            obtain ⟨c₀, hc₀, rfl⟩ := List.mem_map.mp hc
            rw [pfx_trim]
            exact ChildrenAgree.nonempty h c₀ hc₀ }

theorem Wf.trim {room : ℕ} {n : Node T} (h : Wf room n) : Wf room n.trim := by
  induction h with
  | @intro room n hlen hagrees _ ih =>
    refine .intro (by rwa [pfx_trim]) hagrees.trim fun c hc => ?_
    rw [children_trim] at hc
    obtain ⟨c₀, hc₀, rfl⟩ := List.mem_map.mp hc
    rw [pfx_trim]
    exact ih c₀ hc₀

theorem Full.trim {j : ℕ} {n : Node T} (h : Full j n) : Full j n.trim := by
  induction h with
  | @intro n hself _ ih =>
    refine .intro ?_ fun c hc => ?_
    · rwa [hasVal, val_trim, children_trim, List.length_map]
    · rw [children_trim] at hc
      obtain ⟨c₀, hc₀, rfl⟩ := List.mem_map.mp hc
      exact ih c₀ hc₀

/-- **A trimmed tree** has no internal node without children. -/
theorem Full.branching_trim {j : ℕ} {n : Node T} (h : Full j n) : Branching n.trim := by
  induction h with
  | @intro n _ _ ih =>
    refine .intro ?_ fun c hc => ?_
    · cases n with
      | leaf hdr => exact Or.inl rfl
      | internal hdr bitmap cs =>
        rw [Node.trim]
        split_ifs with hcs
        · exact Or.inl rfl
        · rw [trimAll_eq]
          refine Or.inr fun hnil => hcs ?_
          rw [List.isEmpty_iff]
          exact List.map_eq_nil_iff.mp hnil
    · rw [children_trim] at hc
      obtain ⟨c₀, hc₀, rfl⟩ := List.mem_map.mp hc
      exact ih c₀ hc₀

/-- **It stores the same.** -/
theorem Full.mem_entries_trim {j : ℕ} {n : Node T} (h : Full j n) (e : Bytes × T) :
    e ∈ n.trim.entries ↔ e ∈ n.entries := by
  induction h generalizing e with
  | @intro n _ _ ih =>
    obtain ⟨k, v⟩ := e
    rw [mem_entries, mem_entries, val_trim, pfx_trim, children_trim]
    refine or_congr_right ⟨?_, ?_⟩
    · rintro ⟨c, hc, k', rfl, he⟩
      obtain ⟨c₀, hc₀, rfl⟩ := List.mem_map.mp hc
      exact ⟨c₀, hc₀, k', rfl, (ih c₀ hc₀ _).mp he⟩
    · rintro ⟨c, hc, k', rfl, he⟩
      exact ⟨c.trim, List.mem_map_of_mem hc, k', rfl, (ih c hc _).mpr he⟩

end Node

namespace TrieMap

open Node

/-- The map with its tree trimmed. -/
def trim (m : TrieMap T) : TrieMap T := ⟨m.root.map Node.trim⟩

theorem mem_entries_trim {j : ℕ} {m : TrieMap T} (h : m.AllFull j) (e : Bytes × T) :
    e ∈ m.trim.entries ↔ e ∈ m.entries := by
  obtain ⟨root⟩ := m
  cases root with
  | none => exact Iff.rfl
  | some root => exact (h root rfl).mem_entries_trim e

/-- **A compressed map, trimmed, is as insertion alone makes it.** -/
theorem AllFull.canonical {room : ℕ} {m : TrieMap T} (hfull : m.AllFull 2) (hm : m.Valid room) :
    Canonical room m.trim := by
  have hroot : ∀ root, m.trim.root = some root → ∃ r, m.root = some r ∧ r.trim = root :=
    fun root h => Option.map_eq_some_iff.mp h
  refine ⟨⟨fun root h => ?_, fun v hv => ?_⟩, fun root h => ?_, fun root h => ?_⟩
  · obtain ⟨r, hr, rfl⟩ := hroot root h
    exact (hm.wf r hr).trim
  · exact hm.nil v ((mem_entries_trim hfull _).mp hv)
  · obtain ⟨r, hr, rfl⟩ := hroot root h
    exact (hfull r hr).trim
  · obtain ⟨r, hr, rfl⟩ := hroot root h
    exact (hfull r hr).branching_trim

/-! ## Runs that leave no node to merge -/

variable [Target]

/-- **A value in place of a value** leaves every node as full as it was. -/
theorem getMutLoop_full {j fuel room : ℕ} {n : Node T} {data : Bytes} (hwf : Wf room n)
    (hfuel : Enough fuel n data) (hfull : Full j n) {v : T} {back : T → Node T}
    (h : getMutLoop fuel n data = .ok (some (v, back))) (w : T) : Full j (back w) := by
  induction fuel generalizing room n data v back with
  | zero => exact absurd hfuel.1 (lt_irrefl 0)
  | succ fuel ih =>
    cases walkStep hwf hfuel with
    | mismatch hlcp hpre => simp [getMutLoop, hlcp] at h
    | ends hlcp hdata =>
      subst hdata
      simp only [getMutLoop, hlcp, Prefix.len, lt_irrefl, if_false, if_true, Except.ok.injEq,
        Option.map_eq_some_iff, Prod.mk.injEq] at h
      obtain ⟨v', -, -, rfl⟩ := h
      exact Full.setVal (fun c hc => hfull.child hc) w
    | missing b bs hlcp hdata hexists habsent =>
      subst hdata
      simp [getMutLoop, hlcp, Prefix.len, sliceFrom_append, Rust.index, hexists] at h
    | child b bs c hlcp hdata hexists hget hc hkey hwfc hfuelc =>
      subst hdata
      obtain ⟨r, hr, -, hback⟩ := getMutLoop_spec hwfc hfuelc
      simp [getMutLoop, hlcp, Prefix.len, sliceFrom_append, Rust.index, hexists, hget, hr] at h
      obtain ⟨backc, rfl, rfl⟩ := h
      obtain ⟨-, hpfx, -⟩ := hback v backc rfl w
      refine hfull.setChildByPos hwf.agrees hc hkey ?_ ?_ (ih hwfc hfuelc (hfull.child hc) hr)
      · exact hpfx ▸ hwf.agrees.nonempty hc
      · rw [← hkey, Node.key, Node.key, hpfx]

/-- **A write through `get_mut`** keeps every node as full as it was. -/
theorem getMut_full {j room : ℕ} {m : TrieMap T} (hm : m.Valid room) (hfull : m.AllFull j)
    {key : Bytes} {v : T} {back : T → TrieMap T} (h : m.getMut key = .ok (some (v, back))) (w : T) :
    (back w).AllFull j := by
  unfold getMut at h
  split_ifs at h with hkey
  · cases h
  cases hroot : m.root with
  | none =>
    rw [hroot] at h
    cases h
  | some root =>
    rw [hroot] at h
    obtain ⟨r, hr, h⟩ := Rust.bind_eq_ok.mp h
    obtain ⟨⟨v', backr⟩, rfl, heq⟩ := Option.map_eq_some_iff.mp (Except.ok.inj h)
    obtain ⟨rfl, rfl⟩ := Prod.mk.inj heq
    rintro _ ⟨⟩
    exact getMutLoop_full (hm.wf root hroot) (enough_walkBound root key) (hfull root hroot) hr w

/-- **The calls that leave a node to merge**, by `remove` and by
`remove_prefix`. -/
def Unmerged (m : TrieMap T) : Op T → Prop
  | .remove key => LeavesSingle m (.remove key)
  | .removePrefix key => LeavesOne m key
  | _ => False

/-- **A call that leaves no node to merge** keeps the tree path-compressed. -/
theorem apply_allFull_two {room : ℕ} {m : TrieMap T} {s : RefMap T} (hs : Refines room m s)
    (hfull : m.AllFull 2) {op : Op T} (hkey : op.key.length ≤ room) (hop : ¬ Unmerged m op) :
    Returns room (m.apply op) fun p => p.2.AllFull 2 := by
  cases op with
  | insert key val => exact apply_full_two hs.valid hfull hkey ⟨Or.inl ⟨key, val, rfl⟩, id⟩
  | remove key => exact apply_full_two hs.valid hfull hkey ⟨Or.inr ⟨key, rfl⟩, hop⟩
  | removePrefix key => exact (removePrefix_full_two hs.valid hfull hop).bind fun m' hm' => hm'
  | clear => exact allFull_none
  | write key val =>
    obtain ⟨r, hr, -, -⟩ := getMut_refines hs key
    rw [apply, hr, Rust.ok_bind]
    cases r with
    | none => exact hfull
    | some p => exact getMut_full hs.valid hfull hr val

/-- The tree stays path-compressed in every run of such calls. -/
theorem allFull_two_of_merged {m : TrieMap T}
    (h : system.ReachableWhile (fun m op => ¬ Unmerged m op) m) : m.AllFull 2 := by
  refine h.invariant allFull_none fun m op m' hm hfull hop hnext => ?_
  obtain ⟨room, s, hs⟩ := exists_refines_of_reachable hm
  obtain ⟨r, hr⟩ := system_next_eq_some.mp hnext
  exact (apply_allFull_two (hs.mono (Nat.le_max_left _ _)) hfull (Nat.le_max_right _ _)
    hop).of_eq_ok hr

/-- **The tree forgets how it came about**: two maps made by any calls that
leave no node to merge, which answer every `get` alike, are the same tree but
for internal nodes without children. -/
theorem trim_eq_of_reachable {m m' : TrieMap T}
    (h : system.ReachableWhile (fun m op => ¬ Unmerged m op) m)
    (h' : system.ReachableWhile (fun m op => ¬ Unmerged m op) m')
    (hget : ∀ q, m.get q = m'.get q) : m.trim = m'.trim := by
  obtain ⟨room, s, hs⟩ := exists_refines_of_reachable h
  obtain ⟨room', s', hs'⟩ := exists_refines_of_reachable h'
  have hfull := allFull_two_of_merged h
  have hfull' := allFull_two_of_merged h'
  refine (hfull.canonical (hs.valid.mono (Nat.le_max_left room room'))).eq_of_entries
    (hfull'.canonical (hs'.valid.mono (Nat.le_max_right room room'))) fun ⟨k, v⟩ => ?_
  have hsame : s.get k = s'.get k := by
    have hk := hget k
    rwa [get_refines hs, get_refines hs', Except.ok.injEq] at hk
  rw [mem_entries_trim hfull, mem_entries_trim hfull', hs.mem_entries, hs'.mem_entries, hsame]

/-- Maps with the same entries answer alike. -/
theorem get_eq_of_entries {room room' : ℕ} {m m' : TrieMap T} {s s' : RefMap T}
    (h : Refines room m s) (h' : Refines room' m' s') (hent : m.entries = m'.entries) (q : Bytes) :
    m.get q = m'.get q := by
  rw [get_refines h, get_refines h']
  exact congrArg Except.ok (Option.ext fun v => by rw [← h.mem_entries, hent, h'.mem_entries])

omit [Target] in
/-- Below a root whose children have none, a node has no children. -/
theorem children_eq_nil_of_path {root n : Node T} {visited : Visited T} {k : Bytes}
    (h : Path root n visited k) (hroot : ∀ c ∈ root.children, c.children = [])
    (hvis : visited ≠ []) : n.children = [] := by
  have hn : (visited = [] ∧ n = root) ∨ n.children = [] := by
    clear hvis
    induction h with
    | root => exact Or.inl ⟨rfl, rfl⟩
    | child _ hc _ ih =>
      rcases ih with ⟨rfl, rfl⟩ | hnil
      · exact Or.inr (hroot _ hc)
      · rw [hnil] at hc
        cases hc
  exact hn.resolve_left fun h => hvis h.1

omit [Target] in
/-- A key that had another below it, and the key alone: the root is internal in
one map and a leaf in the other. -/
theorem trim_eq_of_reachable_single :
    letI : Target := Target.x86_64
    ∃ m m' : TrieMap ℕ,
      system.run new [.insert [97, 98] 1, .insert [97] 2, .removePrefix [97, 98]] = some m
      ∧ system.run new [.insert [97] 2] = some m'
      ∧ m.root.map isLeaf = some false ∧ m'.root.map isLeaf = some true ∧ m.trim = m'.trim := by
  have hrun : ((@System.run _ _ (@system ℕ Target.x86_64) new
      [.insert [97, 98] 1, .insert [97] 2, .removePrefix [97, 98]]).map
        fun m => (m.entries, m.root.map isLeaf)) = some ([([97], 2)], some false) := by decide
  have hrun' : ((@System.run _ _ (@system ℕ Target.x86_64) new [.insert [97] 2]).map
      fun m => (m.entries, m.root.map isLeaf)) = some ([([97], 2)], some true) := by decide
  obtain ⟨m, hm, hent⟩ := Option.map_eq_some_iff.mp hrun
  obtain ⟨m', hm', hent'⟩ := Option.map_eq_some_iff.mp hrun'
  obtain ⟨hentries, hleaf⟩ := Prod.mk.inj hent
  obtain ⟨hentries', hleaf'⟩ := Prod.mk.inj hent'
  have hreach : @System.ReachableWhile _ _ (@system ℕ Target.x86_64)
      (fun m op => ¬ Unmerged m op) m := by
    refine @System.ReachableWhile.of_run _ _ _ _ _ _
      [.insert [97, 98] 1, .insert [97] 2, .removePrefix [97, 98]] .init
      ⟨id, fun s₁ hs₁ => ⟨id, fun s₂ hs₂ => ⟨?_, fun _ _ => trivial⟩⟩⟩ hm
    rintro ⟨root, n, visited, k, c, r, hroot, hpath, hvis, -, htwo, -⟩
    -- the children of the root have none themselves
    have hkids : ((@System.run _ _ (@system ℕ Target.x86_64) new
        [.insert [97, 98] 1, .insert [97] 2]).map fun m => m.root.map fun r =>
          r.children.all fun c => c.children.isEmpty) = some (some true) := by decide
    have hs : @System.run _ _ (@system ℕ Target.x86_64) new
        [.insert [97, 98] 1, .insert [97] 2] = some s₂ :=
      Option.bind_eq_some_iff.mpr ⟨s₁, hs₁, Option.bind_eq_some_iff.mpr ⟨s₂, hs₂, rfl⟩⟩
    rw [hs, Option.map_some, hroot, Option.map_some, Option.some.injEq, Option.some.injEq,
      List.all_eq_true] at hkids
    rw [children_eq_nil_of_path hpath (fun c hc => List.isEmpty_iff.mp (hkids c hc)) hvis] at htwo
    cases htwo
  have hreach' : @System.ReachableWhile _ _ (@system ℕ Target.x86_64)
      (fun m op => ¬ Unmerged m op) m' :=
    @System.ReachableWhile.of_run _ _ _ _ _ _ [.insert [97] 2] .init
      ⟨id, fun _ _ => trivial⟩ hm'
  obtain ⟨room, s, hs⟩ := @exists_refines_of_reachable ℕ Target.x86_64 _ _ hreach
  obtain ⟨room', s', hs'⟩ := @exists_refines_of_reachable ℕ Target.x86_64 _ _ hreach'
  exact ⟨m, m', hm, hm', hleaf, hleaf', @trim_eq_of_reachable ℕ Target.x86_64 m m' hreach hreach'
    (@get_eq_of_entries ℕ Target.x86_64 _ _ _ _ _ _ hs hs' (hentries.trans hentries'.symm))⟩

end TrieMap

end Trie
