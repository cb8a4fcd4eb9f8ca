import Algors.Trie.Canonical

/-!
# Removing a prefix from a compressed tree

`remove_prefix` takes the node its prefix ends at away from that node's parent
by hand, and hands `compress` the path without the parent: so `compress` looks
at the nodes above the parent, and not at the parent itself. In a
path-compressed tree the nodes above have a value or two children still, and
nothing happens to them. A parent below the root that had no value and two
children is left with the other one, and is not merged with it.

At the root the end of `compress` makes up for it, and a parent with a value or
a third child needs no merge. So the call leaves the tree path-compressed just
when the parent is not of that kind.
-/

namespace Trie

variable {T : Type}

namespace TrieMap

open Node

/-- **The prefixes that leave a node to merge**: those that end inside the
prefix of a child of a node below the root which has no value and just two
children. -/
def LeavesOne (m : TrieMap T) (key : Bytes) : Prop :=
  ∃ root n visited k c r, m.root = some root ∧ Path root n visited k ∧ visited ≠ []
    ∧ n.val = none ∧ n.children.length = 2 ∧ c ∈ n.children ∧ r ≠ [] ∧ r <+: c.pfx.bytes
    ∧ key = k ++ n.pfx.bytes ++ r

section Path

variable {room : ℕ} {root n n' : Node T} {visited : Visited T} {k : Bytes}

/-- A path brought up to date ends in what its end has become. -/
theorem full_of_plug {j : ℕ} (hpath : Path root n visited k) (hroot : Wf room root)
    (hpfx : n'.pfx = n.pfx) (hfull : Full j (plug n' visited)) : Full j n' := by
  induction hpath generalizing n' with
  | root => exact hfull
  | @child n c visited k b hpath hc hkey ih =>
    have hn := (hpath.wf hroot).agrees
    have hne : n'.pfx.bytes ≠ [] := hpfx ▸ hn.nonempty hc
    have hkey' : n'.key = b.toNat := by rw [key, hpfx, ← hkey, key]
    have hup := ih (by rw [pfx, header_setChildByPos, pfx]) hfull
    exact hup.child (((hn.setChildByPos hc hkey hne hkey').2 n').mpr (Or.inl rfl))

/-- What has a node's header and number of children passes for it below the
root. -/
theorem plug_shape (hpath : Path root n visited k) (hhdr : n'.header = n.header)
    (hlen : n'.children.length = n.children.length) :
    (plug n' visited).header = root.header
      ∧ (plug n' visited).children.length = root.children.length := by
  induction hpath generalizing n' with
  | root => exact ⟨hhdr, hlen⟩
  | child hpath hc hkey ih =>
    exact ih (header_setChildByPos _ _ _) (length_children_setChildByPos _ _ _)

/-- **In a compressed tree `compress` has nothing to do** above a node that is
not dead. -/
theorem compress_eq_plug [Target] (hpath : Path root n visited k) (hvis : visited ≠ [])
    (hroot : Wf room root) (hfull : Full 2 root) {P : Bytes → Prop}
    (hP : ∀ t, P t → n.pfx.bytes <+: t) (h : Pruned (room - k.length) n n' P)
    (halive : ¬ Dead n') : compress n' visited = .ok (some (plug n' visited)) := by
  have hloop : compressLoop n' visited = .ok (plug n' visited) := by
    cases hpath with
    | root => exact absurd rfl hvis
    | @child p _ visited k b hpath hc hkey =>
      rw [List.length_append, ← Nat.sub_sub] at h
      have hwf := hpath.wf hroot
      have hdrop : dropIfDead n' p (childPosFromByte b) = p.setChildByPos (childPosFromByte b) n' :=
        if_neg (mt (dead_iff h.wf.agrees).mp halive)
      have hag := (Pruned.setChildByPos hwf hc hkey hP h).wf.agrees
      -- the parent is as full as it was
      have hnot : ¬ ((p.setChildByPos (childPosFromByte b) n').lenChildren = 1
          ∧ (p.setChildByPos (childPosFromByte b) n').hasVal = false) := by
        rw [hag.lenChildren_eq, length_children_setChildByPos, hasVal, val, header_setChildByPos]
        rintro ⟨hone, hval⟩
        rcases (hpath.full hfull).self with hsome | hlen
        · rw [hasVal, val, hval] at hsome
          cases hsome
        · omega
      simp only [compressLoop, compressParent_eq hwf hc hkey h, hdrop, if_neg hnot, Rust.ok_bind]
      rfl
  have hwf' : Wf room (plug n' visited) := (plug_spec hpath hroot hP h).1.wf
  obtain ⟨hhdr, hlen⟩ : (plug n' visited).header = root.header
      ∧ (plug n' visited).children.length = root.children.length := by
    cases hpath with
    | root => exact absurd rfl hvis
    | @child p _ visited k b hpath hc hkey =>
      have hlen := length_children_setChildByPos p (childPosFromByte b) n'
      have hshape := plug_shape hpath (header_setChildByPos p (childPosFromByte b) n') hlen
      exact hshape
  have hval : (plug n' visited).hasVal = root.hasVal := by rw [hasVal, val, hhdr, hasVal, val]
  rw [compress, hloop, Rust.ok_bind, compressRoot, hval, hwf'.agrees.lenChildren_eq, hlen]
  rcases hfull.self with hsome | htwo
  · rw [if_pos hsome]
  · split_ifs <;> first | rfl | omega

variable [Target]

/-- **The walk of `remove_prefix` follows a path** as far as the prefix goes on
with the bytes of the path. -/
theorem removePrefixLoop_of_path (hpath : Path root n visited k) (hroot : Wf room root)
    {data : Bytes} (hdata : visited = [] ∨ ∃ b bs, data = b :: bs ∧ n.key = b.toNat) :
    ∃ fuel, Enough fuel n data ∧ removePrefixLoop (walkBound (k ++ data)) root (k ++ data) []
      = removePrefixLoop fuel n data visited := by
  induction hpath generalizing data with
  | root => exact ⟨walkBound data, enough_walkBound root data, rfl⟩
  | @child n c visited k b hpath hc hkey ih =>
    have hwf := hpath.wf hroot
    obtain ⟨b', bs, rfl, hkey'⟩ := hdata.resolve_left (List.cons_ne_nil _ _)
    obtain rfl : b = b' := UInt8.toNat_inj.mp (hkey.symm.trans hkey')
    have hhead : visited = [] ∨ ∃ a as, n.pfx.bytes ++ b :: bs = a :: as ∧ n.key = a.toNat := by
      cases hpath with
      | root => exact Or.inl rfl
      | child hp hn hnkey =>
        obtain ⟨a, as, ha⟩ := List.exists_cons_of_ne_nil ((hp.wf hroot).agrees.nonempty hn)
        exact Or.inr ⟨a, as ++ b :: bs, by rw [ha]; rfl, key_eq_of_pfx ha⟩
    obtain ⟨fuel, hfuel, hloop⟩ := ih hhead
    obtain ⟨fuel, rfl⟩ := Nat.exists_eq_succ_of_ne_zero hfuel.1.ne'
    cases walkStep hwf hfuel with
    | mismatch _ hpre => exact absurd (List.prefix_append _ _) hpre
    | ends _ hends => simp at hends
    | missing b' bs' _ heq _ habsent =>
      obtain ⟨rfl, rfl⟩ := List.cons.inj (List.append_cancel_left heq)
      exact absurd hkey (habsent c hc)
    | child b' bs' c' hlcp heq hexists hget hc' hckey _ hfuelc =>
      obtain ⟨rfl, rfl⟩ := List.cons.inj (List.append_cancel_left heq)
      obtain rfl := hwf.agrees.sorted.eq_of_key_eq hc' hc (hckey.trans hkey.symm)
      refine ⟨fuel, hfuelc, ?_⟩
      rw [List.append_assoc, hloop]
      simp [removePrefixLoop, hlcp, Prefix.len, sliceFrom_append, Rust.index, hexists, hget]

/-- **`remove_prefix` at the end of a path** takes the child away that the
prefix ends in, and compresses the path above. -/
theorem removePrefix_of_path (hpath : Path root n visited k) (hroot : Wf room root) {c : Node T}
    (hc : c ∈ n.children) {b : UInt8} (hkey : c.key = b.toNat) {r : Bytes} (hr : r ≠ [])
    (hrc : r <+: c.pfx.bytes) : removePrefix ⟨some root⟩ (k ++ n.pfx.bytes ++ r) = (do
      let root ← compress (n.removeChild (childPosFromByte b)).2 visited
      .ok ⟨root⟩) := by
  obtain ⟨a, as, rfl⟩ := List.exists_cons_of_ne_nil hr
  obtain ⟨bs, hbs⟩ := exists_pfx_of_key_eq ((hpath.wf hroot).agrees.nonempty hc) hkey
  obtain rfl : a = b := (List.cons_prefix_cons.mp (hbs ▸ hrc)).1
  obtain ⟨fuel, hfuel, hloop⟩ :=
    removePrefixLoop_of_path (hpath.child hc hkey) hroot (Or.inr ⟨a, as, rfl, hkey⟩)
  obtain ⟨fuel, rfl⟩ := Nat.exists_eq_succ_of_ne_zero hfuel.1.ne'
  have hlcp : Util.lcp c.pfx.bytes (a :: as) = (a :: as).length := by
    rw [Util.lcp_eq_lcpLen, lcpLen_eq_length_right.mpr hrc]
  have hfound : removePrefixLoop (fuel + 1) c (a :: as) ((n, childPosFromByte a) :: visited)
      = .ok (some (c, (n, childPosFromByte a) :: visited)) := by
    simp only [removePrefixLoop, hlcp, if_true]
  rw [removePrefix, if_neg (by simp)]
  dsimp only
  rw [hloop, hfound]
  rfl

end Path

variable [Target]

/-- A prefix that leaves a node to merge leaves it unmerged. -/
theorem LeavesOne.not_allFull {room : ℕ} {m m' : TrieMap T} (hm : m.Valid room)
    (hfull : m.AllFull 2) {key : Bytes} (h : LeavesOne m key) (hok : m.removePrefix key = .ok m') :
    ¬ m'.AllFull 2 := by
  obtain ⟨root, n, visited, k, c, r, hroot, hpath, hvis, hval, htwo, hc, hr, hrc, rfl⟩ := h
  obtain ⟨root₀⟩ := m
  obtain rfl : root₀ = some root := hroot
  have hwf := hm.wf root rfl
  have hn := hpath.wf hwf
  obtain ⟨b, bs, hb⟩ := List.exists_cons_of_ne_nil (hn.agrees.nonempty hc)
  have hkey := key_eq_of_pfx hb
  obtain ⟨_, _, hlen, _⟩ := hn.agrees.removeChild hc hkey
  have hhdr := header_removeChild n (childPosFromByte b)
  have halive : ¬ Dead (n.removeChild (childPosFromByte b)).2 := fun hd => by
    rw [hd.2, List.length_nil] at hlen
    omega
  rw [removePrefix_of_path hpath hwf hc hkey hr hrc,
    compress_eq_plug hpath hvis hwf (hfull root rfl) (fun t ht => (List.prefix_append _ _).trans ht)
      (pruned_removeChild hn hc hkey hr hrc) halive] at hok
  obtain rfl := Except.ok.inj hok
  intro hfull'
  have hself := (full_of_plug hpath hwf (by rw [pfx, hhdr, pfx]) (hfull' _ rfl)).self
  rw [hasVal, val, hhdr, ← val, hval] at hself
  rcases hself with hsome | hge
  · cases hsome
  · omega

/-- A prefix that leaves no node to merge keeps the tree path-compressed. -/
theorem removePrefix_full_two {room : ℕ} {m : TrieMap T} (hm : m.Valid room) (hfull : m.AllFull 2)
    {key : Bytes} (h : ¬ LeavesOne m key) :
    Returns room (m.removePrefix key) fun m' => m'.AllFull 2 := by
  refine (removePrefix_spec hm key).imp fun m' hm' => hm'.2.2 2 (by omega) le_rfl hfull ?_
  intro root n c visited k b r hroot hpath hc hckey hr hrc hk
  have hn := hpath.full (hfull root hroot)
  obtain ⟨_, _, hlen, hmem⟩ := (hpath.wf (hm.wf root hroot)).agrees.removeChild hc hckey
  have hval : (n.removeChild (childPosFromByte b)).2.val = n.val := by
    rw [val, header_removeChild, val]
  have hkids : ∀ x ∈ (n.removeChild (childPosFromByte b)).2.children, Full 2 x := fun x hx =>
    hn.child ((hmem x).mp hx).1
  refine ⟨hkids, fun hvis => Or.inl (Full.intro ?_ hkids),
    fun _ => hpath.not_stuck (hfull root hroot)⟩
  rw [hasVal, hval]
  rcases hn.self with hsome | hge
  · exact Or.inl hsome
  · by_contra hno
    rw [not_or] at hno
    refine h ⟨root, n, visited, k, c, r, hroot, hpath, hvis, by simpa using hno.1, ?_, hc, hr,
      hrc, hk⟩
    omega

/-- **When `remove_prefix` keeps a tree path-compressed**: just when its prefix
leaves no node to merge. -/
theorem removePrefix_allFull_iff {room : ℕ} {m : TrieMap T} (hm : m.Valid room)
    (hfull : m.AllFull 2) (key : Bytes) :
    (Prefix.Fits room → ∃ m', m.removePrefix key = .ok m')
      ∧ ∀ m', m.removePrefix key = .ok m' → (m'.AllFull 2 ↔ ¬ LeavesOne m key) := by
  refine ⟨fun hroom => ?_, fun m' hok => ⟨fun hfull' h => ?_, fun h => ?_⟩⟩
  · obtain ⟨m', hm', _⟩ := (removePrefix_spec hm key).exists_ok hroom
    exact ⟨m', hm'⟩
  · exact h.not_allFull hm hfull hok hfull'
  · exact (removePrefix_full_two hm hfull h).of_eq_ok hok

omit [Target] in
/-- A key, and two that branch two bytes further on: the map of these. -/
theorem exists_branched : letI : Target := Target.x86_64
    ∃ m : TrieMap ℕ, insertAll new [([97], 1), ([97, 98, 99], 2), ([97, 98, 100], 3)] = .ok m
      ∧ m.Valid 3 ∧ m.AllFull 2 := by
  have hnew : Canonical 3 (new : TrieMap ℕ) :=
    ⟨valid_none 3, allFull_none, fun root hroot => by cases hroot⟩
  have hinsert := @Canonical.insertAll ℕ Target.x86_64 3 _ hnew
    [([97], 1), ([97, 98, 99], 2), ([97, 98, 100], 3)] (by decide) (by decide) (by decide)
    fun p _ v hv => by simp [new] at hv
  obtain ⟨m, hm, h, -⟩ := @Returns.exists_ok Target.x86_64 _ _ _ _ hinsert (by decide)
  exact ⟨m, hm, h.valid, h.full⟩

omit [Target] in
/-- The condition at that map, for a prefix of all its keys but one. -/
theorem removePrefix_allFull_iff_branched : letI : Target := Target.x86_64
    ∃ m : TrieMap ℕ, insertAll new [([97], 1), ([97, 98, 99], 2), ([97, 98, 100], 3)] = .ok m
      ∧ (∃ m', m.removePrefix [97, 98] = .ok m')
      ∧ ∀ m', m.removePrefix [97, 98] = .ok m' → (m'.AllFull 2 ↔ ¬ LeavesOne m [97, 98]) := by
  obtain ⟨m, hm, hvalid, hfull⟩ := exists_branched
  have hiff := @removePrefix_allFull_iff ℕ Target.x86_64 3 m hvalid hfull [97, 98]
  exact ⟨m, hm, hiff.1 (by decide), hiff.2⟩

omit [Target] in
/-- **A node that is not merged**: with one of the two long keys removed as a
prefix, the node where they branched stays, without a value and with one
child. -/
theorem not_allFull_two_of_prefix_removed : letI : Target := Target.x86_64
    ∃ m m' : TrieMap ℕ,
      insertAll new [([97], 1), ([97, 98, 99], 2), ([97, 98, 100], 3)] = .ok m
      ∧ m.AllFull 2 ∧ m.removePrefix [97, 98, 99] = .ok m' ∧ m'.root ≠ none
      ∧ ¬ m'.AllFull 2 := by
  obtain ⟨m, hm, hvalid, hfull⟩ := exists_branched
  have hremove := @removePrefix_spec Target.x86_64 ℕ 3 m hvalid [97, 98, 99]
  obtain ⟨m', hm', -⟩ := @Returns.exists_ok Target.x86_64 _ _ _ _ hremove (by decide)
  have hnode : (@insertAll ℕ Target.x86_64 new
      [([97], 1), ([97, 98, 99], 2), ([97, 98, 100], 3)] >>= fun m =>
        @removePrefix Target.x86_64 ℕ m [97, 98, 99]).toOption.map
          (fun m => m.root.map fun r => r.children.map fun c => (c.val, c.children.length))
      = some (some [(none, 1)]) := by decide
  rw [hm, Rust.ok_bind, hm', Except.toOption, Option.map_some, Option.some.injEq] at hnode
  obtain ⟨root, hroot, -⟩ := Option.map_eq_some_iff.mp hnode
  exact ⟨m, m', hm, hfull, hm', by simp [hroot], not_allFull_of_child hnode⟩

end TrieMap

end Trie
