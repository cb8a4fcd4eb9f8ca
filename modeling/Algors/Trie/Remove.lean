import Algors.Trie.Insert

/-!
# Removal

`remove` and `remove_prefix` walk down to a node, take a value or a child
away there, and go back up the path, which prunes and merges nodes. `Path`
ties the recorded nodes to the tree they were recorded in, and `Pruned` says
what a subtree may become on the way back: its prefix may grow at the end,
and of its entries those of some set of keys are gone. A change that prunes a
child prunes its parent of the same keys with the parent's prefix in front,
and merging a node with its only child changes no entry at all, so whatever
`compress` does the map loses these keys and no other.
-/

variable [Target]

namespace Trie

variable {T : Type}

open Node

/-! ## The recorded path -/

/-- **The way from the root to a node**: the nodes passed with the positions
followed, and the bytes of their prefixes. -/
inductive Path (root : Node T) : Node T → Visited T → Bytes → Prop
  | root : Path root root [] []
  | child {n c : Node T} {visited : Visited T} {k : Bytes} {b : UInt8}
      (h : Path root n visited k) (hc : c ∈ n.children) (hkey : c.key = b.toNat) :
      Path root c ((n, childPosFromByte b) :: visited) (k ++ n.pfx.bytes)

omit [Target] in
/-- The node at the end of a path is well formed in the room that is left. -/
theorem Path.wf {room : ℕ} {root n : Node T} {visited : Visited T} {k : Bytes}
    (h : Path root n visited k) (hroot : Wf room root) : Wf (room - k.length) n := by
  induction h with
  | root => exact hroot
  | child _ hc _ ih =>
    rw [List.length_append, ← Nat.sub_sub]
    exact ih.child hc

omit [Target] in
/-- From a root without children no way leads further down. -/
theorem Path.visited_eq_nil {root n : Node T} {visited : Visited T} {k : Bytes}
    (h : Path root n visited k) (hroot : root.children = []) : visited = [] := by
  have hn : n = root ∧ visited = [] := by
    induction h with
    | root => exact ⟨rfl, rfl⟩
    | child _ hc _ ih =>
      rw [ih.1, hroot] at hc
      cases hc
  exact hn.2

/-! ## Pruning -/

/-- The keys of `P` with `k` in front. -/
def Past (k : Bytes) (P : Bytes → Prop) (key : Bytes) : Prop := ∃ t, key = k ++ t ∧ P t

omit [Target] in
theorem past_append {k k' : Bytes} {P : Bytes → Prop} {key : Bytes} :
    Past k (Past k' P) key ↔ Past (k ++ k') P key := by
  simp only [Past, List.append_assoc]
  constructor
  · rintro ⟨_, rfl, t, rfl, ht⟩
    exact ⟨t, rfl, ht⟩
  · rintro ⟨t, rfl, ht⟩
    exact ⟨_, rfl, t, rfl, ht⟩

/-- **A node and what it became**: its prefix may have grown at the end, and
the entries with keys in `P` are gone. -/
structure Pruned (room : ℕ) (n n' : Node T) (P : Bytes → Prop) : Prop where
  wf : Wf room n'
  pfx : n.pfx.bytes <+: n'.pfx.bytes
  drop : ∀ k v, (k, v) ∈ n'.entries ↔ (k, v) ∈ n.entries ∧ ¬ P k

namespace Pruned

variable {room : ℕ} {n c c' : Node T} {b : UInt8} {P : Bytes → Prop}

omit [Target] in
/-- What a child became starts with the same byte. -/
theorem exists_pfx (h : Pruned room c c' P) (hne : c.pfx.bytes ≠ []) (hkey : c.key = b.toNat) :
    ∃ t, c'.pfx.bytes = b :: t := by
  obtain ⟨t, ht⟩ := exists_pfx_of_key_eq hne hkey
  obtain ⟨u, hu⟩ := h.pfx
  exact ⟨t ++ u, by rw [← hu, ht]; rfl⟩

omit [Target] in
/-- A rearrangement that keeps the entries goes on pruning. -/
theorem trans {n' n'' : Node T} (h : Pruned room n n' P) (hwf : Wf room n'')
    (hpfx : n'.pfx.bytes <+: n''.pfx.bytes) (hent : ∀ e, e ∈ n''.entries ↔ e ∈ n'.entries) :
    Pruned room n n'' P where
  wf := hwf
  pfx := h.pfx.trans hpfx
  drop k v := by rw [hent, h.drop]

omit [Target] in
/-- **Pruning a child prunes the node.** -/
theorem setChildByPos (hwf : Wf room n) (hc : c ∈ n.children) (hkey : c.key = b.toNat)
    (hP : ∀ t, P t → c.pfx.bytes <+: t) (h : Pruned (room - n.pfx.bytes.length) c c' P) :
    Pruned room n (n.setChildByPos (childPosFromByte b) c') (Past n.pfx.bytes P) := by
  have hne := hwf.agrees.nonempty hc
  obtain ⟨t', ht'⟩ := h.exists_pfx hne hkey
  have hne' : c'.pfx.bytes ≠ [] := by simp [ht']
  have hkey' := key_eq_of_pfx ht'
  refine ⟨hwf.setChildByPos hc hkey h.wf hne' hkey', ?_, fun k v => ?_⟩
  · rw [Node.pfx, Node.pfx, header_setChildByPos]
  · rw [hwf.agrees.mem_entries_setChildByPos hc hkey hne' hkey']
    constructor
    · rintro (⟨k', rfl, he⟩ | ⟨he, hnot⟩)
      · obtain ⟨he, hPk⟩ := (h.drop k' v).mp he
        refine ⟨((hwf.agrees.mem_branch hc hkey).mp ⟨k', rfl, he⟩).1, ?_⟩
        rintro ⟨t, ht, hPt⟩
        rw [List.append_cancel_left ht] at hPk
        exact hPk hPt
      · refine ⟨he, ?_⟩
        rintro ⟨t, rfl, hPt⟩
        obtain ⟨t₀, ht₀⟩ := exists_pfx_of_key_eq hne hkey
        obtain ⟨u, rfl⟩ := hP t hPt
        exact hnot ⟨t₀ ++ u, by simp [ht₀]⟩
    · rintro ⟨he, hnot⟩
      by_cases hbranch : n.pfx.bytes ++ [b] <+: k
      · obtain ⟨k', rfl, he'⟩ := (hwf.agrees.mem_branch hc hkey).mpr ⟨he, hbranch⟩
        exact Or.inl ⟨k', rfl, (h.drop k' v).mpr ⟨he', fun hPk => hnot ⟨k', rfl, hPk⟩⟩⟩
      · exact Or.inr ⟨he, hbranch⟩

end Pruned

/-! ## Full nodes on a path -/

omit [Target] in
/-- The nodes on a path from a full root are full. -/
theorem Path.full {j : ℕ} {root n : Node T} {visited : Visited T} {k : Bytes}
    (h : Path root n visited k) (hroot : Full j root) : Full j n := by
  induction h with
  | root => exact hroot
  | child _ hc _ ih => exact ih.child hc

/-- The parent at the front of a path is not the root, has no value, and has
one child: `compress` leaves it there when it takes that child away. -/
def Stuck (visited : Visited T) : Prop :=
  ∃ p pos f rest, visited = (p, pos) :: f :: rest ∧ p.val = none ∧ p.children.length = 1

omit [Target] in
/-- A compressed tree has no valueless node with one child. -/
theorem Path.not_stuck {root n : Node T} {visited : Visited T} {k : Bytes}
    (h : Path root n visited k) (hroot : Full 2 root) : ¬ Stuck visited := by
  rintro ⟨p, pos, f, rest, rfl, hval, hone⟩
  cases h with
  | child hp hc hckey =>
    rcases (hp.full hroot).self with hsome | hlen
    · simp [hasVal, hval] at hsome
    · omega

/-- **What the node at the end of a path may have become** for `compress` to
leave full nodes only: the root with full children, or a full node, or a dead
one that is not stuck. -/
structure Mendable (j : ℕ) (n' : Node T) (visited : Visited T) : Prop where
  children : ∀ c ∈ n'.children, Full j c
  self : visited ≠ [] → Full j n' ∨ Dead n'
  stuck : Dead n' → ¬ Stuck visited

namespace TrieMap

omit [Target] in
/-- **Bringing a path up to date** prunes the root of what the node at its
end lost, and leaves it full if that node is. -/
theorem plug_spec {room : ℕ} {root n : Node T} {visited : Visited T} {k : Bytes}
    (hpath : Path root n visited k) (hroot : Wf room root) {n' : Node T} {P : Bytes → Prop}
    (hP : ∀ t, P t → n.pfx.bytes <+: t) (h : Pruned (room - k.length) n n' P) :
    Pruned room root (plug n' visited) (Past k P)
      ∧ ∀ j, Full j root → Full j n' → Full j (plug n' visited) := by
  induction hpath generalizing n' P with
  | root => exact ⟨⟨h.wf, h.pfx, fun k v => by rw [plug, h.drop]; simp [Past]⟩, fun _ _ hn' => hn'⟩
  | @child n c visited k b hpath hc hkey ih =>
    rw [List.length_append, ← Nat.sub_sub] at h
    have hwf := hpath.wf hroot
    have hn := Pruned.setChildByPos hwf hc hkey hP h
    obtain ⟨hres, hfull⟩ := ih (fun t ⟨u, hu, _⟩ => ⟨u, hu.symm⟩) hn
    obtain ⟨t, ht⟩ := h.exists_pfx (hwf.agrees.nonempty hc) hkey
    refine ⟨⟨hres.wf, hres.pfx, fun k v => by rw [plug, hres.drop, past_append]⟩,
      fun j hr hn' => hfull j hr ?_⟩
    exact (hpath.full hr).setChildByPos hwf.agrees hc hkey (by simp [ht]) (key_eq_of_pfx ht) hn'

/-! ## Merging -/

omit [Target] in
/-- A node that took in its only child is well formed. -/
theorem wf_merge {room : ℕ} {n c n' : Node T} (hwf : Wf room n) (hcs : n.children = [c])
    (hpfx : n'.pfx.bytes = n.pfx.bytes ++ c.pfx.bytes) (hcs' : n'.children = c.children)
    (hag : n'.Agrees) : Wf room n' := by
  have hc : Wf (room - n.pfx.bytes.length) c := hwf.child (by simp [hcs])
  have hlen := hwf.len_le
  have hlenc := hc.len_le
  refine Wf.intro (by rw [hpfx, List.length_append]; omega) hag fun x hx => ?_
  rw [hpfx, List.length_append, ← Nat.sub_sub]
  exact hc.child (hcs' ▸ hx)

omit [Target] in
/-- **A node and its only child have the entries of the node they merge
into.** -/
theorem mem_entries_merge {n c n' : Node T} (hval : n.val = none) (hcs : n.children = [c])
    (hpfx : n'.pfx.bytes = n.pfx.bytes ++ c.pfx.bytes) (hval' : n'.val = c.val)
    (hcs' : n'.children = c.children) (e : Bytes × T) : e ∈ n'.entries ↔ e ∈ n.entries :=
  (mem_entries_split (m := n.pfx.bytes.length) (by rw [hpfx, List.drop_left]) hval'.symm
    hcs'.symm (by rw [hpfx, List.take_left]) hval hcs e).symm

/-- **What a node and its only child merge into**: one node with both
prefixes, and the value and the children of the child. -/
structure Merged (room : ℕ) (n c n' : Node T) : Prop where
  wf : Wf room n'
  pfx_eq : n'.pfx.bytes = n.pfx.bytes ++ c.pfx.bytes
  val_eq : n'.val = c.val
  children_eq : n'.children = c.children
  entries : ∀ e, e ∈ n'.entries ↔ e ∈ n.entries

omit [Target] in
/-- Merging leaves a full node when the child is one. -/
theorem Merged.full {j room : ℕ} {n c n' : Node T} (h : Merged room n c n') (hc : Full j c) :
    Full j n' := by
  refine Full.intro ?_ ?_
  · rw [hasVal, h.val_eq, h.children_eq]
    exact hc.self
  · rw [h.children_eq]
    exact fun x => hc.child

omit [Target] in
/-- Two prefixes on a path are within the room together. -/
theorem length_append_le {room : ℕ} {n c : Node T} (hwf : Wf room n) (hc : c ∈ n.children) :
    (n.pfx.bytes ++ c.pfx.bytes).length ≤ room := by
  have hlen := hwf.len_le
  have hlenc := (hwf.child hc).len_le
  rw [List.length_append]
  omega

/-- **Merging a parent with its only child.** -/
theorem mergeChild_spec {room : ℕ} {n c : Node T} (hwf : Wf room n) (hval : n.val = none)
    (hcs : n.children = [c]) : Returns room (mergeChild n) (Merged room n c) := by
  have hc : c ∈ n.children := by simp [hcs]
  obtain ⟨b, bs, hb⟩ := List.exists_cons_of_ne_nil (hwf.agrees.nonempty hc)
  obtain ⟨hrem, hag, hlen, hmem⟩ := hwf.agrees.removeChild hc (key_eq_of_pfx hb)
  have hhdr := header_removeChild n (childPosFromByte b)
  simp only [mergeChild, hwf.agrees.childPosFromIdx_zero hcs hb, Rust.ok_bind, hrem,
    Rust.unwrap_some]
  generalize (n.removeChild (childPosFromByte b)).2 = p at *
  have hppfx : p.pfx = n.pfx := by rw [pfx, hhdr, pfx]
  have hpval : p.val = none := by rw [Node.val, hhdr]; exact hval
  have hpcs : p.children = [] := by
    rw [hcs, List.length_singleton] at hlen
    exact List.length_eq_zero_iff.mp (by omega)
  rw [hppfx]
  refine (Returns.fromSlices (length_append_le hwf hc)).bind fun newPrefix hnew => ?_
  obtain ⟨q, hq, hqpfx, hqval, hqcs, hqag, htake⟩ :
      ∃ q, (c.transferChildren (p.setPfx newPrefix)).2 = q
        ∧ q.pfx.bytes = n.pfx.bytes ++ c.pfx.bytes ∧ q.val = none ∧ q.children = c.children
        ∧ q.Agrees
        ∧ (c.transferChildren (p.setPfx newPrefix)).1.takeVal.1 = c.val := by
    cases c with
    | leaf h =>
      exact ⟨_, rfl, by rw [transferChildren, pfx_setPfx, hnew],
        by rw [transferChildren, val_setPfx, hpval],
        by rw [transferChildren, children_setPfx, hpcs]; rfl, agrees_setHeader.mpr hag, rfl⟩
    | internal h bitmap cs =>
      refine ⟨_, rfl, ?_, ?_, rfl, (hwf.child hc).agrees, rfl⟩
      · show (p.setPfx _).pfx.bytes = _
        rw [pfx_setPfx, hnew]
      · show (p.setPfx _).val = _
        rw [val_setPfx, hpval]
  have hmerged : ∀ n', n'.pfx.bytes = n.pfx.bytes ++ c.pfx.bytes → n'.val = c.val →
      n'.children = c.children → n'.Agrees → Merged room n c n' := fun n' h₁ h₂ h₃ h₄ =>
    ⟨wf_merge hwf hcs h₁ h₃ h₄, h₁, h₂, h₃, mem_entries_merge hval hcs h₁ h₂ h₃⟩
  simp only [htake, hq]
  cases hv : c.val with
  | none => exact hmerged q hqpfx (hqval.trans hv.symm) hqcs hqag
  | some v =>
    exact hmerged (q.setVal v) (by rw [pfx_setVal, hqpfx]) ((val_setVal q v).trans hv.symm)
      (by rw [children_setVal, hqcs]) (agrees_setHeader.mpr hqag)

/-! ## The way back -/

/-- The parent of a node that has become `cur`, which is removed if there is
nothing left of it: the first half of a turn of the loop of `compress`. -/
def dropIfDead (cur parent : Node T) (childPos : ChildPos) : Node T :=
  let parent := parent.setChildByPos childPos cur
  if cur.lenChildren = 0 ∧ cur.hasVal = false then (parent.removeChild childPos).2 else parent

omit [Target] in
/-- **What the first half of a turn leaves**: the header, and the children
but for the one on the path, which is there only when it is not dead. -/
theorem dropIfDead_spec {room : ℕ} {n c c' : Node T} {b : UInt8} {P : Bytes → Prop}
    (hwf : Wf room n) (hc : c ∈ n.children) (hkey : c.key = b.toNat)
    (hP : ∀ t, P t → c.pfx.bytes <+: t) (h : Pruned (room - n.pfx.bytes.length) c c' P)
    {n' : Node T} (hn' : n' = dropIfDead c' n (childPosFromByte b)) :
    n'.header = n.header ∧ Pruned room n n' (Past n.pfx.bytes P)
      ∧ (∀ x ∈ n'.children, (x = c' ∧ ¬ Dead c') ∨ x ∈ n.children)
      ∧ (Dead c' → n'.children.length + 1 = n.children.length)
      ∧ (¬ Dead c' → n'.children.length = n.children.length) := by
  obtain ⟨t, ht⟩ := h.exists_pfx (hwf.agrees.nonempty hc) hkey
  have hkey' := key_eq_of_pfx ht
  have hpruned := Pruned.setChildByPos hwf hc hkey hP h
  obtain ⟨hag, hmem⟩ := hwf.agrees.setChildByPos hc hkey (by simp [ht]) hkey'
  have hdead := dead_iff h.wf.agrees
  have hlen := length_children_setChildByPos n (childPosFromByte b) c'
  simp only [dropIfDead] at hn'
  by_cases hd : Dead c'
  · rw [if_pos (hdead.mpr hd)] at hn'
    have hc' : c' ∈ (n.setChildByPos (childPosFromByte b) c').children := (hmem c').mpr (Or.inl rfl)
    obtain ⟨_, hag', hlen', hmem'⟩ := hag.removeChild hc' hkey'
    have hhdr : n'.header = n.header := by rw [hn', header_removeChild, header_setChildByPos]
    rw [← hn'] at hag' hlen' hmem'
    refine ⟨hhdr, hpruned.trans (hpruned.wf.of_children_eq ?_ hag' fun x hx => ((hmem' x).mp hx).1)
      ?_ fun e => ?_, fun x hx => ?_, fun _ => by omega, fun hnd => absurd hd hnd⟩
    · rw [pfx, pfx, hhdr, header_setChildByPos]
    · rw [pfx, pfx, hhdr, header_setChildByPos]
    · -- the branch that goes has no entries
      obtain ⟨k, v⟩ := e
      rw [hn', hag.mem_entries_removeChild hc' hkey', and_iff_left_iff_imp]
      rintro he hbranch
      obtain ⟨k', _, he'⟩ := (hag.mem_branch hc' hkey').mpr ⟨he, hbranch⟩
      exact hd.not_mem_entries _ he'
    · obtain ⟨hx, hne⟩ := (hmem' x).mp hx
      exact ((hmem x).mp hx).imp (fun heq => absurd (heq ▸ hkey') hne) And.left
  · rw [if_neg (mt hdead.mp hd)] at hn'
    subst hn'
    refine ⟨header_setChildByPos _ _ _, hpruned, fun x hx => ?_, fun h => absurd h hd,
      fun _ => hlen⟩
    exact ((hmem x).mp hx).imp (fun heq => ⟨heq, hd⟩) And.left

/-- A turn of the loop of `compress` is the first half, and a merge when one
child and no value are left. -/
theorem compressParent_eq {room : ℕ} {n c c' : Node T} {b : UInt8} {P : Bytes → Prop}
    (hwf : Wf room n) (hc : c ∈ n.children) (hkey : c.key = b.toNat)
    (h : Pruned (room - n.pfx.bytes.length) c c' P) :
    compressParent c' n (childPosFromByte b)
      = (let n' := dropIfDead c' n (childPosFromByte b)
        if n'.lenChildren = 1 ∧ n'.hasVal = false then do
          let parent ← mergeChild n'
          .ok (parent, true)
        else .ok (n', false)) := by
  obtain ⟨t, ht⟩ := h.exists_pfx (hwf.agrees.nonempty hc) hkey
  have hkey' := key_eq_of_pfx ht
  obtain ⟨hag, hmem⟩ := hwf.agrees.setChildByPos hc hkey (by simp [ht]) hkey'
  have hget := hag.getChildByPos_eq ((hmem c').mpr (Or.inl rfl)) hkey'
  simp only [compressParent, hget, Rust.unwrap_some, Rust.ok_bind]
  rfl

/-- **A turn of the loop of `compress`** prunes the parent of what the child
lost. It leaves a full parent full, unless that had no value and only the dead
child: then it is dead in its turn, and the loop stops there. -/
theorem compressParent_spec {room : ℕ} {n c c' : Node T} {b : UInt8} {P : Bytes → Prop}
    (hwf : Wf room n) (hc : c ∈ n.children) (hkey : c.key = b.toNat)
    (hP : ∀ t, P t → c.pfx.bytes <+: t) (h : Pruned (room - n.pfx.bytes.length) c c' P) :
    Returns room (compressParent c' n (childPosFromByte b)) fun r =>
      Pruned room n r.1 (Past n.pfx.bytes P)
        ∧ ∀ j ≤ 2, Full j n → Full j c' ∨ Dead c' →
          Full j r.1
            ∨ (Dead r.1 ∧ r.2 = false ∧ Dead c' ∧ n.val = none ∧ n.children.length = 1) := by
  rw [compressParent_eq hwf hc hkey h]
  obtain ⟨hhdr, hpruned, hmem, hdead, halive⟩ := dropIfDead_spec hwf hc hkey hP h rfl
  generalize dropIfDead c' n (childPosFromByte b) = p at *
  have hval : p.val = n.val := by rw [Node.val, hhdr, Node.val]
  have hlen := hpruned.wf.agrees.lenChildren_eq
  have hkids : ∀ j, Full j n → Full j c' ∨ Dead c' → ∀ x ∈ p.children, Full j x := by
    intro j hfull hc' x hx
    rcases hmem x hx with ⟨rfl, hnd⟩ | hx
    · exact hc'.resolve_right hnd
    · exact hfull.child hx
  dsimp only
  split_ifs with hone
  · -- the parent takes its only child in
    obtain ⟨hone, hnone⟩ := hone
    obtain ⟨x, hx⟩ := List.length_eq_one_iff.mp (hlen ▸ hone)
    rw [hasVal, Option.isSome_eq_false_iff, Option.isNone_iff_eq_none] at hnone
    refine (mergeChild_spec hpruned.wf hnone hx).bind fun q hq =>
      ⟨hpruned.trans hq.wf (hq.pfx_eq ▸ List.prefix_append _ _) hq.entries, fun j _ hfull hc' => ?_⟩
    exact Or.inl (hq.full (hkids j hfull hc' x (by simp [hx])))
  · refine ⟨hpruned, fun j hj hfull hc' => ?_⟩
    have hself := hfull.self
    rw [hasVal, ← hval] at hself
    rw [hlen, hasVal] at hone
    have hkids := hkids j hfull hc'
    by_cases hd : Dead c'
    · have hcount := hdead hd
      by_cases hv : p.val.isSome = true
      · exact Or.inl (Full.intro (Or.inl hv) hkids)
      · have hnone : p.val = none := by simpa using hv
        by_cases hzero : p.children.length = 0
        · exact Or.inr ⟨⟨hnone, List.length_eq_zero_iff.mp hzero⟩, rfl, hd, hval ▸ hnone, by omega⟩
        · have : p.children.length ≠ 1 := fun h1 => hone ⟨h1, by simpa using hv⟩
          have hle : j ≤ p.children.length := by omega
          exact Or.inl (Full.intro (Or.inr hle) hkids)
    · exact Or.inl (Full.intro (by rw [hasVal, halive hd]; exact hself) hkids)

/-- **The loop of `compress`** prunes the root of what the node at the end of
the path lost, and leaves full nodes only when that node may be mended. -/
theorem compressLoop_spec {room : ℕ} {root n : Node T} {visited : Visited T} {k : Bytes}
    (hpath : Path root n visited k) (hroot : Wf room root) {n' : Node T} {P : Bytes → Prop}
    (hP : ∀ t, P t → n.pfx.bytes <+: t) (h : Pruned (room - k.length) n n' P) :
    Returns room (compressLoop n' visited) fun root' => Pruned room root root' (Past k P)
      ∧ ∀ j, 0 < j → j ≤ 2 → Full j root → Mendable j n' visited →
        ∀ c ∈ root'.children, Full j c := by
  induction hpath generalizing n' P with
  | root =>
    exact ⟨⟨h.wf, h.pfx, fun k v => by rw [h.drop]; simp [Past]⟩, fun _ _ _ _ hm => hm.children⟩
  | @child n c visited k b hpath hc hkey ih =>
    rw [List.length_append, ← Nat.sub_sub] at h
    have hP' : ∀ t, Past n.pfx.bytes P t → n.pfx.bytes <+: t := fun t ⟨u, hu, _⟩ => ⟨u, hu.symm⟩
    rw [compressLoop]
    refine ((compressParent_spec (hpath.wf hroot) hc hkey hP h).mono (Nat.sub_le _ _)).bind ?_
    rintro ⟨p, goOn⟩ ⟨hpruned, hfull⟩
    have hself : ∀ j ≤ 2, Full j root → Mendable j n' ((n, childPosFromByte b) :: visited) →
        Full j p ∨ (Dead p ∧ goOn = false ∧ visited = []) := by
      intro j hj hr hm
      refine (hfull j hj (hpath.full hr) (hm.self (List.cons_ne_nil _ _))).imp_right ?_
      rintro ⟨hdp, hgo, hd, hval, hone⟩
      refine ⟨hdp, hgo, ?_⟩
      cases visited with
      | nil => rfl
      | cons f rest => exact absurd ⟨n, _, f, rest, rfl, hval, hone⟩ (hm.stuck hd)
    have hlift : ∀ root', Pruned room root root' (Past k (Past n.pfx.bytes P)) →
        Pruned room root root' (Past (k ++ n.pfx.bytes) P) := fun root' hr =>
      ⟨hr.wf, hr.pfx, fun k v => by rw [hr.drop, past_append]⟩
    cases goOn with
    | true =>
      refine (ih hP' hpruned).imp fun root' ⟨hr, hkids⟩ =>
        ⟨hlift root' hr, fun j hj₀ hj hf hm => ?_⟩
      have hfp := (hself j hj hf hm).resolve_right fun ⟨_, hgo, _⟩ => by cases hgo
      exact hkids j hj₀ hj hf ⟨fun x => hfp.child, fun _ => Or.inl hfp,
        fun hd => absurd hd (hfp.not_dead hj₀)⟩
    | false =>
      obtain ⟨hr, hplug⟩ := plug_spec hpath hroot hP' hpruned
      refine ⟨hlift _ hr, fun j _ hj hf hm => ?_⟩
      rcases hself j hj hf hm with hfp | ⟨hdp, _, rfl⟩
      · exact fun x => (hplug j hf hfp).child
      · exact fun x hx => by simp [plug, hdp.2] at hx

/-- **The end of `compress`** changes no entry, and mends the root. -/
theorem compressRoot_spec {room : ℕ} {root : Node T} (hwf : Wf room root) :
    Returns room (compressRoot root) fun res => (∀ r, res = some r → Wf room r)
      ∧ (∀ e, e ∈ entries ⟨res⟩ ↔ e ∈ root.entries)
      ∧ ∀ j ≤ 2, (∀ c ∈ root.children, Full j c) → ∀ r, res = some r → Full j r := by
  have hlen := hwf.agrees.lenChildren_eq
  unfold compressRoot
  by_cases hval : root.hasVal = true
  · rw [if_pos hval]
    exact ⟨fun r hr => Option.some.inj hr ▸ hwf, fun e => Iff.rfl,
      fun j _ h r hr => Option.some.inj hr ▸ Full.intro (Or.inl hval) h⟩
  rw [if_neg hval]
  have hnone : root.val = none := by simpa [hasVal] using hval
  by_cases hzero : root.lenChildren = 0
  · rw [if_pos hzero]
    have hdead : Dead root := ⟨hnone, List.length_eq_zero_iff.mp (hlen ▸ hzero)⟩
    exact ⟨by simp, fun e => by simp [hdead.not_mem_entries], by simp⟩
  rw [if_neg hzero]
  by_cases hone : root.lenChildren = 1
  swap
  · rw [if_neg hone]
    exact ⟨fun r hr => Option.some.inj hr ▸ hwf, fun e => Iff.rfl,
      fun j hj h r hr => Option.some.inj hr ▸ Full.intro (Or.inr (by omega)) h⟩
  rw [if_pos hone]
  obtain ⟨c, hcs⟩ := List.length_eq_one_iff.mp (hlen ▸ hone)
  have hc : c ∈ root.children := by simp [hcs]
  obtain ⟨b, bs, hb⟩ := List.exists_cons_of_ne_nil (hwf.agrees.nonempty hc)
  obtain ⟨hrem, _⟩ := hwf.agrees.removeChild hc (key_eq_of_pfx hb)
  have hpfx : (root.removeChild (childPosFromByte b)).2.pfx = root.pfx := by
    rw [pfx, header_removeChild, pfx]
  simp only [hwf.agrees.childPosFromIdx_zero hcs hb, Rust.ok_bind, hrem, Rust.unwrap_some, hpfx]
  refine (Returns.fromSlices (length_append_le hwf hc)).bind fun newPrefix hnew => ?_
  have hbytes : (c.setPfx newPrefix).pfx.bytes = root.pfx.bytes ++ c.pfx.bytes := by
    rw [pfx_setPfx, hnew]
  have hmerged : Merged room root c (c.setPfx newPrefix) :=
    ⟨wf_merge hwf hcs hbytes (children_setPfx _ _) (agrees_setHeader.mpr (hwf.child hc).agrees),
      hbytes, val_setPfx _ _, children_setPfx _ _,
      mem_entries_merge hnone hcs hbytes (val_setPfx _ _) (children_setPfx _ _)⟩
  exact ⟨fun r hr => Option.some.inj hr ▸ hmerged.wf, hmerged.entries,
    fun j _ h r hr => Option.some.inj hr ▸ hmerged.full (h c hc)⟩

/-- **`compress`**: the map loses what the node at the end of the path lost,
and has full nodes only when that node may be mended. -/
theorem compress_spec {room : ℕ} {root n : Node T} {visited : Visited T} {k : Bytes}
    (hpath : Path root n visited k) (hroot : Wf room root) {n' : Node T} {P : Bytes → Prop}
    (hP : ∀ t, P t → n.pfx.bytes <+: t) (h : Pruned (room - k.length) n n' P) :
    Returns room (compress n' visited) fun res => (∀ r, res = some r → Wf room r)
      ∧ (∀ k' v, (k', v) ∈ entries ⟨res⟩ ↔ (k', v) ∈ root.entries ∧ ¬ Past k P k')
      ∧ ∀ j, 0 < j → j ≤ 2 → Full j root → Mendable j n' visited → AllFull j ⟨res⟩ := by
  rw [compress]
  refine (compressLoop_spec hpath hroot hP h).bind fun root' ⟨hpruned, hkids⟩ => ?_
  refine (compressRoot_spec hpruned.wf).imp fun res ⟨hwf, hent, hfull⟩ => ⟨hwf, fun k' v => ?_,
    fun j hj₀ hj hf hm => hfull j hj (hkids j hj₀ hj hf hm)⟩
  rw [hent, hpruned.drop]

/-! ## `remove` -/

omit [Target] in
/-- Taking the value of a node prunes it of its own key. -/
theorem pruned_takeVal {room : ℕ} {n : Node T} (hwf : Wf room n) :
    Pruned room n n.takeVal.2 (· = n.pfx.bytes) where
  wf := hwf.takeVal
  pfx := by rw [pfx_takeVal]
  drop k v := by
    have hupd : EntriesUpdate n n.takeVal.2 n.pfx.bytes none :=
      EntriesUpdate.setHeader hwf.agrees
    rw [hupd k v]
    simp [and_comm]

/-- **The walk of `remove`** fails when the key is not stored, and else stops
at the node whose value it names. -/
theorem removeLoop_spec {fuel room : ℕ} {root n : Node T} {visited : Visited T} {k key data : Bytes}
    (hroot : Wf room root) (hpath : Path root n visited k) (hkey : key = k ++ data)
    (hfuel : Enough fuel n data) (hin : ∀ v, (key, v) ∈ root.entries ↔ (data, v) ∈ n.entries) :
    (removeLoop fuel n data visited = .ok none ∧ ∀ v, (key, v) ∉ root.entries)
      ∨ ∃ c visited' k', removeLoop fuel n data visited = .ok (some (c, visited'))
        ∧ Path root c visited' k' ∧ key = k' ++ c.pfx.bytes
        ∧ ∀ v, (key, v) ∈ root.entries ↔ c.val = some v := by
  induction fuel generalizing n visited k data with
  | zero => exact absurd hfuel.1 (lt_irrefl 0)
  | succ fuel ih =>
    have hwf := hpath.wf hroot
    cases walkStep hwf hfuel with
    | mismatch hlcp hpre =>
      refine Or.inl ⟨by simp [removeLoop, hlcp], fun v hv => hpre ?_⟩
      exact pfx_prefix_of_mem_entries ((hin v).mp hv)
    | ends hlcp hdata =>
      subst hdata
      refine Or.inr ⟨n, visited, k, by simp [removeLoop, hlcp, Prefix.len], hpath, hkey,
        fun v => ?_⟩
      rw [hin, hwf.agrees.mem_entries_self]
    | missing b bs hlcp hdata hexists habsent =>
      subst hdata
      refine Or.inl ⟨?_, fun v hv => ?_⟩
      · simp [removeLoop, hlcp, Prefix.len, sliceFrom_append, Rust.index, hexists]
      · obtain ⟨c, hc, hckey, _⟩ := hwf.agrees.mem_entries_cons.mp ((hin v).mp hv)
        exact habsent c hc hckey
    | child b bs c hlcp hdata hexists hget hc hckey hwfc hfuelc =>
      subst hdata
      have hstep : removeLoop (fuel + 1) n (n.pfx.bytes ++ b :: bs) visited
          = removeLoop fuel c (b :: bs) ((n, childPosFromByte b) :: visited) := by
        simp [removeLoop, hlcp, Prefix.len, sliceFrom_append, Rust.index, hexists, hget]
      rw [hstep]
      refine ih (hpath.child hc hckey) (by rw [hkey, List.append_assoc]) hfuelc fun v => ?_
      rw [hin, hwf.agrees.mem_entries_child hc hckey]

/-- **`remove`** returns the value stored under the key, and takes that entry
out and no other. The map keeps full nodes only if the node of the key may be
mended without its value. -/
theorem remove_spec {room : ℕ} {m : TrieMap T} (hm : m.Valid room) (key : Bytes) :
    Returns room (m.remove key) fun p => p.2.Valid room
      ∧ (∀ v, p.1 = some v ↔ (key, v) ∈ m.entries)
      ∧ (∀ k v, (k, v) ∈ p.2.entries ↔ (k, v) ∈ m.entries ∧ k ≠ key)
      ∧ ∀ j, 0 < j → j ≤ 2 → m.AllFull j → (∀ root c visited k, m.root = some root →
          Path root c visited k → key = k ++ c.pfx.bytes → c.val ≠ none →
          Mendable j c.takeVal.2 visited) → p.2.AllFull j := by
  -- where the key is not stored the map stays as it is
  have habsent : (∀ v, (key, v) ∉ m.entries) →
      (∀ v, (none : Option T) = some v ↔ (key, v) ∈ m.entries)
        ∧ ∀ k v, (k, v) ∈ m.entries ↔ (k, v) ∈ m.entries ∧ k ≠ key := by
    intro h
    refine ⟨fun v => by simp [h], fun k v => ⟨fun he => ⟨he, ?_⟩, And.left⟩⟩
    rintro rfl
    exact h v he
  have hsame : (∀ v, (key, v) ∉ m.entries) → m.remove key = .ok (none, m) →
      Returns room (m.remove key) fun p => p.2.Valid room
        ∧ (∀ v, p.1 = some v ↔ (key, v) ∈ m.entries)
        ∧ (∀ k v, (k, v) ∈ p.2.entries ↔ (k, v) ∈ m.entries ∧ k ≠ key)
        ∧ ∀ j, 0 < j → j ≤ 2 → m.AllFull j → (∀ root c visited k, m.root = some root →
            Path root c visited k → key = k ++ c.pfx.bytes → c.val ≠ none →
            Mendable j c.takeVal.2 visited) → p.2.AllFull j := by
    intro hno heq
    rw [heq]
    exact ⟨hm, (habsent hno).1, (habsent hno).2, fun _ _ _ hf _ => hf⟩
  by_cases hne : key = []
  · exact hsame (fun v => hne ▸ hm.nil v) (by simp [remove, hne])
  obtain ⟨root⟩ := m
  cases root with
  | none => exact hsame (by simp) (by simp [remove])
  | some root =>
    have hwf := hm.wf root rfl
    rcases removeLoop_spec hwf Path.root (List.nil_append key).symm (enough_walkBound root key)
      fun v => Iff.rfl with ⟨hloop, hno⟩ | ⟨c, visited, k, hloop, hpath, hkey, hval⟩
    · exact hsame hno (by simp [remove, hne, hloop])
    cases hc : c.val with
    | none =>
      refine hsame (fun v => ?_) (by simp [remove, hne, hloop, hc])
      rw [entries_some, hval, hc]
      simp
    | some w =>
      have hpast : ∀ k', Past k (· = c.pfx.bytes) k' ↔ k' = key := fun k' => by
        simp [Past, hkey]
      simp only [remove, if_neg hne, hloop, Rust.ok_bind, takeVal_fst, hc, Option.isNone_some,
        Bool.false_eq_true, if_false]
      refine (compress_spec hpath hwf (P := (· = c.pfx.bytes))
        (by rintro _ rfl; exact List.prefix_rfl) (pruned_takeVal (hpath.wf hwf))).bind
          fun res ⟨hwf', hent, hfull⟩ => ?_
      simp only [hpast] at hent
      refine ⟨⟨hwf', fun v hv => hm.nil v ((hent _ v).mp hv).1⟩, fun v => ?_, hent,
        fun j hj₀ hj hf hmend => hfull j hj₀ hj (hf root rfl)
          (hmend root c visited k rfl hpath hkey (by simp [hc]))⟩
      rw [entries_some, hval, hc]

/-! ## `remove_prefix` -/

/-- **The walk of `remove_prefix`** fails when no key starts with the prefix,
and else stops at a node whose own prefix goes on from there, so that the keys
that start with it are the keys at and below this node. -/
theorem removePrefixLoop_spec {fuel room : ℕ} {root n : Node T} {visited : Visited T}
    {k key data : Bytes} (hroot : Wf room root) (hpath : Path root n visited k)
    (hkey : key = k ++ data) (hne : data ≠ []) (hfuel : Enough fuel n data)
    (hin : ∀ t v, (key ++ t, v) ∈ root.entries ↔ (data ++ t, v) ∈ n.entries) :
    (removePrefixLoop fuel n data visited = .ok none ∧ ∀ t v, (key ++ t, v) ∉ root.entries)
      ∨ ∃ c visited' k' r, removePrefixLoop fuel n data visited = .ok (some (c, visited'))
        ∧ Path root c visited' k' ∧ key = k' ++ r ∧ r ≠ [] ∧ r <+: c.pfx.bytes := by
  induction fuel generalizing n visited k data with
  | zero => exact absurd hfuel.1 (lt_irrefl 0)
  | succ fuel ih =>
    have hwf := hpath.wf hroot
    by_cases hfound : data <+: n.pfx.bytes
    · refine Or.inr ⟨n, visited, k, data, ?_, hpath, hkey, hne, hfound⟩
      have hlcp : Util.lcp n.pfx.bytes data = data.length := by
        rw [Util.lcp_eq_lcpLen, lcpLen_eq_length_right.mpr hfound]
      simp [removePrefixLoop, hlcp]
    have hlcp' : Util.lcp n.pfx.bytes data ≠ data.length := by
      rw [Util.lcp_eq_lcpLen]
      exact fun h => hfound (lcpLen_eq_length_right.mp h)
    cases walkStep hwf hfuel with
    | mismatch hlcp hpre =>
      refine Or.inl ⟨by simp [removePrefixLoop, hlcp, hlcp'], fun t v hv => ?_⟩
      -- the node's prefix and the data would be prefixes of one key
      have hpfx := pfx_prefix_of_mem_entries ((hin t v).mp hv)
      rcases List.prefix_or_prefix_of_prefix hpfx (List.prefix_append data t) with h | h
      · exact hpre h
      · exact hfound h
    | ends hlcp hdata => exact absurd (hdata ▸ List.prefix_rfl) hfound
    | missing b bs hlcp hdata hexists habsent =>
      subst hdata
      refine Or.inl ⟨?_, fun t v hv => ?_⟩
      · simp [removePrefixLoop, hlcp, Prefix.len, sliceFrom_append, Rust.index, hexists]
      · rw [hin, List.append_assoc, List.cons_append, hwf.agrees.mem_entries_cons] at hv
        obtain ⟨c, hc, hckey, _⟩ := hv
        exact habsent c hc hckey
    | child b bs c hlcp hdata hexists hget hc hckey hwfc hfuelc =>
      subst hdata
      have hstep : removePrefixLoop (fuel + 1) n (n.pfx.bytes ++ b :: bs) visited
          = removePrefixLoop fuel c (b :: bs) ((n, childPosFromByte b) :: visited) := by
        simp [removePrefixLoop, hlcp, Prefix.len, sliceFrom_append, Rust.index, hexists, hget]
      rw [hstep]
      refine ih (hpath.child hc hckey) (by rw [hkey, List.append_assoc]) (List.cons_ne_nil _ _)
        hfuelc fun t v => ?_
      rw [hin, List.append_assoc, List.cons_append, hwf.agrees.mem_entries_child hc hckey]

omit [Target] in
/-- Removing a child prunes a node of the keys that start with any part of
the child's prefix that names the child. -/
theorem pruned_removeChild {room : ℕ} {n c : Node T} {b : UInt8} (hwf : Wf room n)
    (hc : c ∈ n.children) (hkey : c.key = b.toNat) {r : Bytes} (hne : r ≠ [])
    (hr : r <+: c.pfx.bytes) :
    Pruned room n (n.removeChild (childPosFromByte b)).2 (n.pfx.bytes ++ r <+: ·) := by
  obtain ⟨_, hag, _, hmem⟩ := hwf.agrees.removeChild hc hkey
  have hpfx : (n.removeChild (childPosFromByte b)).2.pfx = n.pfx := by
    rw [pfx, header_removeChild, pfx]
  refine ⟨hwf.of_children_eq hpfx hag fun x hx => ((hmem x).mp hx).1, by rw [hpfx],
    fun k v => ?_⟩
  rw [hwf.agrees.mem_entries_removeChild hc hkey]
  refine and_congr_right fun he => not_congr ⟨fun hbranch => ?_, fun h => ?_⟩
  · -- a key in the branch goes on with the child's prefix
    obtain ⟨k', rfl, he'⟩ := (hwf.agrees.mem_branch hc hkey).mpr ⟨he, hbranch⟩
    exact (List.prefix_append_right_inj _).mpr (hr.trans (pfx_prefix_of_mem_entries he'))
  · obtain ⟨t, ht⟩ := exists_pfx_of_key_eq (hwf.agrees.nonempty hc) hkey
    obtain ⟨a, as, rfl⟩ := List.exists_cons_of_ne_nil hne
    obtain ⟨u, hu⟩ := hr
    rw [ht, List.cons_append, List.cons.injEq] at hu
    refine List.IsPrefix.trans ?_ h
    rw [List.prefix_append_right_inj, hu.1]
    exact ⟨as, rfl⟩

/-- **`remove_prefix`** takes out the entries whose keys start with the prefix
and no other. The map keeps full nodes only if the node that loses a child may
be mended without it. -/
theorem removePrefix_spec {room : ℕ} {m : TrieMap T} (hm : m.Valid room) (key : Bytes) :
    Returns room (m.removePrefix key) fun m' => m'.Valid room
      ∧ (∀ k v, (k, v) ∈ m'.entries ↔ (k, v) ∈ m.entries ∧ ¬ key <+: k)
      ∧ ∀ j, 0 < j → j ≤ 2 → m.AllFull j → (∀ root n c visited k b r, m.root = some root →
          Path root n visited k → c ∈ n.children → c.key = b.toNat → r ≠ [] → r <+: c.pfx.bytes →
          key = k ++ n.pfx.bytes ++ r → Mendable j (n.removeChild (childPosFromByte b)).2 visited) →
          m'.AllFull j := by
  by_cases hne : key = []
  · rw [removePrefix, if_pos hne]
    exact ⟨valid_none room, fun k v => by simp [hne], fun _ _ _ _ _ => allFull_none⟩
  rw [removePrefix, if_neg hne]
  obtain ⟨root⟩ := m
  cases root with
  | none => exact ⟨hm, fun k v => by simp, fun _ _ _ hf _ => hf⟩
  | some root =>
    have hwf := hm.wf root rfl
    dsimp only
    rcases removePrefixLoop_spec hwf Path.root (List.nil_append key).symm hne
      (enough_walkBound root key) fun t v => Iff.rfl with
      ⟨hloop, hno⟩ | ⟨c, visited, k, r, hloop, hpath, hkey, hr, hrpre⟩
    · rw [hloop]
      refine ⟨hm, fun k v => ⟨fun he => ⟨he, ?_⟩, And.left⟩, fun _ _ _ hf _ => hf⟩
      rintro ⟨t, rfl⟩
      exact hno t v he
    rw [hloop, Rust.ok_bind]
    cases hpath with
    | root =>
      refine ⟨valid_none room, fun k v => ?_, fun _ _ _ _ _ => allFull_none⟩
      rw [List.nil_append] at hkey
      simpa using fun he => hkey ▸ hrpre.trans (pfx_prefix_of_mem_entries he)
    | @child n c visited k b hpath hc hckey =>
      have hpast : ∀ k', Past k (n.pfx.bytes ++ r <+: ·) k' ↔ key <+: k' := by
        intro k'
        rw [hkey, List.append_assoc]
        constructor
        · rintro ⟨t, rfl, ht⟩
          exact (List.prefix_append_right_inj _).mpr ht
        · rintro ⟨u, rfl⟩
          exact ⟨n.pfx.bytes ++ r ++ u, by simp, List.prefix_append _ _⟩
      refine (compress_spec hpath hwf (P := (n.pfx.bytes ++ r <+: ·))
        (fun t ht => (List.prefix_append _ _).trans ht)
        (pruned_removeChild (hpath.wf hwf) hc hckey hr hrpre)).bind
          fun res ⟨hwf', hent, hfull⟩ => ?_
      simp only [hpast] at hent
      exact ⟨⟨hwf', fun v hv => hm.nil v ((hent _ v).mp hv).1⟩, hent,
        fun j hj₀ hj hf hmend => hfull j hj₀ hj (hf root rfl)
          (hmend root n c visited k b r rfl hpath hc hckey hr hrpre hkey)⟩

end TrieMap

end Trie
