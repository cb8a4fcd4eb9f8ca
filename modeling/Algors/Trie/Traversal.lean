import Algors.Trie.Refinement

/-!
# Traversal

`for_each_prefix` calls its argument in the course of a recursion that keeps a
stack of prefixes and their total length. `calls` is the list of the calls it
makes below a node; the traversal is the fold of its argument over that list.
With the searched prefix in front, the calls are the entries of the subtree
the prefix ends in, in their order, and that order is the lexicographic one:
a node comes before what is below it, and its children stand in increasing
order of first byte.
-/

namespace Trie

variable {T : Type}

open Node

/-! ## Entries in order -/

/-- Keys of an earlier child come first. -/
theorem Node.lt_of_key_lt {c c' : Node T} (hne : c.pfx.bytes ≠ []) (hne' : c'.pfx.bytes ≠ [])
    (h : c.key < c'.key) {e e' : Bytes × T} (he : e ∈ c.entries) (he' : e' ∈ c'.entries) :
    e.1 < e'.1 := by
  obtain ⟨a, as, ha⟩ := List.exists_cons_of_ne_nil hne
  obtain ⟨b, bs, hb⟩ := List.exists_cons_of_ne_nil hne'
  obtain ⟨t, ht⟩ := pfx_prefix_of_mem_entries he
  obtain ⟨t', ht'⟩ := pfx_prefix_of_mem_entries he'
  rw [key_eq_of_pfx ha, key_eq_of_pfx hb] at h
  rw [← ht, ← ht', ha, hb, List.cons_append, List.cons_append, List.cons_lt_cons_iff]
  exact Or.inl (UInt8.lt_iff_toNat_lt.mpr h)

/-- The entries of sorted siblings are sorted when those of each are. -/
theorem Node.entriesList_sorted {cs : List (Node T)} (hcs : cs.KeySorted key)
    (hne : ∀ c ∈ cs, c.pfx.bytes ≠ [])
    (hsorted : ∀ c ∈ cs, c.entries.Pairwise fun e e' => e.1 < e'.1) :
    (entriesList cs).Pairwise fun e e' => e.1 < e'.1 := by
  induction cs with
  | nil => exact List.Pairwise.nil
  | cons c cs ih =>
    obtain ⟨hlt, hcs⟩ := List.pairwise_cons.mp hcs
    rw [entriesList, List.pairwise_append]
    refine ⟨hsorted c (by simp), ih hcs (fun x hx => hne x (List.mem_cons_of_mem c hx))
      fun x hx => hsorted x (List.mem_cons_of_mem c hx), fun e he e' he' => ?_⟩
    obtain ⟨c', hc', he'⟩ := mem_entriesList.mp he'
    exact lt_of_key_lt (hne c (by simp)) (hne c' (List.mem_cons_of_mem c hc')) (hlt c' hc') he he'

/-- **The entries of a node stand in lexicographic order.** -/
theorem Node.Wf.entries_sorted {room : ℕ} {n : Node T} (h : Wf room n) :
    n.entries.Pairwise fun e e' => e.1 < e'.1 := by
  induction h with
  | @intro room n _ hag _ ih =>
    cases n with
    | leaf h =>
      rw [entries, ownEntry]
      cases h.val <;> simp
    | internal h bitmap cs =>
      have hkids := entriesList_sorted (Agrees.sorted hag) (fun c hc => hag.nonempty hc) ih
      rw [entries, List.pairwise_append, List.pairwise_map]
      refine ⟨?_, hkids.imp fun h => List.append_left_lt h, fun e he e' he' => ?_⟩
      · rw [ownEntry]
        cases h.val <;> simp
      · -- the own key comes before the keys that go on
        obtain ⟨hv, hk⟩ := mem_ownEntry.mp he
        obtain ⟨⟨k, v⟩, hkv, rfl⟩ := List.mem_map.mp he'
        obtain ⟨c, hc, hkv⟩ := mem_entriesList.mp hkv
        obtain ⟨t, ht⟩ := pfx_prefix_of_mem_entries hkv
        obtain ⟨b, bs, hb⟩ := List.exists_cons_of_ne_nil (hag.nonempty hc)
        have hlt : ([] : Bytes) < k := by rw [← ht, hb]; exact List.nil_lt_cons _ _
        rw [hk]
        calc h.pfx.bytes = h.pfx.bytes ++ [] := (List.append_nil _).symm
          _ < h.pfx.bytes ++ k := List.append_left_lt hlt

namespace TrieMap

/-! ## The calls -/

/-- The call for the value of a node. -/
def ownCall (node : Header T) (chunks : List Bytes) (currentLen : ℕ) : List (SuffixRef × T) :=
  (node.val.map fun v => (⟨chunks, currentLen⟩, v)).toList

mutual

/-- **The calls made below a node**, with the chunks and the length on the
way to it. -/
def calls : Node T → List Bytes → ℕ → List (SuffixRef × T)
  | .leaf h, chunks, currentLen => ownCall h chunks currentLen
  | .internal h _ cs, chunks, currentLen =>
    ownCall h chunks currentLen ++ callsList cs chunks currentLen

/-- The calls made below a list of siblings. -/
def callsList : List (Node T) → List Bytes → ℕ → List (SuffixRef × T)
  | [], _, _ => []
  | c :: cs, chunks, currentLen =>
    calls c (chunks ++ [c.pfx.bytes]) (currentLen + c.pfx.len) ++ callsList cs chunks currentLen

end

section

variable {σ : Type} (f : SuffixRef → T → σ → σ)

/-- Making a list of calls, one after the other. -/
def foldCalls (cs : List (SuffixRef × T)) (s : σ) : σ := cs.foldl (fun s c => f c.1 c.2 s) s

theorem foldCalls_append (cs cs' : List (SuffixRef × T)) (s : σ) :
    foldCalls f (cs ++ cs') s = foldCalls f cs' (foldCalls f cs s) := List.foldl_append

theorem visit_eq_foldCalls (node : Header T) (chunks : List Bytes) (currentLen : ℕ) (s : σ) :
    visit f node chunks currentLen s = foldCalls f (ownCall node chunks currentLen) s := by
  unfold visit ownCall
  cases node.val <;> rfl

/-- The loop over all children makes their calls. -/
theorem forEachChild_eq_foldCalls {cs : List (Node T)}
    (hcs : ∀ c ∈ cs, ∀ chunks currentLen s,
      forEachPrefixFromNode f c chunks currentLen s = foldCalls f (calls c chunks currentLen) s)
    (chunks : List Bytes) (currentLen : ℕ) (s : σ) :
    forEachChild f cs cs.length chunks currentLen s
      = foldCalls f (callsList cs chunks currentLen) s := by
  induction cs generalizing s with
  | nil => rfl
  | cons c cs ih =>
    rw [List.length_cons, forEachChild, hcs c (by simp),
      ih fun x hx => hcs x (List.mem_cons_of_mem c hx), callsList, foldCalls_append]

/-- **The recursion makes the calls of the node**, in order. -/
theorem forEachPrefixFromNode_eq_foldCalls {room : ℕ} {n : Node T} (h : Wf room n)
    (chunks : List Bytes) (currentLen : ℕ) (s : σ) :
    forEachPrefixFromNode f n chunks currentLen s = foldCalls f (calls n chunks currentLen) s := by
  induction h generalizing chunks currentLen s with
  | @intro room n _ hag _ ih =>
    cases n with
    | leaf h => rw [forEachPrefixFromNode, calls, visit_eq_foldCalls]
    | internal h bitmap cs =>
      have hlen : bitmap.lenChildren = cs.length := ChildrenAgree.lenChildren_eq_length hag
      rw [forEachPrefixFromNode, calls, foldCalls_append, hlen, ← visit_eq_foldCalls]
      exact forEachChild_eq_foldCalls f ih chunks currentLen _

end

theorem map_ownCall {r w : Bytes} {h : Header T} {chunks : List Bytes} {currentLen : ℕ}
    (hr : r ++ chunks.flatten = w ++ h.pfx.bytes) :
    (ownCall h chunks currentLen).map (fun c => (r ++ c.1.toVec, c.2))
      = (ownEntry h).map fun e => (w ++ e.1, e.2) := by
  unfold ownCall ownEntry
  cases h.val with
  | none => rfl
  | some v => simp [SuffixRef.toVec, hr]

mutual

/-- **The calls of a node are its entries**: with `r` in front of the chunks
what `w` and the node's prefix are together, the keys agree one by one. -/
theorem map_calls (n : Node T) {r w : Bytes} {chunks : List Bytes} (currentLen : ℕ)
    (hr : r ++ chunks.flatten = w ++ n.pfx.bytes) :
    (calls n chunks currentLen).map (fun c => (r ++ c.1.toVec, c.2))
      = n.entries.map fun e => (w ++ e.1, e.2) := by
  cases n with
  | leaf h => exact map_ownCall hr
  | internal h bitmap cs =>
    have hown : r ++ chunks.flatten = w ++ h.pfx.bytes := hr
    rw [calls, Node.entries, List.map_append, List.map_append, map_ownCall hown,
      map_callsList cs currentLen hown, List.map_map]
    simp [Function.comp_def]

theorem map_callsList (cs : List (Node T)) {r w : Bytes} {chunks : List Bytes} (currentLen : ℕ)
    (hr : r ++ chunks.flatten = w) :
    (callsList cs chunks currentLen).map (fun c => (r ++ c.1.toVec, c.2))
      = (entriesList cs).map fun e => (w ++ e.1, e.2) := by
  cases cs with
  | nil => rfl
  | cons c cs =>
    rw [callsList, entriesList, List.map_append, List.map_append, map_callsList cs currentLen hr,
      map_calls c (w := w) _ (by simp [← hr])]

end

mutual

/-- **The length shown is the length of the chunks.** -/
theorem len_of_mem_calls (n : Node T) {chunks : List Bytes} {currentLen : ℕ}
    (hlen : currentLen = chunks.flatten.length) :
    ∀ c ∈ calls n chunks currentLen, c.1.len = c.1.chunks.flatten.length := by
  cases n with
  | leaf h =>
    intro c hc
    obtain ⟨v, _, rfl⟩ : ∃ v, h.val = some v ∧ (⟨chunks, currentLen⟩, v) = c := by
      simpa [calls, ownCall] using hc
    exact hlen
  | internal h bitmap cs =>
    intro c hc
    rw [calls, List.mem_append] at hc
    rcases hc with hc | hc
    · obtain ⟨v, _, rfl⟩ : ∃ v, h.val = some v ∧ (⟨chunks, currentLen⟩, v) = c := by
        simpa [ownCall] using hc
      exact hlen
    · exact len_of_mem_callsList cs hlen c hc

theorem len_of_mem_callsList (cs : List (Node T)) {chunks : List Bytes} {currentLen : ℕ}
    (hlen : currentLen = chunks.flatten.length) :
    ∀ c ∈ callsList cs chunks currentLen, c.1.len = c.1.chunks.flatten.length := by
  cases cs with
  | nil => simp [callsList]
  | cons x cs =>
    intro c hc
    rw [callsList, List.mem_append] at hc
    rcases hc with hc | hc
    · refine len_of_mem_calls x ?_ c hc
      simp [hlen, Prefix.len]
    · exact len_of_mem_callsList cs hlen c hc

end

/-! ## `for_each_prefix` -/

variable [Target]

/-- **The walk of `find_prefix_node`** fails when no key starts with the
prefix, and else stops at a node whose own prefix goes on from there: the keys
that start with the searched prefix are the keys of this node. -/
theorem findPrefixLoop_spec {fuel room : ℕ} {root n : Node T} {k key data : Bytes}
    (hwf : Wf room n) (hkey : key = k ++ data) (hfuel : Enough fuel n data)
    (hin : ∀ t v, (key ++ t, v) ∈ root.entries ↔ (data ++ t, v) ∈ n.entries) :
    (findPrefixLoop fuel n data = .ok none ∧ ∀ t v, (key ++ t, v) ∉ root.entries)
      ∨ ∃ c room' k' r, findPrefixLoop fuel n data = .ok (some (c, r.length)) ∧ Wf room' c
        ∧ key = k' ++ r ∧ r <+: c.pfx.bytes
        ∧ ∀ t v, (key ++ t, v) ∈ root.entries ↔ (r ++ t, v) ∈ c.entries := by
  induction fuel generalizing room n k data with
  | zero => exact absurd hfuel.1 (lt_irrefl 0)
  | succ fuel ih =>
    by_cases hfound : data <+: n.pfx.bytes
    · refine Or.inr ⟨n, room, k, data, ?_, hwf, hkey, hfound, hin⟩
      have hlcp : Util.lcp n.pfx.bytes data = data.length := by
        rw [Util.lcp_eq_lcpLen, lcpLen_eq_length_right.mpr hfound]
      simp [findPrefixLoop, hlcp]
    have hlcp' : Util.lcp n.pfx.bytes data ≠ data.length := by
      rw [Util.lcp_eq_lcpLen]
      exact fun h => hfound (lcpLen_eq_length_right.mp h)
    cases walkStep hwf hfuel with
    | mismatch hlcp hpre =>
      refine Or.inl ⟨by simp [findPrefixLoop, hlcp, hlcp'], fun t v hv => ?_⟩
      have hpfx := pfx_prefix_of_mem_entries ((hin t v).mp hv)
      rcases List.prefix_or_prefix_of_prefix hpfx (List.prefix_append data t) with h | h
      · exact hpre h
      · exact hfound h
    | ends hlcp hdata => exact absurd (hdata ▸ List.prefix_rfl) hfound
    | missing b bs hlcp hdata hexists habsent =>
      subst hdata
      refine Or.inl ⟨?_, fun t v hv => ?_⟩
      · simp [findPrefixLoop, hlcp, Prefix.len, sliceFrom_append, Rust.index, hexists]
      · rw [hin, List.append_assoc, List.cons_append, hwf.agrees.mem_entries_cons] at hv
        obtain ⟨c, hc, hckey, _⟩ := hv
        exact habsent c hc hckey
    | child b bs c hlcp hdata hexists hget hc hckey hwfc hfuelc =>
      subst hdata
      have hstep : findPrefixLoop (fuel + 1) n (n.pfx.bytes ++ b :: bs)
          = findPrefixLoop fuel c (b :: bs) := by
        simp [findPrefixLoop, hlcp, Prefix.len, sliceFrom_append, Rust.index, hexists, hget]
      rw [hstep]
      refine ih hwfc (k := k ++ n.pfx.bytes) (by rw [hkey, List.append_assoc]) hfuelc fun t v => ?_
      rw [hin, List.append_assoc, List.cons_append, hwf.agrees.mem_entries_child hc hckey]

/-- **`find_prefix_node`**, the empty prefix included. -/
theorem findPrefixNode_spec {room : ℕ} {m : TrieMap T} (hm : m.Valid room) (key : Bytes) :
    (m.findPrefixNode key = .ok none ∧ ∀ t v, (key ++ t, v) ∉ m.entries)
      ∨ ∃ c room' k' r, m.findPrefixNode key = .ok (some (c, r.length)) ∧ Wf room' c
        ∧ key = k' ++ r ∧ r <+: c.pfx.bytes
        ∧ ∀ t v, (key ++ t, v) ∈ m.entries ↔ (r ++ t, v) ∈ c.entries := by
  obtain ⟨root⟩ := m
  cases root with
  | none => exact Or.inl ⟨rfl, by simp⟩
  | some root =>
    have hwf := hm.wf root rfl
    simp only [findPrefixNode, entries_some]
    by_cases hne : key = []
    · rw [if_pos hne]
      exact Or.inr ⟨root, room, [], [], rfl, hwf, hne, List.nil_prefix, fun t v => by rw [hne]⟩
    · rw [if_neg hne]
      exact findPrefixLoop_spec hwf (List.nil_append key).symm (enough_walkBound root key)
        fun t v => Iff.rfl

/-- **`for_each_prefix` makes one call for each key that starts with the
prefix**, in lexicographic order of the keys: there is a list of calls that
the traversal makes whatever it calls, the calls show the suffixes and the
values of exactly these keys, and the length of a suffix is that of its
chunks, which is zero only for the prefix itself. -/
theorem forEachPrefix_spec {room : ℕ} {m : TrieMap T} {s : RefMap T} (hs : Refines room m s)
    (p : Bytes) :
    ∃ cs : List (SuffixRef × T),
      (∀ {σ : Type} (f : SuffixRef → T → σ → σ) (s₀ : σ),
        m.forEachPrefix f p s₀ = .ok (foldCalls f cs s₀))
      ∧ cs.Pairwise (fun c c' => p ++ c.1.toVec < p ++ c'.1.toVec)
      ∧ (∀ k v, (∃ c ∈ cs, p ++ c.1.toVec = k ∧ c.2 = v) ↔ p <+: k ∧ s.get k = some v)
      ∧ ∀ c ∈ cs, c.1.len = (c.1.chunks.map List.length).sum
        ∧ (c.1.isEmpty = true ↔ p ++ c.1.toVec = p) := by
  rcases findPrefixNode_spec hs.valid p with
    ⟨hfind, hno⟩ | ⟨n, room', k', r, hfind, hwf, hp, hr, hmem⟩
  · refine ⟨[], fun f s₀ => by simp [forEachPrefix, hfind, foldCalls], List.Pairwise.nil,
      fun k v => ?_, by simp⟩
    simp only [List.not_mem_nil, false_and, exists_false, false_iff, not_and]
    rintro ⟨t, rfl⟩ hv
    exact hno t v ((hs.mem_entries _ v).mpr hv)
  · obtain ⟨first, hfirst⟩ := hr
    set chunks : List Bytes := if first = [] then [] else [first] with hchunks
    have hflat : chunks.flatten = first := by
      rw [hchunks]
      split_ifs with h <;> simp [h]
    have hmap := map_calls n (r := p) (w := k') first.length
      (show p ++ chunks.flatten = k' ++ n.pfx.bytes by rw [hflat, hp, List.append_assoc, hfirst])
    have hslice : Rust.sliceFrom n.pfx.bytes r.length = .ok first := by
      rw [Rust.sliceFrom_eq_ok (by simp [← hfirst]), ← hfirst, List.drop_left]
    refine ⟨calls n chunks first.length, fun f s₀ => ?_, ?_, fun k v => ?_, fun c hc => ?_⟩
    · rw [← forEachPrefixFromNode_eq_foldCalls f hwf, hchunks]
      simp only [forEachPrefix, hfind, Rust.ok_bind, hslice]
      split_ifs with h <;> simp [h]
    · have hsorted : (n.entries.map fun e => (k' ++ e.1, e.2)).Pairwise fun e e' => e.1 < e'.1 :=
        List.pairwise_map.mpr (hwf.entries_sorted.imp fun h => List.append_left_lt h)
      rw [← hmap, List.pairwise_map] at hsorted
      exact hsorted
    · have hcalls : (∃ c ∈ calls n chunks first.length, p ++ c.1.toVec = k ∧ c.2 = v)
          ↔ ∃ e ∈ n.entries, k' ++ e.1 = k ∧ e.2 = v := by
        have := congrArg (fun l => (k, v) ∈ l) hmap
        simpa [List.mem_map, Prod.ext_iff] using this
      rw [hcalls]
      constructor
      · rintro ⟨⟨e, w⟩, he, rfl, rfl⟩
        -- every key of the node starts with its prefix, so with `r`
        obtain ⟨t, ht⟩ : r <+: e :=
          List.IsPrefix.trans ⟨first, hfirst⟩ (pfx_prefix_of_mem_entries he)
        rw [← hs.mem_entries]
        refine ⟨⟨t, by rw [hp, List.append_assoc, ht]⟩, ?_⟩
        rw [← ht, ← List.append_assoc, ← hp, hmem, ht]
        exact he
      · rintro ⟨⟨t, rfl⟩, hv⟩
        rw [← hs.mem_entries, hmem] at hv
        exact ⟨_, hv, by rw [hp, List.append_assoc], rfl⟩
    · have hlen := len_of_mem_calls n (show first.length = chunks.flatten.length by rw [hflat]) c hc
      refine ⟨by rw [hlen, List.length_flatten], ?_⟩
      rw [SuffixRef.isEmpty, beq_iff_eq, hlen, List.length_eq_zero_iff, SuffixRef.toVec,
        List.append_right_eq_self]

/-- **Traversal of a reachable map**: `for_each_prefix` calls its argument
once for each stored key that starts with the prefix and for no other, in
strictly increasing lexicographic order. -/
theorem forEachPrefix_of_reachable {m : TrieMap T} (h : system.Reachable m) (p : Bytes) :
    ∃ cs : List (SuffixRef × T),
      (∀ {σ : Type} (f : SuffixRef → T → σ → σ) (s₀ : σ),
        m.forEachPrefix f p s₀ = .ok (foldCalls f cs s₀))
      ∧ cs.Pairwise (fun c c' => p ++ c.1.toVec < p ++ c'.1.toVec)
      ∧ (∀ k v, (∃ c ∈ cs, p ++ c.1.toVec = k ∧ c.2 = v) ↔ p <+: k ∧ m.get k = .ok (some v))
      ∧ ∀ c ∈ cs, c.1.len = (c.1.chunks.map List.length).sum
        ∧ (c.1.isEmpty = true ↔ p ++ c.1.toVec = p) := by
  obtain ⟨room, s, hs⟩ := exists_refines_of_reachable h
  simp only [get_refines hs, Except.ok.injEq]
  exact forEachPrefix_spec hs p

omit [Target] in
/-- The traversal of two keys, one of them the prefix. -/
theorem forEachPrefix_of_reachable_nested :
    letI : Target := Target.x86_64
    ∃ m : TrieMap ℕ, system.run new [.insert [97, 98] 1, .insert [97] 2, .insert [98] 3] = some m
      ∧ ∃ cs : List (SuffixRef × ℕ),
        m.forEachPrefix (fun suffix v acc => acc ++ [(suffix.toVec, v)]) [97] []
          = .ok (foldCalls (fun suffix v acc => acc ++ [(suffix.toVec, v)]) cs [])
        ∧ cs.Pairwise (fun c c' => [97] ++ c.1.toVec < [97] ++ c'.1.toVec) := by
  obtain ⟨m, hm⟩ := Option.isSome_iff_exists.mp (show (@System.run _ _ (@system ℕ Target.x86_64) new
    [.insert [97, 98] 1, .insert [97] 2, .insert [98] 3]).isSome = true by decide)
  obtain ⟨cs, hcs, hsorted, _⟩ :=
    @forEachPrefix_of_reachable ℕ Target.x86_64 m (System.Reachable.of_run hm) [97]
  exact ⟨m, hm, cs, hcs _ _, hsorted⟩

/-- The calls on that map, as the code makes them. -/
example : (letI : Target := Target.x86_64
    (system.run (new : TrieMap ℕ) [.insert [97, 98] 1, .insert [97] 2, .insert [98] 3]).map
      fun m => (m.forEachPrefix (fun suffix v acc => acc ++ [(suffix.toVec, v)]) [97] []).toOption)
    = some (some [([], 2), ([98], 1)]) := by decide

end TrieMap

end Trie
