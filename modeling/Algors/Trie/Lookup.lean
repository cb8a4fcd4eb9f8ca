import Algors.Trie.Entries

/-!
# Lookup

`get` and `get_mut` return, at every well-formed tree, exactly the value
stored under the key, and a write through the reference of `get_mut` changes
that entry and no other.
-/

variable [Target]

namespace Trie

variable {T : Type}

namespace TrieMap

open Node

omit [Target] in
/-- What a walk has left to match, past the prefix of a node. -/
theorem sliceFrom_append (p : Bytes) (b : UInt8) (bs : Bytes) :
    Rust.sliceFrom (p ++ b :: bs) p.length = .ok (b :: bs) := by
  rw [Rust.sliceFrom_eq_ok (by simp), List.drop_left]

/-- **The loop of `get`** returns the value stored under the key. -/
theorem getLoop_spec {fuel room : ℕ} {n : Node T} {data : Bytes} (hwf : Wf room n)
    (hfuel : Enough fuel n data) :
    ∃ r, getLoop fuel n data = .ok r ∧ ∀ v, r = some v ↔ (data, v) ∈ n.entries := by
  induction fuel generalizing room n data with
  | zero => exact absurd hfuel.1 (lt_irrefl 0)
  | succ fuel ih =>
    cases walkStep hwf hfuel with
    | mismatch hlcp hpre =>
      refine ⟨none, by simp [getLoop, hlcp], fun v => ?_⟩
      simpa using fun he => hpre (pfx_prefix_of_mem_entries he)
    | ends hlcp hdata =>
      subst hdata
      refine ⟨n.val, by simp [getLoop, hlcp, Prefix.len], fun v => ?_⟩
      rw [hwf.agrees.mem_entries_self]
    | missing b bs hlcp hdata hexists habsent =>
      subst hdata
      refine ⟨none, ?_, fun v => ?_⟩
      · simp [getLoop, hlcp, Prefix.len, sliceFrom_append, Rust.index, hexists]
      · simpa [hwf.agrees.mem_entries_cons] using fun c hc hkey => absurd hkey (habsent c hc)
    | child b bs c hlcp hdata hexists hget hc hkey hwfc hfuelc =>
      subst hdata
      obtain ⟨r, hr, hmem⟩ := ih hwfc hfuelc
      refine ⟨r, ?_, fun v => ?_⟩
      · simp [getLoop, hlcp, Prefix.len, sliceFrom_append, Rust.index, hexists, hget, hr]
      · rw [hmem, hwf.agrees.mem_entries_child hc hkey]

/-- **The loop of `get_mut`** finds what the loop of `get` returns, and what
is written through the reference replaces it. -/
theorem getMutLoop_spec {fuel room : ℕ} {n : Node T} {data : Bytes} (hwf : Wf room n)
    (hfuel : Enough fuel n data) :
    ∃ r, getMutLoop fuel n data = .ok r ∧ (∀ v, r.map Prod.fst = some v ↔ (data, v) ∈ n.entries)
      ∧ ∀ v back, r = some (v, back) → ∀ w,
          Wf room (back w) ∧ (back w).pfx = n.pfx ∧ EntriesUpdate n (back w) data (some w) := by
  induction fuel generalizing room n data with
  | zero => exact absurd hfuel.1 (lt_irrefl 0)
  | succ fuel ih =>
    cases walkStep hwf hfuel with
    | mismatch hlcp hpre =>
      refine ⟨none, by simp [getMutLoop, hlcp], fun v => ?_, by simp⟩
      simpa using fun he => hpre (pfx_prefix_of_mem_entries he)
    | ends hlcp hdata =>
      subst hdata
      refine ⟨n.val.map fun v => (v, n.setVal), by simp [getMutLoop, hlcp, Prefix.len],
        fun v => ?_, fun v back hback w => ?_⟩
      · rw [hwf.agrees.mem_entries_self, Option.map_map]
        simp
      · obtain ⟨v', _, heq⟩ := Option.map_eq_some_iff.mp hback
        obtain ⟨_, rfl⟩ := Prod.mk.inj heq
        exact ⟨hwf.setVal w, pfx_setVal _ _, EntriesUpdate.setHeader hwf.agrees⟩
    | missing b bs hlcp hdata hexists habsent =>
      subst hdata
      refine ⟨none, ?_, fun v => ?_, by simp⟩
      · simp [getMutLoop, hlcp, Prefix.len, sliceFrom_append, Rust.index, hexists]
      · simpa [hwf.agrees.mem_entries_cons] using fun c hc hkey => absurd hkey (habsent c hc)
    | child b bs c hlcp hdata hexists hget hc hkey hwfc hfuelc =>
      subst hdata
      obtain ⟨r, hr, hmem, hback⟩ := ih hwfc hfuelc
      refine ⟨r.map fun r => (r.1, fun v => n.setChildByPos (childPosFromByte b) (r.2 v)), ?_,
        fun v => ?_, fun v back hb w => ?_⟩
      · simp [getMutLoop, hlcp, Prefix.len, sliceFrom_append, Rust.index, hexists, hget, hr]
      · rw [hwf.agrees.mem_entries_child hc hkey, ← hmem, Option.map_map]
        rfl
      · obtain ⟨⟨v', backc⟩, hrc, heq⟩ := Option.map_eq_some_iff.mp hb
        obtain ⟨_, rfl⟩ := Prod.mk.inj heq
        obtain ⟨hwfw, hpfxw, hupd⟩ := hback v' backc hrc w
        have hne : (backc w).pfx.bytes ≠ [] := hpfxw ▸ hwf.agrees.nonempty hc
        have hkeyw : (backc w).key = b.toNat := by rw [← hkey, Node.key, Node.key, hpfxw]
        exact ⟨hwf.setChildByPos hc hkey hwfw hne hkeyw, by simp [Node.pfx],
          EntriesUpdate.setChildByPos hwf.agrees hc hkey hne hkeyw hupd⟩

end TrieMap

end Trie
