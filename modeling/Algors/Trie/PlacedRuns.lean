import Algors.Trie.PlacedRemove
import Algors.Trie.Traversal

/-!
# Runs in memory

Each call in memory does what it does on nodes, so a run of calls does, from the empty memory
on. What is known of the map of nodes is known of the memory then: the calls return what those
on a finite map return, and the lookups and traversals read that map, and change nothing.
-/

namespace Trie

namespace Placed

variable [Target] {T : Type}

/-! ## Values given, and handed back -/

/-- The value that a call is given. -/
def handed : Trie.TrieMap.Op T → Option T
  | .insert _ val | .write _ val => some val
  | .remove _ | .removePrefix _ | .clear => none

/-- The values among those that may be there. -/
def valuesOf (vs : List (Option T)) : Held T := (0, ↑vs.reduceOption)

theorem valuesOf_cons (v : Option T) (vs : List (Option T)) :
    valuesOf (v :: vs) = valueOf v + valuesOf vs := by
  cases v with
  | none => exact (zero_add _).symm
  | some v =>
    refine Prod.ext (zero_add _).symm ?_
    exact (Multiset.cons_coe v _).symm.trans (Multiset.singleton_add v _).symm

variable [PointerWidth] [NodeTypes T]

namespace TrieMap

variable {A : Allocator T} {depth room : ℕ} {m : Trie.TrieMap T} {s : RefMap T} {own : Held T}
  {ops : List (Trie.TrieMap.Op T)}

/-! ## One call after another -/

/-- **Every call in memory** does what it does on nodes. -/
theorem realizes_apply (hA : A.Sound) (h : MapHolds m own) (hvalid : m.Valid room)
    (hdepth : room + 2 ≤ depth + 1) (op : Trie.TrieMap.Op T) :
    Realizes MayStop (apply A (depth + 1) op) (own + valueOf (handed op)) (m.apply op)
      fun v r kept => v = r.1 ∧ ∃ own', MapHolds r.2 own' ∧ kept = own' + valueOf v := by
  cases op with
  | insert key val =>
    exact Realizes.bind (add_zero _).symm (realizes_insert hA h hvalid key val)
      fun _ m' kept _ h' => Realizes.ret ⟨rfl, kept, h', rfl⟩
  | remove key =>
    rw [handed, show own + valueOf none = own from add_zero own]
    exact realizes_remove hA h hvalid key hdepth
  | removePrefix key =>
    exact Realizes.bind rfl (realizes_removePrefix hA h hvalid key hdepth)
      fun _ m' kept _ h' => Realizes.ret ⟨rfl, kept, h', rfl⟩
  | clear =>
    exact Realizes.bindLeft rfl (realizes_clear _ h hvalid hdepth)
      fun _ kept h' => Realizes.ret ⟨rfl, kept, h', rfl⟩
  | write key val => exact realizes_write h hvalid key val

/-- **A run in memory** does what it does on nodes. -/
theorem realizes_run (hA : A.Sound) (h : MapHolds m own) (hs : Refines room m s)
    (hops : ∀ op ∈ ops, op.key.length ≤ room) (hdepth : room + 2 ≤ depth + 1) :
    Realizes MayStop (run A (depth + 1) ops) (own + valuesOf (ops.map handed)) (m.run ops)
      fun vs r kept => vs = r.1 ∧ ∃ own', MapHolds r.2 own' ∧ kept = own' + valuesOf vs := by
  induction ops generalizing m s own with
  | nil => exact Realizes.ret ⟨rfl, own, h, rfl⟩
  | cons op ops ih =>
    rw [List.forall_mem_cons] at hops
    rw [List.map_cons, valuesOf_cons, ← add_assoc]
    refine Realizes.bind rfl (realizes_apply hA h hs.valid hdepth op) ?_
    rintro v ⟨v', m'⟩ _ hm' ⟨rfl, own', h', rfl⟩
    obtain ⟨-, hs'⟩ := (Trie.TrieMap.apply_refines hs hops.1).of_eq_ok hm'
    have hgiven : own' + valueOf v + valuesOf (ops.map handed)
        = own' + valuesOf (ops.map handed) + valueOf v := by abel
    refine Realizes.bind hgiven (ih h' hs' hops.2) ?_
    rintro vs ⟨vs', m''⟩ _ - ⟨rfl, own'', h'', rfl⟩
    refine Realizes.ret ⟨rfl, own'', h'', ?_⟩
    rw [valuesOf_cons]
    abel

/-! ## From the empty memory on -/

omit [PointerWidth] [NodeTypes T] in
/-- The empty memory is that of the empty map. -/
theorem has_empty (vs : List (Option T)) :
    Has (vs.reduceOption : Multiset T) (Heap.empty T) (rootAt none + valuesOf vs) where
  owns := by
    refine ⟨Multiset.nodup_singleton _, fun k c => ?_⟩
    show (k, c) ∈ ({(.root, .root none)} : Multiset _) + 0 ↔ _
    rw [add_zero, Multiset.mem_singleton, Prod.mk.injEq]
    refine ⟨?_, fun h => ?_⟩
    · rintro ⟨rfl, rfl⟩
      rfl
    · cases k with
      | root => exact ⟨rfl, (Option.some.inj h).symm⟩
      | node | buffer | chunk => cases h
      | cell => exact absurd h.symm (Option.some_ne_none c)
  values := (add_zero _).trans (zero_add _)

end TrieMap

/-! ### A machine -/

section Machine

omit [PointerWidth] [NodeTypes T]

instance (h : Heap T) (a : Usize) (layout : Layout) : Decidable (h.Unused a layout) :=
  decidable_of_iff (h.nodes a = none ∧ h.buffers a = none ∧ h.chunks a.toNat = none
    ∧ ∀ i < layout.size, h.bytes (a.toNat + i) = .free)
    ⟨fun ⟨hnode, hbuffer, hchunk, hbytes⟩ => ⟨hnode, hbuffer, hchunk, hbytes⟩,
      fun ⟨hnode, hbuffer, hchunk, hbytes⟩ => ⟨hnode, hbuffer, hchunk, hbytes⟩⟩

/-- An allocator that answers with null where there is something, or that is not aligned. -/
def Allocator.checked (next : Heap T → Layout → Usize) : Allocator T := fun h layout =>
  if layout.align ∣ (next h layout).toNat ∧ h.Unused (next h layout) layout then next h layout
  else 0

theorem Allocator.sound_checked (next : Heap T → Layout → Usize) : (checked next).Sound := by
  intro h layout hne
  unfold checked at hne ⊢
  split_ifs at hne ⊢ with hok
  · exact hok
  · exact absurd rfl hne

/-- A page for each block, one after another. -/
def pages : Allocator T := .checked fun h _ => BitVec.ofNat _ (4096 * (h.ticks + 1))

omit [Target]

theorem pointerWidth_x86_64 : @PointerWidth Target.x86_64 :=
  letI := Target.x86_64
  ⟨Or.inr rfl⟩

/-- Nodes of numbers of 8 bytes, with pointers of 8 bytes. -/
@[reducible]
def nodeTypes_x86_64 : @NodeTypes Target.x86_64 ℕ :=
  letI := Target.x86_64
  ⟨⟨24, 8⟩, ⟨64, 8⟩, ⟨⟨24, 8⟩, by decide⟩, ⟨⟨64, 8⟩, by decide⟩⟩

/-- Two keys below a prefix that does not fit inline. -/
def longCalls : List (Trie.TrieMap.Op ℕ) :=
  [.insert (List.replicate 16 97 ++ [98]) 1, .insert (List.replicate 16 97 ++ [99]) 2]

/-- What a program returned. -/
theorem exists_of_returned {E S α : Type} {x : Except E (α × S)} {a : α}
    (h : x.toOption.map Prod.fst = some a) : ∃ s, x = .ok (a, s) := by
  cases x with
  | error e => cases h
  | ok r => exact ⟨r.2, congrArg Except.ok (Prod.ext (Option.some.inj h) rfl)⟩

end Machine

namespace TrieMap

variable {A : Allocator T} {depth room : ℕ} {ops : List (Trie.TrieMap.Op T)}

/-- **The memory after some calls**, with what they handed back: what there is in it belongs to
the map that these calls make of nodes, which stands for a finite map. -/
inductive After (room : ℕ) (ops : List (Trie.TrieMap.Op T)) (h : Heap T) : Prop
  | intro {m : Trie.TrieMap T} {own : Held T}
      (hrun : Trie.TrieMap.new.run ops = .ok ((RefMap.empty.run ops).1, m))
      (hs : Refines room m (RefMap.empty.run ops).2) (hm : MapHolds m own)
      (hh : Has ((ops.map handed).reduceOption : Multiset T) h
        (own + valuesOf (RefMap.empty.run ops).1))

section Runs

variable {vs : List (Option T)} {h : Heap T}

section

variable (hA : A.Sound) (hroom : Prefix.Fits room) (hops : ∀ op ∈ ops, op.key.length ≤ room)
  (hdepth : room + 2 ≤ depth)

include hA hroom hops hdepth

/-- **A run from the empty memory** goes as one on nodes does, or stops for lack of memory. -/
theorem run_empty : (∃ e, MayStop e ∧ run A depth ops (Heap.empty T) = .error e)
    ∨ ∃ h, run A depth ops (Heap.empty T) = .ok ((RefMap.empty.run ops).1, h)
      ∧ After room ops h := by
  obtain ⟨depth, rfl⟩ : ∃ d, depth = d + 1 := ⟨depth - 1, by omega⟩
  have hspec := Trie.TrieMap.run_refines (Trie.TrieMap.refines_new (T := T)) hops
  obtain ⟨⟨vs, m⟩, hm, hvs, hs⟩ := hspec.exists_ok hroom
  have hrun := realizes_run hA .none Trie.TrieMap.refines_new hops hdepth _ hm (Heap.empty T) _ 0
    (by rw [add_zero]; exact has_empty _)
  obtain rfl : vs = _ := hvs
  rcases hrun with hstop | ⟨_, h, kept, hok, ⟨rfl, own, hown, rfl⟩, hh⟩
  · exact Or.inl hstop
  · rw [add_zero] at hh
    exact Or.inr ⟨h, hok, hm, hs, hown, hh⟩

/-- The run goes one way. -/
theorem after_of_run (hrun : run A depth ops (Heap.empty T) = .ok (vs, h)) :
    vs = (RefMap.empty.run ops).1 ∧ After room ops h := by
  rcases run_empty hA hroom hops hdepth with ⟨e, -, hstop⟩ | ⟨h', hok, hafter⟩
  · cases hrun.symm.trans hstop
  · obtain ⟨rfl, rfl⟩ := Prod.mk.inj (Except.ok.inj (hrun.symm.trans hok))
    exact ⟨rfl, hafter⟩

end

variable {α : Type}

/-- **What is looked up after some calls** is what is looked up in the map of nodes. -/
theorem After.looks (hafter : After room ops h) {x : Prog T α} {a : α}
    (hx : ∀ m own, MapHolds m own → Refines room m (RefMap.empty.run ops).2 →
      Looks x own (.ok a : Rust α)) : x h = .ok (a, h) := by
  obtain ⟨-, hs, hm, hh⟩ := hafter
  exact hx _ _ hm hs a rfl h _ _ hh

/-- **Runs in memory are safe and right**: with any allocator that returns null, or an aligned
address with nothing at it, a run stops for lack of memory, or returns what the one on the
finite map returns; then every lookup reads that map, and changes nothing. -/
theorem run_empty_refines (hA : A.Sound) (hroom : Prefix.Fits room)
    (hops : ∀ op ∈ ops, op.key.length ≤ room) (hdepth : room + 2 ≤ depth) :
    (∃ e, MayStop e ∧ run A depth ops (Heap.empty T) = .error e)
      ∨ ∃ h, run A depth ops (Heap.empty T) = .ok ((RefMap.empty.run ops).1, h)
        ∧ ∀ key, get key h = .ok ((RefMap.empty.run ops).2.get key, h)
          ∧ contains key h = .ok (((RefMap.empty.run ops).2.get key).isSome, h) := by
  refine (run_empty hA hroom hops hdepth).imp_right ?_
  rintro ⟨h, hok, hafter⟩
  refine ⟨h, hok, fun key => ⟨hafter.looks fun m own hm hs => ?_,
    hafter.looks fun m own hm hs => ?_⟩⟩
  · rw [← Trie.TrieMap.get_refines hs]
    exact looks_get hm hs.valid key
  · rw [← Trie.TrieMap.contains_refines hs]
    exact looks_contains hm hs.valid key

omit [Target] [PointerWidth] [NodeTypes T] in
/-- The prefix is split off, and is merged back when one of the keys goes. -/
theorem run_empty_refines_long :
    letI : Target := Target.x86_64
    letI := pointerWidth_x86_64
    letI := nodeTypes_x86_64
    ∃ h, run pages 19 (longCalls ++ [.remove (List.replicate 16 97 ++ [98])]) (Heap.empty ℕ)
        = .ok ([none, none, some 1], h)
      ∧ get (List.replicate 16 97 ++ [99]) h = .ok (some 2, h)
      ∧ contains (List.replicate 16 97 ++ [98]) h = .ok (false, h) := by
  let _ : Target := Target.x86_64
  let _ := pointerWidth_x86_64
  let _ := nodeTypes_x86_64
  have hok : ((run pages 19 (longCalls ++ [.remove (List.replicate 16 97 ++ [98])])
      (Heap.empty ℕ)).toOption.map Prod.fst) = some [none, none, some 1] := by decide +kernel
  obtain ⟨h, hrun⟩ := exists_of_returned hok
  rcases @run_empty_refines _ ℕ _ _ pages 19 17
    (longCalls ++ [.remove (List.replicate 16 97 ++ [98])]) (Allocator.sound_checked _) (by decide)
    (by decide) (by decide) with ⟨e, -, hstop⟩ | ⟨h', hrun', hlook⟩
  · cases hrun.symm.trans hstop
  · exact ⟨h', hrun', (hlook _).1, (hlook _).2⟩

/-- **A traversal after a run** calls `f` for each key that starts with the prefix, in the order
of the keys, with suffixes that are read from memory, and changes nothing there. -/
theorem forEachPrefix_of_run (hA : A.Sound) (hroom : Prefix.Fits room)
    (hops : ∀ op ∈ ops, op.key.length ≤ room) (hdepth : room + 2 ≤ depth)
    (hrun : run A depth ops (Heap.empty T) = .ok (vs, h)) (p : Bytes) :
    ∃ cs : List (Trie.TrieMap.SuffixRef × T),
      (∀ {σ : Type} (f : Trie.TrieMap.SuffixRef → T → σ → σ) (s₀ : σ),
        forEachPrefix f depth p s₀ h = .ok (Trie.TrieMap.foldCalls f cs s₀, h))
      ∧ cs.Pairwise (fun c c' => p ++ c.1.toVec < p ++ c'.1.toVec)
      ∧ (∀ k v, (∃ c ∈ cs, p ++ c.1.toVec = k ∧ c.2 = v)
        ↔ p <+: k ∧ (RefMap.empty.run ops).2.get k = some v)
      ∧ ∀ c ∈ cs, c.1.len = (c.1.chunks.map List.length).sum := by
  obtain ⟨-, -, hs, hm, hh⟩ := after_of_run hA hroom hops hdepth hrun
  obtain ⟨cs, hcalls, hsorted, hmem, hlen⟩ := Trie.TrieMap.forEachPrefix_spec hs p
  refine ⟨cs, fun f s₀ => ?_, hsorted, hmem, fun c hc => (hlen c hc).1⟩
  exact looks_forEachPrefix f hm hs.valid hdepth p s₀ _ (hcalls f s₀) h _ _ hh

omit [Target] [PointerWidth] [NodeTypes T] in
/-- The calls of `f` are for the suffixes past the common prefix. -/
theorem forEachPrefix_of_run_long :
    letI : Target := Target.x86_64
    letI := pointerWidth_x86_64
    letI := nodeTypes_x86_64
    ∃ h : Heap ℕ, run pages 19 longCalls (Heap.empty ℕ) = .ok ([none, none], h)
      ∧ forEachPrefix (fun r v s => (r.toVec, v) :: s) 19 (List.replicate 16 97) [] h
        = .ok ([([99], 2), ([98], 1)], h) := by
  let _ : Target := Target.x86_64
  let _ := pointerWidth_x86_64
  let _ := nodeTypes_x86_64
  have hok : ((run pages 19 longCalls (Heap.empty ℕ)).toOption.map Prod.fst)
      = some [none, none] := by decide +kernel
  have hshown : ((run pages 19 longCalls >>= fun _ => forEachPrefix (fun r v s => (r.toVec, v) :: s)
      19 (List.replicate 16 97) []) (Heap.empty ℕ)).toOption.map Prod.fst
      = some [([99], 2), ([98], 1)] := by
    decide +kernel
  obtain ⟨h, hrun⟩ := exists_of_returned hok
  obtain ⟨cs, hcalls, -⟩ := @forEachPrefix_of_run _ ℕ _ _ pages 19 17 longCalls _ h
    (Allocator.sound_checked _) (by decide) (by decide) (by decide) hrun (List.replicate 16 97)
  rw [StateT.bind_eq_ok_apply hrun, hcalls] at hshown
  rw [← Option.some.inj hshown]
  exact ⟨h, hrun, hcalls _ _⟩

end Runs

end TrieMap

end Placed

end Trie
