import Algors.Lib.Transition
import Algors.Trie.Remove

/-!
# The trie refines a finite map

`RefMap` is what a trie is for: a finite map from non-empty byte strings to
values, with the operations of the trie as updates of it. The relation
`Refines` between a trie and such a map asks that the trie is valid and that
its entries are the bindings of the map. Every call keeps it and returns what
the map returns, so every run does, and lookups read the map off the trie.
-/

namespace Trie

variable {T : Type}

/-! ## The reference map -/

/-- **A finite map from non-empty byte strings to values.** -/
structure RefMap (T : Type) where
  get : Bytes → Option T
  nil : get [] = none
  finite : {k | get k ≠ none}.Finite

namespace RefMap

/-- Rebinding one key, not the empty one. -/
def update (s : RefMap T) (key : Bytes) (hne : key ≠ []) (r : Option T) : RefMap T where
  get := Function.update s.get key r
  nil := by rw [Function.update_of_ne hne.symm, s.nil]
  finite := by
    refine (s.finite.insert key).subset fun k hk => ?_
    by_cases h : k = key
    · exact Or.inl h
    · exact Or.inr (by simpa [Function.update_of_ne h] using hk)

/-- The map without bindings. -/
def empty : RefMap T := ⟨fun _ => none, rfl, by simp⟩

/-- Binding a key, which the empty key never is. -/
def insert (s : RefMap T) (key : Bytes) (val : T) : RefMap T :=
  if hne : key = [] then s else s.update key hne (some val)

/-- Unbinding a key. -/
def remove (s : RefMap T) (key : Bytes) : RefMap T :=
  if hne : key = [] then s else s.update key hne none

/-- Unbinding all keys that start with a prefix. -/
def removePrefix (s : RefMap T) (key : Bytes) : RefMap T where
  get k := if key <+: k then none else s.get k
  nil := by split_ifs <;> simp [s.nil]
  finite := s.finite.subset fun k hk h => hk (by simp [h])

/-- Rebinding a key that is bound. -/
def write (s : RefMap T) (key : Bytes) (val : T) : RefMap T :=
  match s.get key with
  | none => s
  | some _ => s.insert key val

/-- One call on the reference map: what it hands back, and the map after. -/
def apply (s : RefMap T) : TrieMap.Op T → Option T × RefMap T
  | .insert key val => (none, s.insert key val)
  | .remove key => (s.get key, s.remove key)
  | .removePrefix key => (none, s.removePrefix key)
  | .clear => (none, empty)
  | .write key val => (s.get key, s.write key val)

/-- A run of calls on the reference map. -/
def run (s : RefMap T) : List (TrieMap.Op T) → List (Option T) × RefMap T
  | [] => ([], s)
  | op :: ops => ((s.apply op).1 :: ((s.apply op).2.run ops).1, ((s.apply op).2.run ops).2)

theorem get_update (s : RefMap T) {key : Bytes} (hne : key ≠ []) (r : Option T) (k : Bytes) :
    (s.update key hne r).get k = if k = key then r else s.get k :=
  Function.update_apply _ _ _ _

theorem get_insert (s : RefMap T) {key : Bytes} (hne : key ≠ []) (val : T) (k : Bytes) :
    (s.insert key val).get k = if k = key then some val else s.get k := by
  rw [insert, dif_neg hne, get_update]

theorem get_remove (s : RefMap T) (key k : Bytes) :
    (s.remove key).get k = if k = key then none else s.get k := by
  unfold remove
  split_ifs with hne h h
  · rw [h, hne, s.nil]
  · rfl
  · rw [get_update, if_pos h]
  · rw [get_update, if_neg h]

theorem get_removePrefix (s : RefMap T) (key k : Bytes) :
    (s.removePrefix key).get k = if key <+: k then none else s.get k := rfl

end RefMap

/-! ## The relation, and what keeps it -/

/-- **A trie refines a map**: it is valid, and its entries are the bindings. -/
structure Refines (room : ℕ) (m : TrieMap T) (s : RefMap T) : Prop where
  valid : m.Valid room
  mem_entries : ∀ k v, (k, v) ∈ m.entries ↔ s.get k = some v

theorem Refines.mono {room room' : ℕ} {m : TrieMap T} {s : RefMap T} (h : Refines room m s)
    (hle : room ≤ room') : Refines room' m s :=
  ⟨h.valid.mono hle, h.mem_entries⟩

variable [Target]

namespace TrieMap

open Node

variable {room : ℕ} {m : TrieMap T} {s : RefMap T}

omit [Target] in
theorem refines_new : Refines room (new : TrieMap T) RefMap.empty :=
  ⟨valid_none room, fun k v => by simp [new, RefMap.empty]⟩

omit [Target] in
/-- The map below an empty root is empty. -/
theorem get_eq_none_of_root (h : Refines room ⟨none⟩ s) (key : Bytes) : s.get key = none :=
  Option.eq_none_iff_forall_ne_some.mpr fun v hv => by simpa using (h.mem_entries key v).mpr hv

/-- **`get`** reads the map. -/
theorem get_refines (h : Refines room m s) (key : Bytes) : m.get key = .ok (s.get key) := by
  by_cases hne : key = []
  · simp [get, hne, s.nil]
  obtain ⟨root⟩ := m
  cases root with
  | none => simp [get, hne, get_eq_none_of_root h]
  | some root =>
    obtain ⟨r, hr, hmem⟩ := getLoop_spec (h.valid.wf root rfl) (enough_walkBound root key)
    simp only [get, if_neg hne, hr]
    refine congrArg Except.ok (Option.ext fun v => ?_)
    rw [hmem v, ← h.mem_entries, entries_some]

/-- **`get_mut`** reads the map, and a write through the reference rebinds the
key. -/
theorem getMut_refines (h : Refines room m s) (key : Bytes) :
    ∃ r, m.getMut key = .ok r ∧ r.map Prod.fst = s.get key
      ∧ ∀ v back, r = some (v, back) → ∀ w, Refines room (back w) (s.insert key w) := by
  by_cases hne : key = []
  · exact ⟨none, by simp [getMut, hne], by simp [hne, s.nil], by simp⟩
  obtain ⟨root⟩ := m
  cases root with
  | none => exact ⟨none, by simp [getMut, hne], (get_eq_none_of_root h key).symm, by simp⟩
  | some root =>
    obtain ⟨r, hr, hmem, hback⟩ := getMutLoop_spec (h.valid.wf root rfl) (enough_walkBound root key)
    refine ⟨r.map fun r => (r.1, fun v => ⟨some (r.2 v)⟩), by simp [getMut, hne, hr], ?_,
      fun v back hb w => ?_⟩
    · rw [Option.map_map]
      refine Option.ext fun v => ?_
      rw [← h.mem_entries, entries_some, ← hmem]
      rfl
    · obtain ⟨⟨v', backr⟩, hrr, heq⟩ := Option.map_eq_some_iff.mp hb
      obtain ⟨_, rfl⟩ := Prod.mk.inj heq
      obtain ⟨hwf, _, hupd⟩ := hback v' backr hrr w
      have hent : ∀ k v, (k, v) ∈ (backr w).entries ↔ (s.insert key w).get k = some v := by
        intro k v
        rw [hupd k v, s.get_insert hne]
        split_ifs with hk
        · simp [hk]
        · simpa [hk] using h.mem_entries k v
      refine ⟨⟨fun root hroot => Option.some.inj hroot ▸ hwf, fun v hv => ?_⟩, hent⟩
      have hnil := (hent [] v).mp hv
      rw [(s.insert key w).nil] at hnil
      cases hnil

/-- **`contains`** tells whether the map binds the key. -/
theorem contains_refines (h : Refines room m s) (key : Bytes) :
    m.contains key = .ok (s.get key).isSome := by
  simp only [contains, get_refines h, Rust.ok_bind]

/-- **One call** returns what the map returns, and keeps the relation. -/
theorem apply_refines (h : Refines room m s) {op : Op T} (hop : op.key.length ≤ room) :
    Returns room (m.apply op) fun p =>
      p.1 = (s.apply op).1 ∧ Refines room p.2 (s.apply op).2 := by
  cases op with
  | insert key val =>
    by_cases hne : key = []
    · simp only [apply, insert, hne, if_true, Rust.ok_bind, RefMap.apply, RefMap.insert, dif_pos]
      exact ⟨rfl, h⟩
    refine (insert_spec h.valid hne hop val).bind fun m' ⟨hvalid, hent, _⟩ =>
      ⟨rfl, hvalid, fun k v => ?_⟩
    rw [hent k v, h.mem_entries, RefMap.apply, s.get_insert hne]
    split_ifs with hk <;> simp [hk]
  | remove key =>
    refine (remove_spec h.valid key).imp fun p ⟨hvalid, hr, hent, _⟩ => ⟨?_, hvalid, fun k v => ?_⟩
    · exact Option.ext fun v => by rw [hr, h.mem_entries, RefMap.apply]
    · rw [hent k v, h.mem_entries, RefMap.apply, s.get_remove]
      split_ifs with hk <;> simp [hk]
  | removePrefix key =>
    refine (removePrefix_spec h.valid key).bind fun m' ⟨hvalid, hent, _⟩ =>
      ⟨rfl, hvalid, fun k v => ?_⟩
    rw [hent k v, h.mem_entries, RefMap.apply, s.get_removePrefix]
    split_ifs with hk <;> simp [hk]
  | clear => exact ⟨rfl, refines_new⟩
  | write key val =>
    obtain ⟨r, hr, hget, hback⟩ := getMut_refines h key
    rw [apply, hr, Rust.ok_bind]
    cases r with
    | none =>
      have hnone : s.get key = none := hget.symm
      exact ⟨hnone.symm, by rwa [RefMap.apply, RefMap.write, hnone]⟩
    | some p =>
      obtain ⟨v, back⟩ := p
      have hsome : s.get key = some v := hget.symm
      exact ⟨hsome.symm, by
        simpa only [RefMap.apply, RefMap.write, hsome] using hback v back rfl val⟩

/-- **A run** returns what the map returns, and keeps the relation. -/
theorem run_refines (h : Refines room m s) {ops : List (Op T)}
    (hops : ∀ op ∈ ops, op.key.length ≤ room) :
    Returns room (m.run ops) fun p => p.1 = (s.run ops).1 ∧ Refines room p.2 (s.run ops).2 := by
  induction ops generalizing m s with
  | nil => exact ⟨rfl, h⟩
  | cons op ops ih =>
    refine (apply_refines h (hops op (by simp))).bind fun p ⟨hres, h'⟩ => ?_
    refine (ih h' fun op' hop' => hops op' (List.mem_cons_of_mem op hop')).bind
      fun p' ⟨hres', h''⟩ => ⟨?_, h''⟩
    rw [RefMap.run, hres, hres']

/-- The longest a key can be: the length of a prefix is a `u32`. -/
def keyRoom : ℕ := 2 ^ 32 - 1

omit [Target] in
theorem keyRoom_lt : keyRoom < 2 ^ 32 := by decide

/-- **The trie refines the finite map**: after every prefix of a run from an
empty trie, the calls have returned what the calls on the map return, and
`get`, `get_mut` and `contains` read the map at every key. Only a key that does
not fit – with pointers of 4 bytes, one of `isize::MAX` bytes or more – may make
a call panic instead, for want of a layout. -/
theorem run_new_refines (ops : List (Op T)) (hops : ∀ op ∈ ops, op.key.length < 2 ^ 32)
    (pre : List (Op T)) (hpre : pre <+: ops) :
    (∃ m, (new : TrieMap T).run pre = .ok ((RefMap.empty.run pre).1, m)
      ∧ ∀ q, m.get q = .ok ((RefMap.empty.run pre).2.get q)
        ∧ (do let r ← m.getMut q; .ok (r.map Prod.fst)) = .ok ((RefMap.empty.run pre).2.get q)
        ∧ m.contains q = .ok ((RefMap.empty.run pre).2.get q).isSome)
    ∨ ((new : TrieMap T).run pre = .error (.expectFailed Prefix.layoutMsg)
      ∧ ∃ op ∈ pre, ¬ Prefix.Fits op.key.length) := by
  have hrun := run_refines (refines_new : Refines keyRoom _ _) fun op hop =>
    Nat.le_sub_one_of_lt (hops op (hpre.subset hop))
  cases hres : (new : TrieMap T).run pre with
  | ok p =>
    obtain ⟨hp, h⟩ := hrun.of_eq_ok hres
    refine Or.inl ⟨p.2, hp ▸ rfl, fun q => ⟨get_refines h q, ?_, contains_refines h q⟩⟩
    obtain ⟨r, hr, hget, _⟩ := getMut_refines h q
    rw [hr, Rust.ok_bind, hget]
  | error e =>
    rw [hres] at hrun
    obtain rfl := Prefix.Refuses.eq_layout hrun keyRoom_lt
    refine Or.inr ⟨rfl, ?_⟩
    -- if every key fitted, the run would have returned
    by_contra hfits
    push Not at hfits
    obtain ⟨p, hp, -⟩ := (run_refines (refines_new : Refines Prefix.maxLen _ _) fun op hop =>
      (hfits op hop).le_maxLen).exists_ok Prefix.fits_maxLen
    rw [hp] at hres
    cases hres

omit [Target] in
/-- A run in which a key is split off another, and merged back when the other
goes. -/
theorem run_new_refines_split :
    letI : Target := Target.x86_64
    ∃ m, (new : TrieMap ℕ).run [.insert [97, 98] 1, .insert [97, 99] 2, .remove [97, 98]]
        = .ok ([none, none, some 1], m)
      ∧ m.get [97, 98] = .ok none ∧ m.get [97, 99] = .ok (some 2)
      ∧ m.contains [97] = .ok false := by
  let target : Target := Target.x86_64
  obtain ⟨m, hm, hq⟩ | ⟨-, hno⟩ := run_new_refines
    [.insert [97, 98] 1, .insert [97, 99] 2, .remove [97, 98]] (by decide) _ List.prefix_rfl
  · exact ⟨m, hm, (hq _).1, (hq _).1, (hq _).2.2⟩
  · exact absurd hno (by decide)

omit [Target] in
/-- **With pointers of 4 bytes, a key of `isize::MAX` bytes** makes the call
panic. -/
theorem run_new_panics :
    letI : Target := Target.i686
    (List.replicate (2 ^ 31 - 1) 0 : Bytes).length < 2 ^ 32
      ∧ (new : TrieMap ℕ).run [.insert (List.replicate (2 ^ 31 - 1) 0) 1]
        = .error (.expectFailed Prefix.layoutMsg) := by
  have hlen : (List.replicate (2 ^ 31 - 1) 0 : Bytes).length = 2 ^ 31 - 1 := List.length_replicate
  generalize (List.replicate (2 ^ 31 - 1) 0 : Bytes) = key at *
  have hne : key ≠ [] := by
    rintro rfl
    cases hlen
  refine ⟨by rw [hlen]; norm_num, ?_⟩
  simp only [run, apply, insert, if_neg hne, new, Node.new, Prefix.new_eq_error_i686 hlen,
    Rust.error_bind]

/-! ## The map as a transition system -/

/-- A call is a step; one that faults has no successor. -/
def system : System (TrieMap T) (Op T) where
  init := new
  next m op :=
    match m.apply op with
    | .ok (_, m') => some m'
    | .error _ => none

theorem system_next_eq_some {m m' : TrieMap T} {op : Op T} :
    system.next m op = some m' ↔ ∃ r, m.apply op = .ok (r, m') := by
  simp only [system]
  cases m.apply op with
  | error e => simp
  | ok p => simp [Prod.ext_iff]

/-- **Every reachable map refines some finite map.** -/
theorem exists_refines_of_reachable {G : TrieMap T → Op T → Prop} {m : TrieMap T}
    (h : system.ReachableWhile G m) : ∃ room s, Refines room m s := by
  refine h.invariant (I := fun m => ∃ room s, Refines room m s) ⟨0, RefMap.empty, refines_new⟩
    fun m op m' _ ⟨room, s, hs⟩ _ hnext => ?_
  obtain ⟨r, hr⟩ := system_next_eq_some.mp hnext
  have happly := apply_refines (hs.mono (Nat.le_max_left room op.key.length))
    (Nat.le_max_right room op.key.length)
  exact ⟨_, _, (happly.of_eq_ok hr).2⟩

end TrieMap

end Trie
