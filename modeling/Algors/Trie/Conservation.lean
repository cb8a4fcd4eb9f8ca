import Algors.Lib.Transition
import Algors.Trie.OwnedRemove
import Algors.Trie.Traversal

/-!
# Every value ends once

A value that is handed to `insert` under a key that is not empty is in the trie until
it is handed back by `remove`, or dropped: because the key is inserted again, because
`remove_prefix` or `clear` takes its key out, or with the trie. Runs are taken on nodes
with blocks, tags and slots, and record what each call took out, what it handed back
and what was dropped meanwhile. In every state of every run the tags are right, the
blocks that are allocated are those of the nodes, each of one node, and the bindings
that were made are those that are stored and those that were taken out.
-/

namespace Trie

variable {T : Type}

/-! ## The values of a map -/

/-- The values of some entries, each as often as it occurs. -/
def values (entries : List (Bytes × T)) : Multiset T := ↑(entries.map Prod.snd)

theorem values_append (l l' : List (Bytes × T)) : values (l ++ l') = values l + values l' := by
  rw [values, List.map_append, ← Multiset.coe_add]
  rfl

theorem values_eq_map (entries : List (Bytes × T)) :
    values entries = Multiset.map Prod.snd (entries : Multiset (Bytes × T)) := rfl

/-- **Taking the entries of some keys out** leaves the others. -/
theorem coe_entries_of_removed {E E' : List (Bytes × T)} (hE : E.Nodup) (hE' : E'.Nodup)
    {p : Bytes → Bool} (h : ∀ k v, (k, v) ∈ E' ↔ (k, v) ∈ E ∧ ¬ p k = true) :
    (E : Multiset (Bytes × T)) = ↑(E.filter fun e => p e.1) + ↑E' := by
  have hkept : (E.filter fun e => !p e.1).Perm E' := by
    refine (List.perm_ext_iff_of_nodup (hE.filter _) hE').mpr fun ⟨k, v⟩ => ?_
    rw [h, List.mem_filter]
    simp
  rw [← Multiset.coe_eq_coe.mpr hkept, Multiset.coe_add]
  exact (Multiset.coe_eq_coe.mpr (List.filter_append_perm _ E)).symm

/-- **Binding a key** takes out what it was bound to. -/
theorem coe_entries_of_inserted {E E' : List (Bytes × T)} (hE : E.Nodup) (hE' : E'.Nodup)
    {key : Bytes} {val : T}
    (h : ∀ k v, (k, v) ∈ E' ↔ (k = key ∧ some val = some v) ∨ (k ≠ key ∧ (k, v) ∈ E)) :
    {(key, val)} + (E : Multiset (Bytes × T)) = ↑(E.filter fun e => e.1 = key) + ↑E' := by
  have hkept : ((key, val) :: E.filter fun e => !decide (e.1 = key)).Perm E' := by
    refine (List.perm_ext_iff_of_nodup (List.nodup_cons.mpr ⟨by simp, hE.filter _⟩) hE').mpr
      fun ⟨k, v⟩ => ?_
    rw [h, List.mem_cons, List.mem_filter, Prod.mk.injEq, Option.some.injEq, eq_comm (a := v)]
    simp only [Bool.not_eq_true', decide_eq_false_iff_not, and_comm]
  rw [← Multiset.coe_eq_coe.mpr hkept,
    ← Multiset.coe_eq_coe.mpr (List.filter_append_perm (fun e => decide (e.1 = key)) E),
    ← Multiset.coe_add, ← Multiset.cons_coe, ← Multiset.singleton_add]
  exact add_left_comm _ _ _

/-- The entries of a key, when it is bound at most once. -/
theorem filter_key_eq {E : List (Bytes × T)} (hE : E.Nodup) {key : Bytes} {r : Option T}
    (h : ∀ v, r = some v ↔ (key, v) ∈ E) :
    (E.filter fun e => e.1 = key) = (r.map fun v => (key, v)).toList := by
  have hperm : (E.filter fun e => e.1 = key).Perm (r.map fun v => (key, v)).toList := by
    refine (List.perm_ext_iff_of_nodup (hE.filter _) ?_).mpr fun ⟨k, v⟩ => ?_
    · cases r <;> simp
    · rw [List.mem_filter, decide_eq_true_eq, Option.mem_toList, Option.map_eq_some_iff]
      constructor
      · rintro ⟨he, rfl⟩
        exact ⟨v, (h v).mpr he, rfl⟩
      · rintro ⟨w, hw, heq⟩
        obtain ⟨rfl, rfl⟩ := Prod.mk.inj heq
        exact ⟨(h w).mp hw, rfl⟩
  cases r with
  | none => exact List.perm_nil.mp hperm
  | some v => exact List.perm_singleton.mp hperm

/-- No entry is stored twice. -/
theorem TrieMap.Valid.nodup_entries {room : ℕ} {m : TrieMap T} (h : m.Valid room) :
    m.entries.Nodup := by
  obtain ⟨root⟩ := m
  cases root with
  | none => exact List.nodup_nil
  | some root =>
    refine (h.wf root rfl).entries_sorted.imp fun {e e'} hlt heq => ?_
    exact List.lt_irrefl _ (heq ▸ hlt)

namespace Owned

open Trie.Node (entries entriesList ownEntry)

/-! ## What a node owns, and what it stores -/

/-- **The values that a node owns are those of its entries.** -/
theorem Node.values_entries {n : Node T} (h : n.Tagged) : n.holding.2 = values n.erase.entries := by
  have hown : ∀ h : Header T, h.val.holding.2 = values (ownEntry h.erase) := by
    rintro ⟨pfx, val⟩
    cases val <;> rfl
  induction h with
  | @intro n hself hchildren ih =>
    cases n with
    | leaf pt tag hdr =>
      rw [Node.holding, Prod.snd_add, hown]
      exact zero_add _
    | internal pt tag hdr bitmap cs =>
      have hall : ∀ cs' : List (Node T), (∀ c ∈ cs', c ∈ cs) →
          (Node.holdingAll cs').2 = values (entriesList (Node.eraseAll cs')) := by
        intro cs' hsub
        induction cs' with
        | nil => rfl
        | cons c cs' ih' =>
          rw [Node.holdingAll, Prod.snd_add, Node.eraseAll, entriesList, values_append,
            ih' fun x hx => hsub x (List.mem_cons_of_mem c hx),
            ih c (hsub c List.mem_cons_self)]
      rw [Node.holding, Prod.snd_add, Prod.snd_add, hown, hall cs fun _ h => h, Node.erase, entries,
        values_append]
      have hmoved : ∀ l : List (Bytes × T),
          values (l.map fun e => (hdr.erase.pfx.bytes ++ e.1, e.2)) = values l := fun l => by
        rw [values, List.map_map]
        rfl
      rw [hmoved, show (Holding.block pt : Holding T).2 = 0 from rfl, zero_add]

namespace TrieMap

/-- The map without blocks and tags. -/
def erase (m : TrieMap T) : Trie.TrieMap T := ⟨m.root.map Node.erase⟩

/-- **All nodes have the right tag.** -/
def Tagged (m : TrieMap T) : Prop := ∀ root, m.root = some root → root.Tagged

variable {m : TrieMap T} {m' : Trie.TrieMap T}

/-- A map stands for the one without blocks and tags, when the tags are right. -/
theorem models_iff : m.Models m' ↔ m.Tagged ∧ m.erase = m' := by
  obtain ⟨root⟩ := m
  obtain ⟨root'⟩ := m'
  constructor
  · intro h
    cases h with
    | none => exact ⟨fun _ hr => absurd hr.symm (Option.some_ne_none _), rfl⟩
    | some hroot =>
      refine ⟨fun _ hr => Option.some.inj hr ▸ hroot.tagged, ?_⟩
      rw [erase, Option.map_some, hroot.erase]
  · rintro ⟨htag, herase⟩
    obtain rfl := congrArg Trie.TrieMap.root herase
    cases root with
    | none => exact .none
    | some root => exact .some ⟨htag root rfl, rfl⟩

theorem values_entries (h : m.Tagged) : m.holding.2 = values m.erase.entries := by
  obtain ⟨root⟩ := m
  cases root with
  | none => rfl
  | some root => exact Node.values_entries (h root rfl)

end TrieMap

/-! ## The calls -/

/-- The calls that put values in and take them out. -/
inductive Op (T : Type) where
  | insert (key : Bytes) (val : T)
  | remove (key : Bytes)
  | removePrefix (key : Bytes)
  | clear
deriving DecidableEq

namespace Op

/-- The same call of a map without blocks. -/
def toOp : Op T → Trie.TrieMap.Op T
  | insert key val => .insert key val
  | remove key => .remove key
  | removePrefix key => .removePrefix key
  | clear => .clear

/-- The key of a call. -/
def key (op : Op T) : Bytes := op.toOp.key

/-- What a call is given. -/
def given : Op T → Holding T
  | insert _ val => Holding.value val
  | _ => 0

/-- The binding a call is to make. -/
def binds : Op T → Multiset (Bytes × T)
  | insert key val => if key = [] then 0 else {(key, val)}
  | _ => 0

/-- **The entries a call is to take out**: those that it binds anew or removes. -/
def ends (entries : List (Bytes × T)) : Op T → List (Bytes × T)
  | insert key _ | remove key => entries.filter fun e => e.1 = key
  | removePrefix key => entries.filter fun e => key <+: e.1
  | clear => entries

/-- The empty key is never bound. -/
theorem ends_insert_nil {entries : List (Bytes × T)} (h : ∀ v, ([], v) ∉ entries) (val : T) :
    ends entries (.insert [] val) = [] :=
  List.filter_eq_nil_iff.mpr fun ⟨k, v⟩ he hk => by
    obtain rfl : k = [] := of_decide_eq_true hk
    exact h v he

end Op

/-- One call: the value it hands back, and the map after it. -/
def TrieMap.apply [Target] (self : TrieMap T) : Op T → Own T (Option T × TrieMap T)
  | .insert key val => do
    let m ← self.insert key val
    return (none, m)
  | .remove key => self.remove key
  | .removePrefix key => do
    let m ← self.removePrefix key
    return (none, m)
  | .clear => do
    let m ← self.clear
    return (none, m)

/-- What is left of a call: the value handed back, and the map. -/
def outcome (r : Option T × TrieMap T) : Holding T :=
  Holding.option Holding.value r.1 + r.2.holding

section Calls

variable [Target] {room : ℕ}

/-- **Every call** does what it does without blocks, and accounts for what it is
given. -/
theorem TrieMap.settles_apply {m : TrieMap T} {m' : Trie.TrieMap T} (h : m.Models m')
    (hvalid : m'.Valid room) (op : Op T) :
    Settles (m.apply op) (op.given + m.holding) (Raw.lift (m'.apply op.toOp)) outcome
      fun r r' => r.1 = r'.1 ∧ r.2.Models r'.2 := by
  have hret : ∀ (n : TrieMap T) (n' : Trie.TrieMap T), n.Models n' →
      Settles (pure (none, n) : Own T (Option T × TrieMap T)) (n.holding + 0)
        (Raw.lift (.ok (none, n'))) outcome fun r r' => r.1 = r'.1 ∧ r.2.Models r'.2 :=
    fun n n' hn => Settles.ret (by rw [add_comm]; rfl) ⟨rfl, hn⟩
  cases op with
  | insert key val =>
    rw [apply, Op.toOp, Trie.TrieMap.apply, Raw.lift_bind]
    exact Settles.bind (add_zero _).symm (settles_insert h hvalid key val) fun n n' _ => hret n n'
  | remove key =>
    exact (zero_add m.holding).symm ▸ settles_remove h hvalid key
  | removePrefix key =>
    rw [apply, Op.toOp, Trie.TrieMap.apply, Raw.lift_bind]
    exact Settles.bind (add_comm _ _) (settles_removePrefix h hvalid key) fun n n' _ => hret n n'
  | clear =>
    exact Settles.bindLeft (add_comm _ _) (settles_clear h hvalid) fun n hn => hret n _ hn

/-- **A call without blocks** hands back what `remove` takes out, and leaves the
entries that were there and are not taken out, with the one it makes. -/
theorem apply_entries {m : Trie.TrieMap T} (hm : m.Valid room) {op : Op T}
    (hkey : op.key.length ≤ room) :
    Returns room (m.apply op.toOp) fun r => r.2.Valid room
      ∧ (∀ key, op = .remove key →
          op.ends m.entries = (r.1.map fun v => (key, v)).toList)
      ∧ ((∀ key, op ≠ .remove key) → r.1 = none)
      ∧ op.binds + ↑m.entries = ↑(op.ends m.entries) + (r.2.entries : Multiset (Bytes × T)) := by
  have hE := hm.nodup_entries
  cases op with
  | insert key val =>
    by_cases hne : key = []
    · subst hne
      rw [Op.ends_insert_nil hm.nil, Op.binds, if_pos rfl, Op.toOp, Trie.TrieMap.apply,
        Trie.TrieMap.insert, if_pos rfl]
      exact ⟨hm, (by rintro _ ⟨⟩), fun _ => rfl, rfl⟩
    · refine (Trie.TrieMap.insert_spec hm hne hkey val).bind fun m' hm' =>
        ⟨hm'.1, (by rintro _ ⟨⟩), fun _ => rfl, ?_⟩
      rw [Op.binds, if_neg hne]
      exact coe_entries_of_inserted hE hm'.1.nodup_entries hm'.2.1
  | remove key =>
    refine (Trie.TrieMap.remove_spec hm key).imp fun r hr =>
      ⟨hr.1, ?_, fun h => absurd rfl (h key), ?_⟩
    · rintro _ ⟨⟩
      exact filter_key_eq hE hr.2.1
    · exact (zero_add _).trans (coe_entries_of_removed (p := fun k => k = key) hE
        hr.1.nodup_entries fun k v => by rw [hr.2.2.1, decide_eq_true_eq])
  | removePrefix key =>
    refine (Trie.TrieMap.removePrefix_spec hm key).bind fun m' hm' =>
      ⟨hm'.1, (by rintro _ ⟨⟩), fun _ => rfl, ?_⟩
    exact (zero_add _).trans (coe_entries_of_removed (p := fun k => key <+: k) hE
      hm'.1.nodup_entries fun k v => by rw [hm'.2.1, decide_eq_true_eq])
  | clear =>
    exact ⟨Trie.TrieMap.valid_none room, (by rintro _ ⟨⟩), fun _ => rfl,
      (zero_add _).trans (add_zero _).symm⟩

end Calls

/-! ## Runs -/

/-- **What a call did**: the entries that it took out, the value that it handed back,
and the values that were dropped meanwhile. -/
structure Event (T : Type) where
  op : Op T
  ended : List (Bytes × T)
  returned : Option T
  dropped : List T
deriving DecidableEq

/-- **The values of what a call took out are those that it ended**: `remove` hands the
value back and drops nothing; the other calls drop the values, and hand nothing back.
An `insert` takes out the binding of its key, and with an empty key it drops what it
was given. -/
def Event.Settled (e : Event T) : Prop :=
  match e.op with
  | .insert key val => e.returned = none ∧ (∀ b ∈ e.ended, b.1 = key)
      ∧ (e.dropped : Multiset T) = if key = [] then {val} else values e.ended
  | .remove key => e.ended = (e.returned.map fun v => (key, v)).toList ∧ e.dropped = []
  | .removePrefix key => e.returned = none ∧ (∀ b ∈ e.ended, key <+: b.1)
      ∧ (e.dropped : Multiset T) = values e.ended
  | .clear => e.returned = none ∧ (e.dropped : Multiset T) = values e.ended

/-- **A state of a run**: the map, the account of the allocator, and what the calls did,
the last first. -/
structure State (T : Type) where
  map : TrieMap T
  ledger : Ledger T
  log : List (Event T)

/-- The bindings that were made. -/
def made (log : List (Event T)) : Multiset (Bytes × T) := (log.map fun e => e.op.binds).sum

/-- The entries that were taken out. -/
def ended (log : List (Event T)) : Multiset (Bytes × T) :=
  (log.map fun e => (e.ended : Multiset (Bytes × T))).sum

section Runs

variable [Target]

/-- Runs of calls; one that panics has no successor. -/
def system : System (State T) (Op T) where
  init := ⟨TrieMap.new, .empty, []⟩
  next s op :=
    match s.map.apply op s.ledger.anew with
    | .ok ((res, m), l) => some ⟨m, l, ⟨op, op.ends s.map.erase.entries, res, l.dropped⟩ :: s.log⟩
    | .error _ => none

theorem system_next_eq_some {s s' : State T} {op : Op T} :
    system.next s op = some s' ↔ ∃ res m l, s.map.apply op s.ledger.anew = .ok ((res, m), l)
      ∧ s' = ⟨m, l, ⟨op, op.ends s.map.erase.entries, res, l.dropped⟩ :: s.log⟩ := by
  simp only [system]
  cases s.map.apply op s.ledger.anew with
  | error e => simp
  | ok p =>
    obtain ⟨⟨res, m⟩, l⟩ := p
    simp [eq_comm, and_assoc]

/-- **What holds between the calls**: the map is as it should be with room for the
keys that it was called with, the blocks are those of its nodes, and the bindings that
were made are stored or were taken out. -/
structure Inv (s : State T) : Prop where
  valid : ∀ room, (∀ e ∈ s.log, e.op.key.length ≤ room) → s.map.erase.Valid room
  tagged : s.map.Tagged
  ledger : s.ledger.Valid
  live : (s.ledger.live : Multiset ℕ) = s.map.holding.1
  settled : ∀ e ∈ s.log, e.Settled
  made : made s.log = ended s.log + (s.map.erase.entries : Multiset (Bytes × T))

omit [Target] in
/-- There is room for all keys of a run. -/
theorem exists_room (log : List (Event T)) : ∃ room, ∀ e ∈ log, e.op.key.length ≤ room :=
  ⟨(log.map fun e => e.op.key.length).sum, fun _ he => List.le_sum_of_mem (List.mem_map_of_mem he)⟩

omit [Target] in
/-- **What a call dropped**, from its account and what it does to the entries. -/
theorem event_settled {op : Op T} {E E' : List (Bytes × T)} {res : Option T} {dropped : List T}
    (hempty : ∀ v, ([], v) ∉ E)
    (hremove : ∀ key, op = .remove key → op.ends E = (res.map fun v => (key, v)).toList)
    (hnone : (∀ key, op ≠ .remove key) → res = none)
    (hentries : op.binds + ↑E = ↑(op.ends E) + (E' : Multiset (Bytes × T)))
    (hvalues : op.given.2 + values E
      = (Holding.option Holding.value res).2 + values E' + (dropped : Multiset T)) :
    Event.Settled ⟨op, op.ends E, res, dropped⟩ := by
  have hends : op.binds.map Prod.snd + values E = values (op.ends E) + values E' := by
    rw [values_eq_map, values_eq_map, values_eq_map, ← Multiset.map_add, ← Multiset.map_add,
      hentries]
  -- a call that hands nothing back drops what it took out
  have hdropped : (∀ key, op ≠ .remove key) → op.given.2 = op.binds.map Prod.snd →
      (dropped : Multiset T) = values (op.ends E) := by
    intro hne hgiven
    rw [hnone hne, hgiven, hends] at hvalues
    refine add_right_cancel (b := values E') ?_
    rw [hvalues, add_comm (dropped : Multiset T)]
    exact congrArg (· + _) (zero_add _).symm
  cases op with
  | insert key val =>
    refine ⟨hnone (by rintro _ ⟨⟩),
      fun b hb => of_decide_eq_true (List.mem_filter.mp hb).2, ?_⟩
    by_cases hne : key = []
    · subst hne
      rw [if_pos rfl]
      rw [Op.ends_insert_nil hempty, Op.binds, if_pos rfl] at hends
      have hsame : values E = values E' := by simpa [values] using hends
      rw [hnone (by rintro _ ⟨⟩), hsame] at hvalues
      refine add_right_cancel (b := values E') ?_
      rw [add_comm (dropped : Multiset T)]
      exact (hvalues.trans (congrArg (· + _) (zero_add _))).symm
    · rw [if_neg hne]
      exact hdropped (by rintro _ ⟨⟩) (by rw [Op.binds, if_neg hne]; rfl)
  | remove key =>
    have hres := hremove key rfl
    refine ⟨hres, ?_⟩
    have hvals : values (Op.ends E (.remove key)) = (Holding.option Holding.value res).2 := by
      rw [hres]
      cases res <;> rfl
    rw [← hvals, ← hends] at hvalues
    refine Multiset.coe_eq_zero _ |>.mp (left_eq_add.mp hvalues)
  | removePrefix key =>
    exact ⟨hnone (by rintro _ ⟨⟩), fun b hb => of_decide_eq_true (List.mem_filter.mp hb).2,
      hdropped (by rintro _ ⟨⟩) rfl⟩
  | clear => exact ⟨hnone (by rintro _ ⟨⟩), hdropped (by rintro _ ⟨⟩) rfl⟩

variable {s s' : State T} {op : Op T} {room : ℕ}

omit [Target] in
/-- The blocks of the map are all there are when a call starts. -/
theorem Inv.start (hs : Inv s) (op : Op T) :
    (s.ledger.anew.live : Multiset ℕ) = (op.given + s.map.holding).1 + 0 := by
  have hgiven : op.given.1 = 0 := by cases op <;> rfl
  rw [Prod.fst_add, hgiven, zero_add, add_zero]
  exact hs.live

/-- Every call settles. -/
theorem Inv.settles (hs : Inv s) (op : Op T) :
    Settles (s.map.apply op) (op.given + s.map.holding) (Raw.lift (s.map.erase.apply op.toOp))
      outcome fun r r' => r.1 = r'.1 ∧ r.2.Models r'.2 := by
  obtain ⟨room, hroom⟩ := exists_room s.log
  exact TrieMap.settles_apply (TrieMap.models_iff.mpr ⟨hs.tagged, rfl⟩) (hs.valid room hroom) op

/-- **A call that returns**, with room for its key and those before it. -/
theorem Inv.call (hs : Inv s) (hlog : ∀ e ∈ s.log, e.op.key.length ≤ room)
    (hkey : op.key.length ≤ room) {res : Option T} {m : TrieMap T} {l : Ledger T}
    (hrun : s.map.apply op s.ledger.anew = .ok ((res, m), l)) :
    m.Tagged ∧ m.erase.Valid room ∧ l.Valid ∧ (l.live : Multiset ℕ) = m.holding.1
      ∧ Event.Settled ⟨op, op.ends s.map.erase.entries, res, l.dropped⟩
      ∧ op.binds + ↑s.map.erase.entries
        = ↑(op.ends s.map.erase.entries) + (m.erase.entries : Multiset (Bytes × T)) := by
  have hvalid := hs.valid room hlog
  obtain ⟨⟨res', m'⟩, happly, ⟨rfl, hm⟩, hsettled⟩ :=
    (hs.settles op).of_eq_ok hs.ledger.anew (hs.start op) hrun
  obtain ⟨htag, rfl⟩ := TrieMap.models_iff.mp hm
  obtain ⟨hvalid', hremove, hnone, hentries⟩ :=
    (apply_entries hvalid hkey).of_eq_ok (Raw.lift_eq_ok.mp happly)
  have hblocks : (outcome (res, m)).1 = m.holding.1 := by
    cases res <;> exact zero_add _
  refine ⟨htag, hvalid', hsettled.valid, ?_, event_settled hvalid.nil hremove hnone hentries ?_,
    hentries⟩
  · rw [hsettled.live, add_zero, hblocks]
  · rw [← TrieMap.values_entries hs.tagged, ← TrieMap.values_entries htag]
    exact (add_zero _).symm.trans hsettled.values

/-- **A call that does not return** panics because a prefix does not fit, and there is room
for one that does not. -/
theorem Inv.error (hs : Inv s) (hlog : ∀ e ∈ s.log, e.op.key.length ≤ room)
    (hkey : op.key.length ≤ room) {e : Stop} (hrun : s.map.apply op s.ledger.anew = .error e) :
    ∃ f, e = .panic f ∧ Prefix.Refuses room f := by
  have herror := (hs.settles op).of_eq_error hs.ledger.anew (hs.start op) hrun
  have hreturns := apply_entries (hs.valid room hlog) hkey
  cases happly : s.map.erase.apply op.toOp with
  | ok r =>
    rw [happly] at herror
    cases herror
  | error e' =>
    rw [happly] at herror hreturns
    obtain rfl : Stop.panic e' = e := Except.error.inj herror
    exact ⟨e', rfl, hreturns⟩

omit [Target] in
/-- **The end of the map.** -/
theorem Inv.drop (hs : Inv s) : ∃ l, s.map.drop s.ledger.anew = .ok ((), l) ∧ l.live = []
    ∧ (l.dropped : Multiset T) = values s.map.erase.entries := by
  obtain ⟨room, hroom⟩ := exists_room s.log
  have hend := TrieMap.settles_dropRoot (TrieMap.models_iff.mpr ⟨hs.tagged, rfl⟩)
    (hs.valid room hroom)
  obtain ⟨⟨⟩, l, hdrop, -, hsettled⟩ := hend.exists_ok hs.ledger.anew
    (hs.live.trans (add_zero _).symm)
  refine ⟨l, hdrop, Multiset.coe_eq_zero _ |>.mp hsettled.live, ?_⟩
  rw [← TrieMap.values_entries hs.tagged]
  exact ((add_zero _).symm.trans (hsettled.values.trans (zero_add _))).symm

/-- **Every call keeps the invariant.** -/
theorem Inv.step (hs : Inv s) (hnext : system.next s op = some s') : Inv s' := by
  obtain ⟨res, m, l, hrun, rfl⟩ := system_next_eq_some.mp hnext
  obtain ⟨room, hroom⟩ := exists_room s.log
  obtain ⟨htag, -, hledger, hlive, hevent, hentries⟩ :=
    hs.call (fun e he => (hroom e he).trans (Nat.le_max_left room op.key.length))
      (Nat.le_max_right room op.key.length) hrun
  refine ⟨fun room' h => ?_, htag, hledger, hlive, ?_, ?_⟩
  · exact (hs.call (fun e he => h e (List.mem_cons_of_mem _ he)) (h _ List.mem_cons_self) hrun).2.1
  · exact List.forall_mem_cons.mpr ⟨hevent, hs.settled⟩
  · rw [Owned.made, Owned.ended, List.map_cons, List.map_cons, List.sum_cons, List.sum_cons]
    show op.binds + Owned.made s.log = ↑(op.ends s.map.erase.entries) + Owned.ended s.log + _
    rw [hs.made, add_left_comm, hentries, add_left_comm, add_assoc]

/-- **The invariant holds in every run.** -/
theorem inv_of_reachable (h : system.Reachable s) : Inv s := by
  refine h.invariant ?_ fun s op s' _ hs _ hnext => hs.step hnext
  exact ⟨fun room _ => Trie.TrieMap.valid_none room,
    fun _ h => absurd h.symm (Option.some_ne_none _), Ledger.valid_empty, rfl,
    List.forall_mem_nil _, rfl⟩

/-- **Values are conserved**, in every state of every run. The tag of every node is set
when there is a value in its slot, and only then; the blocks that are allocated are those
of the nodes, each once. Every call ended the values of what it took out, as it should,
and what was bound is what was taken out and what is stored, each as often. A call never
does what has no meaning: it returns, or it panics because a key is too long for a
prefix. And when the map is dropped, so are the values stored, and all blocks are freed. -/
theorem conserved (h : system.Reachable s) :
    s.map.Tagged
    ∧ s.ledger.live.Nodup ∧ (s.ledger.live : Multiset ℕ) = s.map.holding.1
    ∧ (∀ e ∈ s.log, e.Settled)
    ∧ made s.log = ended s.log + (s.map.erase.entries : Multiset (Bytes × T))
    ∧ (∀ op e, s.map.apply op s.ledger.anew = .error e → ∃ f, e = .panic f
        ∧ ∃ op' ∈ op :: s.log.map Event.op, Prefix.Refuses op'.key.length f)
    ∧ ∃ l, s.map.drop s.ledger.anew = .ok ((), l) ∧ l.live = []
        ∧ (l.dropped : Multiset T) = values s.map.erase.entries := by
  have hs := inv_of_reachable h
  refine ⟨hs.tagged, hs.ledger.nodup, hs.live, hs.settled, hs.made, fun op e herror => ?_, hs.drop⟩
  -- the longest key so far is the room there is
  obtain ⟨op', hop', hlongest⟩ := Multiset.exists_max_image (fun op : Op T => op.key.length)
    (show ((op :: s.log.map Event.op : List (Op T)) : Multiset (Op T)) ≠ 0 from
      mt (Multiset.coe_eq_zero _).mp (List.cons_ne_nil _ _))
  obtain ⟨f, rfl, hrefuses⟩ := hs.error
    (fun e he => hlongest _ (List.mem_cons_of_mem op (List.mem_map_of_mem he)))
    (hlongest op List.mem_cons_self) herror
  exact ⟨f, rfl, op', hop', hrefuses⟩

end Runs

/-- Two keys that are split off each other, the first bound twice and the second
removed. -/
def splitCalls : List (Op ℕ) :=
  [.insert [97, 98] 1, .insert [97, 99] 2, .insert [97, 98] 3, .remove [97, 99]]

/-- In such a run one value is dropped by a call, one handed back, and one is dropped
with the map. -/
theorem conserved_splitCalls :
    letI : Target := Target.x86_64
    ∃ s, system.run system.init splitCalls = some s
      ∧ s.log.map Event.dropped = [[], [1], [], []]
      ∧ s.log.map Event.returned = [some 2, none, none, none]
      ∧ ∃ l, s.map.drop s.ledger.anew = .ok ((), l) ∧ l.live = [] ∧ l.dropped = [3] := by
  let target : Target := Target.x86_64
  have hrun : (system.run system.init splitCalls).map (fun s =>
      (s.log.map Event.dropped, s.log.map Event.returned, s.map.erase.entries))
      = some ([[], [1], [], []], [some 2, none, none, none], [([97, 98], 3)]) := by
    decide +kernel
  obtain ⟨s, hs, hlog⟩ := Option.map_eq_some_iff.mp hrun
  obtain ⟨hdropped, hlog⟩ := Prod.mk.inj hlog
  obtain ⟨hreturned, hentries⟩ := Prod.mk.inj hlog
  obtain ⟨-, -, -, -, -, -, l, hdrop, hlive, hvalues⟩ := conserved (.of_run hs)
  rw [hentries] at hvalues
  exact ⟨s, hs, hdropped, hreturned, l, hdrop, hlive,
    List.perm_singleton.mp (Multiset.coe_eq_coe.mp hvalues)⟩

end Owned

end Trie
