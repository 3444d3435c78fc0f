import TonStaking.Source.StakingPool.Receive
import TonStaking.Tvm.HashmapNearest

/-!
# Staking pool: the index of a subscriber

Lines 204-219 and 594 of `staking/smartcont/staking-pool-code.fc`. The inner
dictionary of a subscriber is written with 16-bit periods and 32-bit ids, and
`process_new_subscription` reads it back with 32-bit keys. Whatever that read
returns is shorter than a subscription record, so the top-up branch always
raises an exception.
-/
namespace TonStaking.Source.StakingPool
open Tvm Hashmap

/-- The slice of `pack_subscribers_entry`. -/
def indexEntry (id : Uint 32) : Slice := ⟨Uint.bits id, []⟩

/-- An inner dictionary as the contract writes it. -/
structure IndexTrie where
  trie : Trie
  wf : trie.WF 16
  entries : trie.All fun v => ∃ id, v = indexEntry id

namespace IndexTrie

variable (x : IndexTrie) (period p : Uint 16) (id : Uint 32)

def root : Subscriber := some (x.trie.toCell 16)

def single : IndexTrie where
  trie := .leaf (Uint.bits period) (indexEntry id)
  wf := by
    have := Trie.WF.leaf (Uint.bits period) (indexEntry id)
    rwa [Uint.bits_length] at this
  entries := ⟨id, rfl⟩

theorem single_root :
    (single period id).root =
      some ((Trie.leaf (Uint.bits period) (indexEntry id)).toCell 16) := rfl

def insert : IndexTrie where
  trie := x.trie.insert (indexEntry id) (Uint.bits period)
  wf := Trie.insert_wf x.wf (indexEntry id) (Uint.bits_length period)
  entries := Trie.insert_all x.entries ⟨id, rfl⟩ (Uint.bits period)

theorem small_indexEntry : Small (indexEntry id) :=
  ⟨by simp [indexEntry], rfl⟩

theorem entries_small : x.trie.All Small :=
  x.entries.imp fun _ ⟨id, equal⟩ => equal ▸ small_indexEntry id

theorem udictSet_root :
    Hashmap.udictSet 16 x.root (period : Int) (indexEntry id) = .ok (x.insert period id).root :=
  udictSet_toCell x.wf (by decide) x.entries_small (small_indexEntry id) period

theorem udictSet_absent :
    Hashmap.udictSet 16 none (period : Int) (indexEntry id) = .ok (single period id).root :=
  udictSet_none (by decide) (small_indexEntry id) period

theorem udictGet?_root :
    Hashmap.udictGet? 16 x.root (period : Int) = .ok (x.trie.get? (Uint.bits period)) :=
  udictGet?_toCell x.wf period

theorem get?_single :
    (single period id).trie.get? (Uint.bits p) = if p = period then some (indexEntry id) else none := by
  simp [single, Trie.get?, Uint.bits_inj]

theorem get?_insert :
    (x.insert period id).trie.get? (Uint.bits p) =
      if p = period then some (indexEntry id) else x.trie.get? (Uint.bits p) := by
  rw [insert, Trie.get?_insert x.wf _ (Uint.bits_length _) (Uint.bits_length _)]
  simp [Uint.bits_inj]

theorem get?_of_root {x y : IndexTrie} (same : x.root = y.root) (p : Uint 16) :
    x.trie.get? (Uint.bits p) = y.trie.get? (Uint.bits p) := by
  have found := x.udictGet?_root p
  rw [same, udictGet?_root] at found
  exact (Except.ok.inj found).symm

theorem insert_root_single {x : IndexTrie} {period : Uint 16} {old : Uint 32}
    (known : x.root = (single period old).root) (new : Uint 32) :
    (x.insert period new).root = (single period new).root := by
  have written := x.udictSet_root period new
  rw [known, udictSet_root] at written
  rw [← Except.ok.inj written]
  show some ((Trie.insert (indexEntry new) (.leaf (Uint.bits period) (indexEntry old))
    (Uint.bits period)).toCell 16) = _
  rw [Trie.insert_leaf_self, single_root]

/-- No search in the index returns more than 56 bits. -/
theorem udictGetPrev?_length {x : IndexTrie} {n k : Nat} {pivot : Int} {value : Slice}
    (h : Hashmap.udictGetPrev? n x.root pivot = .ok (some (k, value))) : value.bits.length ≤ 56 := by
  have narrow : x.trie.All fun v => v.bits.length ≤ 32 ∧ v.refs = [] :=
    x.entries.imp fun _ ⟨id, equal⟩ => by
      subst equal
      exact ⟨by simp [indexEntry], rfl⟩
  have within : Within 56 (x.trie.toCell 16) := by
    apply toCell_within x.wf narrow
    · decide
    · intro m le
      exact bitLen_le (lt_of_le_of_lt le (lt_two_pow_bitLen 16))
  exact udictGetNear_length within h

end IndexTrie

theorem indexEntry_inj {a b : Uint 32} (same : indexEntry a = indexEntry b) : a = b :=
  Uint.bits_inj.mp (congrArg Slice.bits same)

theorem unpackSubscribersEntry_indexEntry (id : Uint 32) : unpackSubscribersEntry (indexEntry id) = .ok id := by
  simp [unpackSubscribersEntry, indexEntry]

theorem packSubscribersEntry_val (id : Uint 32) : packSubscribersEntry (id : Int) = .ok (indexEntry id) := by
  simp [packSubscribersEntry, indexEntry]

theorem packSubscribersEntry_success {id : Int} {entry : Slice}
    (h : packSubscribersEntry id = .ok entry) :
    ∃ stored : Uint 32, (stored : Int) = id ∧ entry = indexEntry stored := by
  obtain ⟨stored, fits, h⟩ := of_bind h
  exact ⟨stored, storeUint_success fits, (Except.ok.inj h).symm⟩

theorem loadGrams_length {s t : Slice} {g : Grams} (h : loadGrams s = .ok (g, t)) :
    4 + t.bits.length ≤ s.bits.length := by
  unfold loadGrams at h
  split at h
  · dsimp only at h
    split at h
    · cases h
      simp only [List.length_drop]
      omega
    · cases h
  · cases h

theorem loadInt8_length {s t : Slice} {x : Sint 8} (h : loadInt8 s = .ok (x, t)) :
    s.bits.length = 8 + t.bits.length := by
  obtain ⟨⟨raw, rest⟩, loaded, h⟩ := of_bind h
  have len := loadUint_length loaded
  dsimp only at h
  split at h
  · cases h
    exact len
  · cases h
    exact len

theorem unpackSubscription_length {cs : Slice} {sub : Subscription}
    (h : unpackSubscription cs = .ok sub) : 308 ≤ cs.bits.length := by
  obtain ⟨⟨_, cs1⟩, h1, h⟩ := of_bind h
  obtain ⟨⟨_, cs2⟩, h2, h⟩ := of_bind h
  obtain ⟨⟨_, cs3⟩, h3, h⟩ := of_bind h
  obtain ⟨⟨_, cs4⟩, h4, h⟩ := of_bind h
  obtain ⟨⟨_, cs5⟩, h5, h⟩ := of_bind h
  obtain ⟨⟨_, cs6⟩, h6, h⟩ := of_bind h
  have l1 := loadUint_length h1
  have l2 := loadInt8_length h2
  have l3 := loadGrams_length h3
  have l4 := loadUint_length h4
  have l5 := loadUint_length h5
  have l6 := loadUint_length h6
  omega

/-- Every stored inner dictionary has the shape the contract writes. -/
def Indexed (s : State) : Prop :=
  ∀ hash subscriber, s.subscribers.get? hash = some subscriber → ∃ x : IndexTrie, subscriber = x.root

/-- The sender's index, read with 32-bit keys, shows a key other than the current period. -/
def Legible (s : State) (hash : Uint 256) : Prop :=
  ∀ x : IndexTrie, s.subscribers.get? hash = some x.root →
    ∃ k v, Hashmap.udictGetPrev? 32 x.root lastIdx = .ok (some (k, v)) ∧ k ≠ s.currentPeriod.val

theorem findSubscriber_legible {s : State} (indexed : Indexed s) {hash : Uint 256}
    (legible : Legible s hash) (srcWc srcAddr amount : Int) :
    findSubscriber s hash srcWc srcAddr amount = .ok ((s.subscribers.get? hash).getD none, s.subscriptions) := by
  unfold findSubscriber
  cases known : s.subscribers.get? hash with
  | none => rfl
  | some subscriber =>
    obtain ⟨x, rfl⟩ := indexed _ _ known
    obtain ⟨k, v, search, other⟩ := legible x known
    simp [search, orNull, if_neg other]

/-- A search that fails, finds nothing or shows the current period aborts the deposit. -/
theorem findSubscriber_requires_legible {s : State} {hash : Uint 256} {srcWc srcAddr amount : Int}
    {result : Subscriber × Dict 32 Subscription}
    (h : findSubscriber s hash srcWc srcAddr amount = .ok result) : Legible s hash := by
  intro x known
  unfold findSubscriber at h
  rw [known] at h
  obtain ⟨found, search, h⟩ := of_bind h
  obtain ⟨⟨k, v⟩, present, entered⟩ := of_bind h
  rw [orNull_success] at present
  subst present
  refine ⟨k, v, search, ?_⟩
  intro current
  dsimp only at entered
  rw [if_pos current] at entered
  obtain ⟨topped, reached, -⟩ := of_bind entered
  obtain ⟨_, -, reached⟩ := of_bind reached
  obtain ⟨old, unpacked, -⟩ := of_bind reached
  have long := unpackSubscription_length unpacked
  have short := IndexTrie.udictGetPrev?_length search
  omega

/-- The top-up branch cannot complete. -/
theorem findSubscriber_success {s : State} (indexed : Indexed s) {hash : Uint 256}
    {srcWc srcAddr amount : Int} {subscriber : Subscriber} {subscriptions : Dict 32 Subscription}
    (h : findSubscriber s hash srcWc srcAddr amount = .ok (subscriber, subscriptions)) :
    subscriptions = s.subscriptions ∧ subscriber = (s.subscribers.get? hash).getD none := by
  rw [findSubscriber_legible indexed (findSubscriber_requires_legible h)] at h
  cases h
  exact ⟨rfl, rfl⟩

end TonStaking.Source.StakingPool
