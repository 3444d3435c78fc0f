import TonStaking.Guarantees.ShardTree
import TonStaking.Source.Shard.State
import TonStaking.Source.Transaction.Effects

/-!
# Splitting and merging a shard loses nothing

The two halves of a valid state partition its accounts, its outbound queue and its
pending messages; their balances and fees add up to those of the state, and a
merge of the halves, in either order, gives the state back.
-/
namespace TonStaking.Guarantees.ShardSplit

open BitVec Tvm Tvm.Hashmap Word Source.Currency Source.Transaction Source.Shard Source.Shard.ShardState AugTrie Extra
open ShardTree

/-- A state of a shard that can be split: its dictionaries are well formed, with keys and addresses of the shard, and
its totals are those of the accounts. -/
structure ValidState (fmt : Formats) (s : ShardState) : Prop where
  workchain : s.id.workchain ≠ workchainInvalid
  shard : s.id.shard ≠ 0
  short : shardPrefixLength s.id.shard < 60
  accounts : AugTrie.Valid fmt.augShardAccounts 256 s.accountDict
  accountKeys : ∀ k, (AugTrie.lookup s.accountDict k).isSome → shardPrefixBits s.id.shard <+: k
  balance : ∃ extra, AugTrie.rootExtra fmt.augShardAccounts s.accountDict = some extra ∧
    extra.balance.funds = s.totalBalance ∧ validateUpto 1024 extra.balance = true
  queue : AugTrie.Valid augOutMsgQueue 352 s.outMsgQueue
  queued : ∀ k v, AugTrie.lookup s.outMsgQueue k = some v →
    ∃ cur, currentPrefix fmt v = some cur ∧ s.id.contains cur = true
  pending : AugTrie.Valid .plain 320 s.ihrPending
  pendingKeys : ∀ k, (AugTrie.lookup s.ihrPending k).isSome → shardPrefixBits s.id.shard <+: k
  processed : s.processedUpto.owner = s.id
  fees : ∃ fees, s.totalValidatorFees = some fees ∧ 0 ≤ fees.grams ∧ fees.extra = none
  libraries : s.shardLibraries = none

/-- Every entry of a dictionary is in exactly one of two others, which have no entries beside. -/
structure Partition {E : Type} (d d1 d2 : Option (AugTrie E)) : Prop where
  keys : ∀ k, AugTrie.lookup d k = (AugTrie.lookup d1 k).or (AugTrie.lookup d2 k)
  apart : ∀ k, AugTrie.lookup d1 k = none ∨ AugTrie.lookup d2 k = none

/-- A merge has given back the shard with its dictionaries and totals. -/
structure Restored (s m : ShardState) : Prop where
  id : m.id = s.id
  accountDict : m.accountDict = s.accountDict
  outMsgQueue : m.outMsgQueue = s.outMsgQueue
  ihrPending : m.ihrPending = s.ihrPending
  totalBalance : m.totalBalance = s.totalBalance
  totalValidatorFees : m.totalValidatorFees = s.totalValidatorFees

section Children

variable {x : ShardIdFull}

/-- The two children of a shard and what the functions on identifiers say about them. -/
structure Children (x : ShardIdFull) (child : Bool → ShardIdFull) : Prop where
  isChild : ∀ right, x.child (!right) = some (child right)
  workchain : ∀ right, (child right).workchain = x.workchain
  isParent : ∀ right, x.isParent (child right) = true
  parent : ∀ right, (child right).parent = some x
  isAncestor : ∀ right, x.isAncestor (child right) = true
  isSibling : ∀ right, (child right).isSibling (child (!right)) = true
  isRightChild : ∀ right, isRightChild (child right).shard = right
  bits : ∀ right, shardPrefixBits (child right).shard = shardPrefixBits x.shard ++ [right]
  contains : ∀ right a, x.contains a = true → (child right).contains a = !(child (!right)).contains a

theorem shardParent_child {p c : ShardId} (hp : p ≠ 0) (hc : c ≠ 0) (low : lowest c + 1 = lowest p)
    (agree : AgreeAbove (lowest p) c p) : shardParent c = some p := by
  have position := lowest_lt hp
  obtain ⟨q, parent, hq, lowQ, agreeQ⟩ := shardParent_spec hc (by omega)
  have same : lowest q = lowest p := by omega
  rw [parent]
  refine congrArg some (eq_of_agree hq hp same (agreeQ.trans ?_))
  rw [same]
  exact agree

theorem shardSibling_child {p c d : ShardId} (hp : p ≠ 0) (hc : c ≠ 0) (hd : d ≠ 0) (lowC : lowest c + 1 = lowest p)
    (lowD : lowest d + 1 = lowest p) (agreeC : AgreeAbove (lowest p) c p) (agreeD : AgreeAbove (lowest p) d p)
    (differ : d.getLsbD (lowest p) = !c.getLsbD (lowest p)) : shardSibling c = d := by
  have position := lowest_lt hp
  obtain ⟨hs, lowS, agreeS, bitS⟩ := shardSibling_spec hc (by omega)
  rw [lowC] at agreeS bitS
  refine eq_of_agree hs hd (by omega) fun i above inside => ?_
  by_cases first : i = lowest p
  · rw [first, bitS, differ]
  · exact (agreeS.trans (agreeC.trans agreeD.symm)) i (by omega) inside

theorem shardIsSibling_of_eq {c d : ShardId} (nonzero : c ≠ 0) (proper : lowest c < 63) (sibling : shardSibling c = d) :
    shardIsSibling c d = true := by
  have difference : c ^^^ d = (c &&& bitsNegate64 c) <<< 1 := by
    rw [← sibling, shardSibling, ← BitVec.xor_assoc, BitVec.xor_self, BitVec.zero_xor]
  have set : ((c &&& bitsNegate64 c) <<< 1).getLsbD (lowest c + 1) = true := by
    rw [bitsNegate64_eq, and_neg_self nonzero, twoPow_shiftLeft_one]
    exact decide_eq_true ⟨rfl, by omega⟩
  rw [shardIsSibling, decide_eq_true_eq, difference]
  exact ⟨ne_zero_of_set set, rfl⟩

theorem shardPrefixBits_child {p c : ShardId} (hp : p ≠ 0) (hc : c ≠ 0) (low : lowest c + 1 = lowest p)
    (agree : AgreeAbove (lowest p) c p) : shardPrefixBits c = shardPrefixBits p ++ [c.getLsbD (lowest p)] := by
  have position := lowest_lt hp
  have longer : shardPrefixLength c = shardPrefixLength p + 1 := by
    rw [shardPrefixLength_eq hc, shardPrefixLength_eq hp]
    omega
  unfold shardPrefixBits
  rw [longer, List.range_succ, List.map_append, List.map_singleton]
  have above : ∀ i ∈ List.range (shardPrefixLength p), c.getMsbD i = p.getMsbD i := by
    intro i inside
    rw [List.mem_range, shardPrefixLength_eq hp] at inside
    rw [getMsbD_eq_getLsbD, getMsbD_eq_getLsbD, agree (64 - 1 - i) (by omega) (by omega)]
  have last : c.getMsbD (shardPrefixLength p) = c.getLsbD (lowest p) := by
    rw [shardPrefixLength_eq hp, getMsbD_eq_getLsbD, decide_eq_true (by omega), Bool.true_and]
    congr 1
    omega
  rw [List.map_congr_left above, last]

theorem contains_children {l r : ShardIdFull} (hx : x.shard ≠ 0) (hl : l.shard ≠ 0) (hr : r.shard ≠ 0)
    (union : accountsOf l ∪ accountsOf r = accountsOf x) (disjoint : Disjoint (accountsOf l) (accountsOf r))
    {a : AccountIdPrefixFull} (inside : x.contains a = true) : l.contains a = !r.contains a := by
  rw [contains_agrees hx, ← union] at inside
  rw [Bool.eq_not_iff]
  intro same
  rcases inside with inL | inR
  · have inR := (contains_agrees hr a).mp (same ▸ (contains_agrees hl a).mpr inL)
    exact Set.disjoint_left.mp disjoint inL inR
  · have inL := (contains_agrees hl a).mp (same ▸ (contains_agrees hr a).mpr inR)
    exact Set.disjoint_left.mp disjoint inL inR

theorem exists_children (hx : x.shard ≠ 0) (room : 0 < lowest x.shard) : ∃ child, Children x child := by
  have position := lowest_lt hx
  have each (right : Bool) := shardChild_spec hx room (!right)
  choose c isChild nonzero low agree bit using each
  have bits (right : Bool) : (c right).getLsbD (lowest x.shard) = right := by rw [bit, Bool.not_not]
  have parents (right : Bool) := shardParent_child hx (nonzero right) (low right) (agree right)
  have split (right : Bool) := accountsOf_split x.workchain
    (accounts_split (nonzero right) (nonzero !right) hx (low right) (low !right) (agree right) (agree !right)
      (by rw [bits, bits]))
  refine ⟨fun right => ⟨x.workchain, c right⟩, ?_, fun _ => rfl, ?_, ?_, ?_, ?_, ?_, ?_, ?_⟩
  · intro right
    rw [ShardIdFull.child, isChild]
    rfl
  · intro right
    rw [ShardIdFull.isParent, decide_eq_true_eq]
    refine ⟨rfl, ?_⟩
    rw [shardIsParent, decide_eq_true_eq, lowerBit64_eq (nonzero right)]
    exact ⟨twoPow_ne_zero (lowest_lt (nonzero right)), parents right⟩
  · intro right
    rw [ShardIdFull.parent, parents]
    rfl
  · intro right
    rw [ShardIdFull.isAncestor, decide_eq_true_eq]
    refine ⟨rfl, (shardIsAncestor_iff hx (nonzero right)).mpr ?_⟩
    have := low right
    exact ⟨by omega, (agree right).symm⟩
  · intro right
    have := low right
    rw [ShardIdFull.isSibling, decide_eq_true_eq]
    refine ⟨rfl, shardIsSibling_of_eq (nonzero right) (show lowest (c right) < 63 by omega) ?_⟩
    exact shardSibling_child hx (nonzero right) (nonzero !right) (low right) (low !right) (agree right) (agree !right)
      (by rw [bits, bits])
  · intro right
    have := low right
    rw [isRightChild_iff (nonzero right) (by omega), low, bits]
  · intro right
    have longer := shardPrefixBits_child hx (nonzero right) (low right) (agree right)
    rwa [bits] at longer
  · intro right a inside
    exact contains_children (l := ⟨x.workchain, c right⟩) (r := ⟨x.workchain, c !right⟩) hx (nonzero right)
      (nonzero !right) (split right).1 (split right).2 inside

end Children

section Balances

variable {a b c : Option Extra}

theorem add_amount (done : add a b = some c) (id : Uint 32) : amount c id = amount a id + amount b id := by
  obtain ⟨c', again, amounts⟩ := add_eq_some (add_fits done)
  rw [done] at again
  cases again
  exact amounts id

theorem add_comm (done : add a b = some c) : add b a = some c := by
  obtain ⟨c', swapped, amounts⟩ := add_eq_some (a := b) (b := a) fun id => by
    rw [Nat.add_comm]
    exact add_fits done id
  rw [swapped]
  refine congrArg some (ext_amount fun id => ?_)
  rw [amounts, add_amount done, Nat.add_comm]

theorem nodes_le {e c : Extra} (done : add (some e) b = some (some c)) : e.trie.nodes ≤ c.trie.nodes := by
  refine Trie.nodes_le_of_keys (pair e c) fun k found => ?_
  obtain ⟨id, rfl⟩ := Uint.exists_bits (e.wf.length_of_get? found)
  obtain ⟨v, entry⟩ := Option.isSome_iff_exists.mp found
  have positive := (get?_eq_amount entry).2.1
  have total := add_amount done id
  rw [get?_of_amount_pos (by omega : 0 < amount (some c) id)]
  rfl

theorem addValues_success {x y z : DepthBalance} (sum : x.addValues y = some z) :
    z.balance.grams.val = x.balance.grams.val + y.balance.grams.val ∧
      add x.balance.extra y.balance.extra = some z.balance.extra := by
  unfold DepthBalance.addValues at sum
  split at sum
  · cases sum
  split at sum
  · obtain ⟨extra, added, rfl⟩ := Option.map_eq_some_iff.mp sum
    exact ⟨rfl, added⟩
  · cases sum

theorem addValues_funds {x y z : DepthBalance} (sum : x.addValues y = some z) :
    x.balance.funds.add y.balance.funds = some z.balance.funds := by
  obtain ⟨grams, added⟩ := addValues_success sum
  unfold Funds.add Value.funds
  rw [added]
  simp [grams]

theorem funds_add_comm {f g h : Funds} (done : f.add g = some h) : g.add f = some h := by
  obtain ⟨grams, added⟩ := Funds.add_success done
  unfold Funds.add
  rw [add_comm added]
  simp only [Option.some.injEq, Funds.ext_iff]
  exact ⟨by omega, trivial⟩

theorem validateUpto_summand {n : Nat} {v w : Value} {extra : Option Extra} (sum : add v.extra extra = some w.extra)
    (small : validateUpto n w = true) : validateUpto n v = true := by
  unfold validateUpto at small ⊢
  cases first : v.extra with
  | none => rfl
  | some e =>
    rw [first] at sum
    cases total : w.extra with
    | none =>
      obtain ⟨k, len, found⟩ := e.wf.exists_key
      obtain ⟨id, rfl⟩ := Uint.exists_bits len
      obtain ⟨value, entry⟩ := Option.isSome_iff_exists.mp found
      have positive := (get?_eq_amount entry).2.1
      have amounts := add_amount sum id
      rw [total, amount_none] at amounts
      omega
    | some c =>
      rw [total] at sum small
      have fewer := nodes_le sum
      simp only [decide_eq_true_eq] at small ⊢
      omega

end Balances

section Halves

variable {fmt : Formats} {s : ShardState} {child : Bool → ShardIdFull}

/-- The accounts of a child. -/
def half (s : ShardState) (right : Bool) : Option (AugTrie DepthBalance) :=
  AugTrie.cutPrefixSubdict 256 s.accountDict (shardPrefixBits s.id.shard ++ [right])

theorem shardPrefixBits_length (shard : ShardId) : (shardPrefixBits shard).length = shardPrefixLength shard := by
  simp [shardPrefixBits]

theorem half_spec (valid : ValidState fmt s) (right : Bool) :
    AugTrie.Valid fmt.augShardAccounts 256 (half s right) ∧ ∀ k, lookup (half s right) k =
      if shardPrefixBits s.id.shard ++ [right] <+: k then lookup s.accountDict k else none := by
  have short := valid.short
  refine cutPrefixSubdict_spec valid.accounts ?_
  rw [List.length_append, shardPrefixBits_length, List.length_singleton]
  omega

/-- The balances of the halves are small enough to be read and add up to the balance of the state. -/
theorem half_balances (valid : ValidState fmt s) : ∃ x : Bool → DepthBalance,
    (∀ right, rootExtra fmt.augShardAccounts (half s right) = some (x right)) ∧
      (∀ right, validateUpto 1024 (x right).balance = true) ∧
      ∀ right, (x right).balance.funds.add (x !right).balance.funds = some s.totalBalance := by
  obtain ⟨total, root, same, small⟩ := valid.balance
  have short := valid.short
  rcases rootExtra_halves valid.accounts valid.accountKeys (by rw [shardPrefixBits_length]; omega)
    (fun right => (half_spec valid right).1) (fun right => (half_spec valid right).2) with
    ⟨gone, none, rest⟩ | ⟨x, y, left, right, forked⟩
  · obtain ⟨x, here, there⟩ : ∃ x : Bool → DepthBalance, x gone = fmt.augShardAccounts.evalEmpty ∧ x (!gone) = total :=
      ⟨fun right => if right = gone then fmt.augShardAccounts.evalEmpty else total, by simp, by simp⟩
    have empty : fmt.augShardAccounts.evalEmpty.balance.funds = Funds.zero := rfl
    refine ⟨x, fun right => ?_, fun right => ?_, fun right => ?_⟩
    · rcases Bool.eq_or_eq_not right gone with rfl | rfl
      · rw [here, none]
        rfl
      · rw [there, rest, root]
    · rcases Bool.eq_or_eq_not right gone with rfl | rfl
      · rw [here]
        rfl
      · rw [there]
        exact small
    · rcases Bool.eq_or_eq_not right gone with rfl | rfl
      · rw [here, there, empty, same]
        exact funds_add_comm (Funds.add_zero _)
      · rw [Bool.not_not, here, there, empty, same]
        exact Funds.add_zero _
  · rw [root] at forked
    have sum : x.addValues y = some total := forked.symm
    have added := (addValues_success sum).2
    have funds := addValues_funds sum
    rw [same] at funds
    refine ⟨fun right => if right then y else x, ?_, ?_, ?_⟩
    · intro side
      cases side with
      | true => exact right
      | false => exact left
    · intro side
      cases side with
      | true => exact validateUpto_summand (add_comm added) small
      | false => exact validateUpto_summand added small
    · intro side
      cases side with
      | true => exact funds_add_comm funds
      | false => exact funds

/-- The state of a child, by what it takes from the state that is split. -/
structure Half (fmt : Formats) (s : ShardState) (child : ShardIdFull) (right : Bool) (x : DepthBalance) (h : ShardState) :
    Prop where
  id : h.id = child
  accountDict : h.accountDict = half s right
  queue : AugTrie.Valid augOutMsgQueue 352 h.outMsgQueue
  queued : ∀ k, AugTrie.lookup h.outMsgQueue k =
    (AugTrie.lookup s.outMsgQueue k).filter fun v => (currentPrefix fmt v).any child.contains
  pending : AugTrie.Valid .plain 320 h.ihrPending
  pendingKeys : ∀ k, AugTrie.lookup h.ihrPending k =
    if shardPrefixBits s.id.shard ++ [right] <+: k then AugTrie.lookup s.ihrPending k else none
  processed : h.processedUpto.owner = child
  totalBalance : h.totalBalance = x.balance.funds
  fees : h.totalValidatorFees =
    s.totalValidatorFees.map fun fees => { fees with grams := (fees.grams + right.toNat) / 2 }
  libraries : h.shardLibraries = s.shardLibraries

/-- The queue of a child holds the entries that wait at one of its accounts. -/
theorem filterOutMsgQueue_spec (valid : ValidState fmt s) (subshard : ShardIdFull) :
    ∃ queue, filterOutMsgQueue fmt s.outMsgQueue s.id subshard = some queue ∧ AugTrie.Valid augOutMsgQueue 352 queue ∧
      ∀ k, lookup queue k = (lookup s.outMsgQueue k).filter fun v => (currentPrefix fmt v).any subshard.contains := by
  have answer (k : List Bool) (v : Slice) (entry : lookup s.outMsgQueue k = some v) :
      staysInQueue fmt s.id subshard v k = some ((currentPrefix fmt v).any subshard.contains) := by
    obtain ⟨cur, found, inside⟩ := valid.queued k v entry
    have length := valid.queue.length_of_lookup (Option.isSome_iff_exists.mpr ⟨v, entry⟩)
    simp [staysInQueue, length, found, inside]
  have defined (k : List Bool) (v : Slice) (entry : lookup s.outMsgQueue k = some v) :
      (staysInQueue fmt s.id subshard v k).isSome := by
    rw [answer k v entry]
    rfl
  obtain ⟨queue, done, validQueue, keys⟩ := filter_spec (fun x y => rfl) valid.queue defined
  refine ⟨queue, done, validQueue, fun k => ?_⟩
  rw [keys]
  cases entry : lookup s.outMsgQueue k with
  | none => rfl
  | some v => simp [Option.filter, answer k v entry]

theorem cut_hasCommonPrefix {E : Type} {aug : Augmentation E} {n : Nat} {d : Option (AugTrie E)} {start : List Bool}
    (valid : AugTrie.Valid aug n d) (short : start.length ≤ n) :
    hasCommonPrefix n (cutPrefixSubdict n d start) start = true := by
  obtain ⟨validCut, keys⟩ := cutPrefixSubdict_spec valid short
  rw [hasCommonPrefix_iff validCut short]
  intro k found
  rw [keys] at found
  split at found
  · next starts => exact starts
  · cases found

theorem processedUpto_split (valid : ValidState fmt s) (kids : Children s.id child) (right : Bool) :
    ∃ v, s.processedUpto.split (child right) = some v ∧ v.owner = child right := by
  unfold MsgProcessedUptoCollection.split
  rw [valid.processed, kids.isAncestor]
  simp only [Bool.not_true, Bool.false_eq_true, if_false]
  split
  · next same => exact ⟨_, rfl, valid.processed.trans same⟩
  · exact ⟨_, rfl, rfl⟩

theorem split_spec (valid : ValidState fmt s) (kids : Children s.id child) {x : Bool → DepthBalance}
    (root : ∀ right, rootExtra fmt.augShardAccounts (half s right) = some (x right))
    (small : ∀ right, validateUpto 1024 (x right).balance = true) (right : Bool) :
    ∃ h, split fmt s (child right) = .ok h ∧ Half fmt s (child right) right (x right) h := by
  have short := valid.short
  have length : (shardPrefixBits s.id.shard ++ [right]).length ≤ 256 := by
    rw [List.length_append, shardPrefixBits_length, List.length_singleton]
    omega
  obtain ⟨queue, filtered, validQueue, queued⟩ := filterOutMsgQueue_spec valid (child right)
  obtain ⟨upto, cut, owner⟩ := processedUpto_split valid kids right
  obtain ⟨validPending, pendingKeys⟩ := cutPrefixSubdict_spec valid.pending
    (length.trans (by decide : 256 ≤ 320))
  have common := cut_hasCommonPrefix valid.accounts length
  have commonPending := cut_hasCommonPrefix valid.pending (length.trans (by decide : 256 ≤ 320))
  have shares := root right
  unfold half at shares
  refine ⟨{ s with
      id := ⟨s.id.workchain, (child right).shard⟩
      accountDict := half s right
      outMsgQueue := queue
      ihrPending := cutPrefixSubdict 320 s.ihrPending (shardPrefixBits s.id.shard ++ [right])
      processedUpto := upto
      totalBalance := (x right).balance.funds
      totalValidatorFees := s.totalValidatorFees.map fun fees => { fees with grams := (fees.grams + right.toNat) / 2 }
      overloadHistory := 0
      underloadHistory := 0 }, ?_, ?_⟩
  · simp only [split, kids.isParent, kids.bits, kids.isRightChild, common, filtered, cut,
    commonPending, shares, small, orError, bind, Except.bind]
    rfl
  · exact {
      id := by rw [← kids.workchain right]
      accountDict := rfl
      queue := validQueue
      queued := queued
      pending := validPending
      pendingKeys := pendingKeys
      processed := owner
      totalBalance := rfl
      fees := rfl
      libraries := rfl }

variable {E : Type} {aug : Augmentation E} {n : Nat} {x : Bool → DepthBalance} {h : Bool → ShardState}

/-- Halves by the next bit of the keys partition a dictionary. -/
theorem partition_by_bit {d : Option (AugTrie E)} {p : List Bool} {g : Bool → Option (AugTrie E)}
    (valid : AugTrie.Valid aug n d) (room : p.length < n) (under : ∀ k, (lookup d k).isSome → p <+: k)
    (keys : ∀ c k, lookup (g c) k = if p ++ [c] <+: k then lookup d k else none) (c : Bool) :
    Partition d (g c) (g !c) := by
  have apart (k : List Bool) : ¬ (p ++ [c] <+: k ∧ p ++ [!c] <+: k) := by
    rintro ⟨one, two⟩
    have same := List.prefix_of_prefix_length_le one two (by simp)
    simp at same
  refine ⟨fun k => ?_, fun k => ?_⟩
  · rw [keys, keys]
    by_cases found : (lookup d k).isSome
    · obtain ⟨tail, rfl⟩ := under k found
      cases tail with
      | nil =>
        have := valid.length_of_lookup found
        simp at this
        omega
      | cons b rest =>
        rcases Bool.eq_or_eq_not b c with rfl | rfl <;> simp
    · rw [Option.not_isSome_iff_eq_none] at found
      simp [found]
  · rw [keys, keys]
    by_cases here : p ++ [c] <+: k
    · exact .inr (if_neg fun there => apart k ⟨here, there⟩)
    · exact .inl (if_neg here)

theorem partition_queue (valid : ValidState fmt s) (kids : Children s.id child)
    (halves : ∀ right, Half fmt s (child right) right (x right) (h right)) (right : Bool) :
    Partition s.outMsgQueue (h right).outMsgQueue (h !right).outMsgQueue := by
  have one (k : List Bool) (v : Slice) (entry : lookup s.outMsgQueue k = some v) :
      (currentPrefix fmt v).any (child right).contains = !(currentPrefix fmt v).any (child !right).contains := by
    obtain ⟨cur, found, inside⟩ := valid.queued k v entry
    rw [found]
    exact kids.contains right cur inside
  refine ⟨fun k => ?_, fun k => ?_⟩
  · rw [(halves right).queued, (halves !right).queued]
    cases entry : lookup s.outMsgQueue k with
    | none => rfl
    | some v =>
      have := one k v entry
      cases other : (currentPrefix fmt v).any (child !right).contains <;> simp_all [Option.filter]
  · rw [(halves right).queued, (halves !right).queued]
    cases entry : lookup s.outMsgQueue k with
    | none => exact .inl rfl
    | some v =>
      have := one k v entry
      cases other : (currentPrefix fmt v).any (child !right).contains <;> simp_all [Option.filter]

theorem Partition.combineWith {d d1 d2 : Option (AugTrie E)} (partition : Partition d d1 d2)
    (valid : AugTrie.Valid aug n d) (valid1 : AugTrie.Valid aug n d1) (valid2 : AugTrie.Valid aug n d2) :
    combineWith aug n d1 d2 = some d :=
  combineWith_eq valid valid1 valid2 partition.keys partition.apart

theorem processedUpto_combine (kids : Children s.id child) {v w : MsgProcessedUptoCollection} {right : Bool}
    (ownerV : v.owner = child right) (ownerW : w.owner = child !right) : ∃ u, v.combineWith w = some u := by
  unfold MsgProcessedUptoCollection.combineWith
  have sibling := kids.isSibling (!right)
  rw [Bool.not_not] at sibling
  rw [ownerV, ownerW, if_neg (by simp [sibling])]
  split
  · exact ⟨_, by rw [kids.parent]; rfl⟩
  · exact ⟨_, rfl⟩

/-- Halved fees, one of them rounded up, add up. -/
theorem fees_add {fees : Funds} (none : fees.extra = none) (right : Bool) :
    Funds.add { fees with grams := (fees.grams + right.toNat) / 2 }
      { fees with grams := (fees.grams + (!right).toNat) / 2 } = some fees := by
  have sum : (fees.grams + right.toNat) / 2 + (fees.grams + (!right).toNat) / 2 = fees.grams := by
    cases right <;> simp <;> omega
  unfold Funds.add
  simp only [none, add, sum]
  rw [← none]

theorem merge_spec (valid : ValidState fmt s) (kids : Children s.id child)
    (balances : ∀ right, (x right).balance.funds.add (x !right).balance.funds = some s.totalBalance)
    (halves : ∀ right, Half fmt s (child right) right (x right) (h right)) (right : Bool) :
    ∃ m, mergeWith fmt (h right) (h !right) = .ok m ∧ Restored s m := by
  obtain ⟨fees, feesEq, _, noExtra⟩ := valid.fees
  obtain ⟨total, root, same, _⟩ := valid.balance
  have short := valid.short
  have length := shardPrefixBits_length s.id.shard
  have validId (c : Bool) : (h c).isValid = true := by
    rw [isValid, (halves c).id, kids.workchain]
    exact decide_eq_true valid.workchain
  have sibling : (h right).id.isSibling (h !right).id = true := by
    rw [(halves right).id, (halves !right).id]
    exact kids.isSibling right
  have parent : (h right).id.parent = some s.id := by
    rw [(halves right).id]
    exact kids.parent right
  have balance : (h right).totalBalance.add (h !right).totalBalance = some s.totalBalance := by
    rw [(halves right).totalBalance, (halves !right).totalBalance]
    exact balances right
  have accounts : combineWith fmt.augShardAccounts 256 (h right).accountDict (h !right).accountDict =
      some s.accountDict := by
    rw [(halves right).accountDict, (halves !right).accountDict]
    exact (partition_by_bit valid.accounts (by omega) valid.accountKeys
      (fun c => (half_spec valid c).2) right).combineWith valid.accounts (half_spec valid right).1
      (half_spec valid !right).1
  have accountsPrefix : hasCommonPrefix 256 s.accountDict (shardPrefixBits s.id.shard) = true :=
    (hasCommonPrefix_iff valid.accounts (by omega)).mpr valid.accountKeys
  have sameTotal : fmt.sameFunds total.balance.funds s.totalBalance = true := by
    rw [same]
    exact decide_eq_true ⟨rfl, rfl⟩
  have libraries (c : Bool) : (h c).shardLibraries.isNone = true := by
    rw [(halves c).libraries, valid.libraries]
    rfl
  have queue := (partition_queue valid kids halves right).combineWith valid.queue (halves right).queue
    (halves !right).queue
  obtain ⟨upto, combined⟩ := processedUpto_combine kids (halves right).processed (halves !right).processed
  have pending := (partition_by_bit valid.pending (by omega) valid.pendingKeys
    (fun c => (halves c).pendingKeys) right).combineWith valid.pending (halves right).pending (halves !right).pending
  have pendingPrefix : hasCommonPrefix 320 s.ihrPending (shardPrefixBits s.id.shard) = true :=
    (hasCommonPrefix_iff valid.pending (by omega)).mpr valid.pendingKeys
  have addedFees : (do (← (h right).totalValidatorFees).add (← (h !right).totalValidatorFees)) = s.totalValidatorFees := by
    rw [(halves right).fees, (halves !right).fees, feesEq]
    exact fees_add noExtra right
  refine ⟨{ h right with
      id := ⟨(h right).id.workchain, s.id.shard⟩
      accountDict := s.accountDict
      outMsgQueue := s.outMsgQueue
      ihrPending := s.ihrPending
      processedUpto := upto
      totalBalance := s.totalBalance
      totalValidatorFees := do (← (h right).totalValidatorFees).add (← (h !right).totalValidatorFees)
      utime := if (h right).utime < (h !right).utime then (h !right).utime else (h right).utime
      lt := if (h right).lt < (h !right).lt then (h !right).lt else (h right).lt
      overloadHistory := 0
      underloadHistory := 0
      vertSeqno := if (h right).vertSeqno < (h !right).vertSeqno then (h !right).vertSeqno else (h right).vertSeqno },
    ?_, ?_⟩
  · simp [mergeWith, validId, sibling, parent, balance, accounts, accountsPrefix, root, sameTotal,
    libraries, queue, combined, pending, pendingPrefix, require, orError]
  · exact {
      id := by rw [(halves right).id, kids.workchain]
      accountDict := rfl
      outMsgQueue := rfl
      ihrPending := rfl
      totalBalance := rfl
      totalValidatorFees := addedFees }

/-- Splitting a valid state into its children succeeds and loses nothing, and the merge of the children gives it back. -/
theorem split_and_merge (fmt : Formats) (s : ShardState) (valid : ValidState fmt s) :
    ∃ leftId rightId left right, s.id.child true = some leftId ∧ s.id.child false = some rightId ∧
      split fmt s leftId = .ok left ∧ split fmt s rightId = .ok right ∧
      Partition s.accountDict left.accountDict right.accountDict ∧
      Partition s.outMsgQueue left.outMsgQueue right.outMsgQueue ∧
      Partition s.ihrPending left.ihrPending right.ihrPending ∧
      left.totalBalance.add right.totalBalance = some s.totalBalance ∧
      (∃ feesLeft feesRight, left.totalValidatorFees = some feesLeft ∧ right.totalValidatorFees = some feesRight ∧
        feesLeft.add feesRight = s.totalValidatorFees) ∧
      (∃ m, mergeWith fmt left right = .ok m ∧ Restored s m) ∧
      ∃ m, mergeWith fmt right left = .ok m ∧ Restored s m := by
  have short := valid.short
  have room : 0 < lowest s.id.shard := by
    have := shardPrefixLength_eq valid.shard
    omega
  have length := shardPrefixBits_length s.id.shard
  obtain ⟨child, kids⟩ := exists_children valid.shard room
  obtain ⟨x, root, small, balances⟩ := half_balances valid
  choose h done halves using split_spec valid kids root small
  obtain ⟨fees, feesEq, _, noExtra⟩ := valid.fees
  refine ⟨child false, child true, h false, h true, kids.isChild false, kids.isChild true, done false, done true,
    ?_, partition_queue valid kids halves false, ?_, ?_, ?_, merge_spec valid kids balances halves false,
    merge_spec valid kids balances halves true⟩
  · rw [(halves false).accountDict, (halves true).accountDict]
    exact partition_by_bit valid.accounts (by omega) valid.accountKeys (fun c => (half_spec valid c).2) false
  · exact partition_by_bit valid.pending (by omega) valid.pendingKeys (fun c => (halves c).pendingKeys) false
  · rw [(halves false).totalBalance, (halves true).totalBalance]
    exact balances false
  · rw [(halves false).fees, (halves true).fees, feesEq]
    exact ⟨_, _, rfl, rfl, fees_add noExtra false⟩

/-- `addr_std$10` without anycast. -/
def readAddress (cs : Slice) : Outcome (AccountIdPrefixFull × Slice) := do
  let (tag, cs) ← loadUint 3 cs
  throwUnless 0 (tag.val = 4)
  let (workchain, cs) ← loadInt 8 cs
  let (pfx, cs) ← loadUint 64 cs
  let cs ← skipBits 192 cs
  .ok (⟨BitVec.ofInt 32 workchain, BitVec.ofNat 64 pfx⟩, cs)

/-- `CurrencyCollection` without other currencies. -/
def readGrams (cs : Slice) : Outcome (Grams × Slice) := do
  let (grams, cs) ← loadGrams cs
  let (other, cs) ← loadUint 1 cs
  throwUnless 0 (other.val = 0)
  .ok (grams, cs)

/-- `Account::skip_copy_depth_balance`, for accounts that use no storage, owe nothing and have no state. -/
def readAccount (value : Slice) : Outcome DepthBalance := do
  let account ← orNull value.refs.head?
  let (tag, cs) ← loadUint 1 account.beginParse
  throwUnless 0 (tag.val = 1)
  let (_, cs) ← readAddress cs
  let (used, cs) ← loadUint 9 cs
  let cs ← skipBits 32 cs
  let (due, cs) ← loadUint 1 cs
  let cs ← skipBits 64 cs
  let (grams, cs) ← readGrams cs
  let (state, _) ← loadUint 2 cs
  throwUnless 0 (used.val = 0 ∧ due.val = 0 ∧ state.val = 0)
  .ok ⟨0, grams, none⟩

/-- `MsgEnvelope::unpack` into a `Record_std`, and the addresses in the header of the message. -/
def readEnvelope (c : Cell) : Outcome Envelope := do
  let (tag, cs) ← loadUint 5 c.beginParse
  let (cur, cs) ← loadUint 7 cs
  let (next, cs) ← loadUint 8 cs
  throwUnless 0 (tag.val = 8 ∧ cur.val ≤ 96 ∧ next.val ≤ 96)
  let (_, cs) ← loadGrams cs
  let msg ← orNull cs.refs.head?
  let (tag, cs) ← loadUint 1 msg.beginParse
  throwUnless 0 (tag.val = 0)
  let cs ← skipBits 3 cs
  let (src, cs) ← readAddress cs
  let (dest, cs) ← readAddress cs
  let (_, cs) ← readGrams cs
  let (_, cs) ← loadGrams cs
  let (_, cs) ← loadGrams cs
  let _ ← skipBits 96 cs
  .ok ⟨src, dest, cur.val⟩

def plainFormats : Formats where
  depthBalance value := (readAccount value).toOption
  envelope c := (readEnvelope c).toOption
  crypto := sampleCrypto

/-- The lowest or the highest address of the workchain. -/
def sampleAddress (high : Bool) : List Bool := bitsOf 3 4 ++ bitsOf 8 0 ++ List.replicate 256 high

def sampleAccount (high : Bool) (grams : Grams) : Slice :=
  ⟨bitsOf 320 0, [.mk ([true] ++ sampleAddress high ++ bitsOf 106 0 ++ gramsBits grams ++ bitsOf 3 0) []]⟩

/-- A message from the lowest to the highest address, of which it has taken the workchain and one bit. -/
def sampleEnvelope : Cell :=
  .mk (bitsOf 5 8 ++ bitsOf 7 33 ++ bitsOf 8 96 ++ gramsBits 0)
    [.mk (bitsOf 4 0 ++ sampleAddress false ++ sampleAddress true ++ bitsOf 109 0) []]

/-- An undivided workchain with an account in each half. -/
def wholeChain : ShardState where
  id := ⟨0, shardIdAll⟩
  accountDict := some (.fork [] ⟨0, 3, none⟩ (.leaf (List.replicate 255 false) (sampleAccount false 1))
    (.leaf (List.replicate 255 true) (sampleAccount true 2)))
  outMsgQueue := some (.leaf (List.replicate 352 false) ⟨List.replicate 128 false, [sampleEnvelope]⟩)
  ihrPending := some (.leaf (List.replicate 320 true) ⟨[], []⟩)
  processedUpto := ⟨⟨0, shardIdAll⟩, []⟩
  totalBalance := ⟨3, none⟩
  totalValidatorFees := some ⟨5, none⟩
  shardLibraries := none
  utime := 0
  lt := 0
  vertSeqno := 0
  overloadHistory := 0
  underloadHistory := 0

theorem leaf_wf {l : List Bool} (length : l.length = n) (v : Slice) : (Trie.leaf l v).WF n :=
  length ▸ .leaf l v

set_option maxRecDepth 20000 in
theorem wholeChain_accounts : AugTrie.Valid plainFormats.augShardAccounts 256 wholeChain.accountDict := by
  have left := leaf_wf (List.length_replicate (n := 255) (a := false)) (sampleAccount false 1)
  have right := leaf_wf (List.length_replicate (n := 255) (a := true)) (sampleAccount true 2)
  exact valid_some.mpr ⟨.fork [] left right, rfl, rfl, rfl⟩

set_option maxRecDepth 20000 in
theorem wholeChain_queued (k : List Bool) (v : Slice) (entry : lookup wholeChain.outMsgQueue k = some v) :
    ∃ cur, currentPrefix plainFormats v = some cur ∧ wholeChain.id.contains cur = true := by
  simp only [wholeChain, lookup_some, erase_leaf, Trie.get?] at entry
  split at entry
  · cases entry
    refine ⟨⟨0, 0x8000000000000000#64⟩, ?_, by decide +kernel⟩
    rw [currentPrefix, if_pos List.length_replicate]
    rfl
  · cases entry

theorem wholeChain_keys (k : List Bool) : shardPrefixBits wholeChain.id.shard <+: k := by
  have all : shardPrefixBits wholeChain.id.shard = [] := by decide +kernel
  rw [all]
  exact List.nil_prefix

theorem wholeChain_valid : ValidState plainFormats wholeChain where
  workchain := by decide
  shard := by decide
  short := by decide +kernel
  accounts := wholeChain_accounts
  accountKeys k _ := wholeChain_keys k
  balance := ⟨⟨0, 3, none⟩, rfl, rfl, rfl⟩
  queue := valid_some.mpr ⟨leaf_wf List.length_replicate _, by simp [AugTrie.Sound, augOutMsgQueue]⟩
  queued := wholeChain_queued
  pending := valid_some.mpr ⟨leaf_wf List.length_replicate _, rfl⟩
  pendingKeys k _ := wholeChain_keys k
  processed := rfl
  fees := ⟨⟨5, none⟩, rfl, by decide, rfl⟩
  libraries := rfl

theorem wholeChain_split_and_merge : ValidState plainFormats wholeChain ∧
    ∃ leftId rightId left right m, split plainFormats wholeChain leftId = .ok left ∧
      split plainFormats wholeChain rightId = .ok right ∧ mergeWith plainFormats left right = .ok m ∧
      Restored wholeChain m := by
  obtain ⟨leftId, rightId, left, right, _, _, splitLeft, splitRight, _, _, _, _, _, ⟨m, merged, restored⟩, _⟩ :=
    split_and_merge plainFormats wholeChain wholeChain_valid
  exact ⟨wholeChain_valid, leftId, rightId, left, right, m, splitLeft, splitRight, merged, restored⟩

end Halves

end TonStaking.Guarantees.ShardSplit
