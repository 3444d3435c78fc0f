import TonStaking.Source.StakingPool.Deposit

/-!
# The subscribers dictionary and the subscriptions

The index entry of a deposit holds the greatest id before the new subscription is
stored, so it points to somebody else's subscription, and the subscription that
`process_new_period` issues to the owner gets no entry at all. The greatest id is
therefore never in the index once a second subscription exists. The list method
starts its walk above period 0 and never shows the subscription of the first owner.
-/
namespace TonStaking.Guarantees.IndexAgreement
open Tvm Source.StakingPool Dict

section Definitions

/-- The subscription `id` belongs to this address and starts in this period. -/
def Holds (s : State) (wc : Sint 8) (address : Uint 256) (period : Uint 16) (id : Uint 32) : Prop :=
  ∃ sub, s.subscriptions.get? id = some sub ∧ sub.subscriberWc = wc ∧ sub.subscriber = address ∧
    sub.startPeriod = period

variable (cellHash : Cell → Uint 256)

/-- The inner dictionary of this address maps the period to `id`. -/
def Indexes (s : State) (wc : Sint 8) (address : Uint 256) (period : Uint 16) (id : Uint 32) : Prop :=
  ∃ hash subscriber entry, subscriberMethodHash cellHash wc.val address = .ok hash ∧
    s.subscribers.get? hash = some subscriber ∧
    Hashmap.udictGet? 16 subscriber period = .ok (some entry) ∧ unpackSubscribersEntry entry = .ok id

/-- The index and the two methods show exactly the subscriptions of every address. The
answer (0, 0) stands for no entry, so id 0 is left out of the first method. -/
structure Agreement (s : State) : Prop where
  index : ∀ wc address period id, Indexes cellHash s wc address period id ↔
    Holds s wc address period id
  subscription : ∀ (wc : Sint 8) (address : Uint 256) (period : Uint 16) (id : Uint 32), id.val ≠ 0 →
    (getSubscribersSubscription cellHash s wc.val address period 0 = .ok ((period : Int), (id : Int)) ↔
      Holds s wc address period id)
  subscriptions : ∀ (wc : Sint 8) (address : Uint 256), ∃ list,
    getSubscribersSubscriptions cellHash s wc.val address = .ok list ∧
      ∀ (period : Uint 16) id, (period.val, id) ∈ list ↔ Holds s wc address period id

end Definitions

/-- The walk of `get_subscribers_subscriptions` only adds periods above its start. -/
theorem collectSubscriptions_above {subscriber : Subscriber} {fuel : Nat} {period : Int}
    {known list : List (Nat × Uint 32)} (start : 0 ≤ period)
    (h : collectSubscriptions subscriber fuel period known = .ok list) :
    ∀ e ∈ list, e ∈ known ∨ period < e.1 := by
  induction fuel generalizing period known with
  | zero =>
    cases h
    exact fun e member => .inl member
  | succ fuel ih =>
    obtain ⟨next, search, h⟩ := of_bind h
    cases next with
    | none =>
      cases h
      exact fun e member => .inl member
    | some found =>
      have above := Hashmap.udictGetNext?_gt start search
      obtain ⟨id, unpacked, h⟩ := of_bind h
      intro e member
      rcases ih (by omega) h e member with listed | later
      · rcases List.mem_cons.mp listed with rfl | earlier
        · exact .inr above
        · exact .inl earlier
      · exact .inr (by omega)

theorem getSubscribersSubscriptions_above {cellHash : Cell → Uint 256} {s : State} {wc address : Int}
    {list : List (Nat × Uint 32)} (h : getSubscribersSubscriptions cellHash s wc address = .ok list) :
    ∀ e ∈ list, 0 < e.1 := by
  obtain ⟨hash, -, h⟩ := of_bind h
  split at h
  · cases h
    simp
  · intro e member
    rcases collectSubscriptions_above le_rfl h e member with none | above
    · cases none
    · exact_mod_cast above

section Invariants

variable {cellHash : Cell → Uint 256}
variable {s after : State} {m : InMsg} {request : Request} {out : List OutMsg}

/-- The subscription of the first owner, with id 1 and start period 0. -/
def Founded (s : State) : Prop :=
  ∃ sub, s.subscriptions.get? 1 = some sub ∧ sub.startPeriod.val = 0

/-- Every index entry is 1 or has a subscription right after it. -/
def Lagging (s : State) : Prop :=
  ∀ key (x : IndexTrie), s.subscribers.get? key = some x.root → ∀ (period : Uint 16) (id : Uint 32),
    x.trie.get? (Uint.bits period) = some (indexEntry id) →
      id.val = 1 ∨ (s.subscriptions.get? (id.val + 1)).isSome

theorem Founded.open (founded : Founded s) {lastId : Nat} {last sub : Subscription}
    (greatest : s.subscriptions.udictGetPrev? lastIdx = some (lastId, last)) (fits : lastId + 1 < 2 ^ 32) :
    ∃ first, (s.subscriptions.set (lastId + 1) fits sub).get? 1 = some first ∧ first.startPeriod.val = 0 := by
  obtain ⟨first, found, start⟩ := founded
  obtain ⟨-, -, above⟩ := Dict.udictGetPrev?_some greatest
  have positive : 1 ≤ lastId := by
    by_contra zero
    rw [above 1 (by omega) (by decide)] at found
    cases found
  refine ⟨first, ?_, start⟩
  rw [get?_set, if_neg (by omega)]
  exact found

theorem effect_founded (founded : Founded s) (effect : Effect cellHash s m request after out) : Founded after := by
  cases effect with
  | ignored | ownersTransfer owner | setConfig parsed effect => exact founded
  | deposit effect =>
    obtain ⟨last, greatest⟩ := effect.greatest
    rw [effect.state]
    exact founded.open greatest effect.fits
  | @redeem queryId id sub written current updated after out effect =>
    obtain ⟨first, found, start⟩ := founded
    by_cases same : 1 = id
    · subst same
      have equal : sub = first := Option.some.inj (effect.found.symm.trans found)
      refine ⟨written, ?_, ?_⟩
      · rw [effect.state, get?_set, if_pos rfl]
      · rw [effect.start, equal]
        exact start
    · refine ⟨first, ?_, start⟩
      rw [effect.state, get?_set, if_neg same]
      exact found
  | activate effect | fetch effect | gotBalance effect =>
    rw [effect.state]
    exact founded
  | newPeriod effect =>
    rcases effect.subscriptions with ⟨-, same⟩ | ⟨-, lastId, issued, share⟩
    · rw [Founded, same]
      exact founded
    · obtain ⟨last, greatest⟩ := share.greatest
      obtain ⟨fits, stored⟩ := share.stored
      rw [Founded, stored]
      exact founded.open greatest fits

theorem reachable_founded (reachable : Reachable cellHash s) : Founded s := by
  apply reachable.invariant_effect
  · intro poolConfig init balance s initialised
    obtain ⟨first, opened, sub, hash, effect⟩ := tryInit_effects initialised
    refine ⟨sub, ?_, effect.start⟩
    rw [effect.subscriptions, get?_set, if_pos rfl]
  · intro s m request after out before effect
    exact effect_founded before effect

theorem reachable_greatest (reachable : Reachable cellHash s) :
    ∃ lastId last, s.subscriptions.udictGetPrev? lastIdx = some (lastId, last) := by
  obtain ⟨first, found, -⟩ := reachable_founded reachable
  cases greatest : s.subscriptions.udictGetPrev? lastIdx with
  | none =>
    rw [Dict.udictGetPrev?_none greatest 1 (by decide)] at found
    cases found
  | some entry => exact ⟨entry.1, entry.2, rfl⟩

/-- Subscriptions are only added, so old entries of the index stay behind. -/
theorem Lagging.keep (lagging : Lagging s) (subscribers : after.subscribers = s.subscribers)
    (grows : ∀ k, (s.subscriptions.get? k).isSome → (after.subscriptions.get? k).isSome) :
    Lagging after := by
  intro key x found period id entry
  rw [subscribers] at found
  rcases lagging key x found period id entry with first | present
  · exact .inl first
  · exact .inr (grows _ present)

theorem deposit_lagging (lagging : Lagging s) {sAddr : MsgAddress} {msgValue srcWc srcAddr : Int} {hash : Uint 256}
    {lastId : Uint 32} {inner : IndexTrie} {sub : Subscription} {current updated : Performance}
    (effect : DepositEffect cellHash s sAddr msgValue srcWc srcAddr hash lastId inner sub current updated
      after) : Lagging after := by
  have grows : ∀ k, (s.subscriptions.get? k).isSome → (after.subscriptions.get? k).isSome := by
    intro k present
    rw [effect.state, get?_set]
    split
    · rfl
    · exact present
  have opened : (after.subscriptions.get? (lastId.val + 1)).isSome := by
    rw [effect.state, get?_set, if_pos rfl]
    rfl
  intro key x found period id entry
  rw [effect.state, get?_set] at found
  split at found
  · -- the sender's index: the new entry is the id before the new subscription
    rw [← IndexTrie.get?_of_root (Option.some.inj found)] at entry
    rcases effect.index with ⟨-, rfl⟩ | ⟨old, known, rfl⟩
    · rw [IndexTrie.get?_single] at entry
      split at entry
      · rw [← indexEntry_inj (Option.some.inj entry)]
        exact .inr opened
      · cases entry
    · rw [IndexTrie.get?_insert] at entry
      split at entry
      · rw [← indexEntry_inj (Option.some.inj entry)]
        exact .inr opened
      · exact (lagging hash old known period id entry).imp_right (grows _)
  · exact (lagging key x found period id entry).imp_right (grows _)

theorem effect_lagging (lagging : Lagging s) (effect : Effect cellHash s m request after out) : Lagging after := by
  cases effect with
  | ignored | ownersTransfer owner | setConfig parsed effect => exact lagging
  | deposit effect => exact deposit_lagging lagging effect
  | redeem effect =>
    apply lagging.keep (by rw [effect.state])
    intro k present
    rw [effect.state, get?_set]
    split
    · rfl
    · exact present
  | activate effect | fetch effect | gotBalance effect =>
    exact lagging.keep (by rw [effect.state]) (by simp [effect.state])
  | newPeriod effect =>
    apply lagging.keep effect.subscribers
    intro k present
    rcases effect.subscriptions with ⟨-, same⟩ | ⟨-, lastId, issued, share⟩
    · rw [same]
      exact present
    · obtain ⟨fits, stored⟩ := share.stored
      rw [stored, get?_set]
      split
      · rfl
      · exact present

theorem reachable_lagging (reachable : Reachable cellHash s) : Lagging s := by
  apply reachable.invariant_effect
  · intro poolConfig init balance s initialised
    obtain ⟨first, opened, sub, hash, effect⟩ := tryInit_effects initialised
    intro key x found period id entry
    rw [effect.subscribers, get?_set] at found
    split at found
    · rw [← IndexTrie.get?_of_root (Option.some.inj found), IndexTrie.get?_single] at entry
      split at entry
      · rw [← indexEntry_inj (Option.some.inj entry)]
        exact .inl rfl
      · cases entry
    · cases found
  · intro s m request after out before effect
    exact effect_lagging before effect

/-- The first owner's subscription is missing from the list of the owner. -/
theorem founder_not_listed {s : State} (founded : Founded s) : ¬ Agreement cellHash s := by
  intro agreement
  obtain ⟨sub, found, start⟩ := founded
  obtain ⟨list, listed, shows⟩ := agreement.subscriptions sub.subscriberWc sub.subscriber
  have member := (shows sub.startPeriod 1).mpr ⟨sub, found, rfl, rfl, rfl⟩
  have above := getSubscribersSubscriptions_above listed _ member
  omega

theorem indexed_has_successor {s : State} (indexed : Indexed s) (lagging : Lagging s) {wc : Sint 8}
    {address : Uint 256} {period : Uint 16} {id : Uint 32}
    (entry : Indexes cellHash s wc address period id) (second : 2 ≤ id.val) :
    (s.subscriptions.get? (id.val + 1)).isSome := by
  obtain ⟨hash, subscriber, raw, -, known, found, unpacked⟩ := entry
  obtain ⟨x, rfl⟩ := indexed _ _ known
  rw [IndexTrie.udictGet?_root] at found
  have stored := Except.ok.inj found
  obtain ⟨noted, rfl⟩ := x.entries.get? stored
  rw [unpackSubscribersEntry_indexEntry] at unpacked
  cases unpacked
  exact (lagging hash x known period id stored).resolve_left (by omega)

/-- If the index agreed, ids above 1 would go on without end. -/
theorem second_not_indexed {s : State} (indexed : Indexed s) (lagging : Lagging s) {id : Nat}
    (second : 2 ≤ id) (present : (s.subscriptions.get? id).isSome) :
    ¬ ∀ wc address period id, Indexes cellHash s wc address period id ↔ Holds s wc address period id := by
  intro agrees
  have endless : ∀ n, (s.subscriptions.get? (id + n)).isSome := by
    intro n
    induction n with
    | zero => exact present
    | succ n ih =>
      obtain ⟨sub, found⟩ := Option.isSome_iff_exists.mp ih
      have entry := (agrees sub.subscriberWc sub.subscriber sub.startPeriod
        ⟨id + n, lt_of_get? found⟩).mpr ⟨sub, found, rfl, rfl, rfl⟩
      exact indexed_has_successor indexed lagging entry (by show 2 ≤ id + n; omega)
  obtain ⟨sub, found⟩ := Option.isSome_iff_exists.mp (endless (2 ^ 32))
  have bound := lt_of_get? found
  omega

/-- In no reachable state do the index and its methods show the subscriptions, and as soon
as a second subscription exists the index itself is wrong. -/
theorem index_never_agrees {s : State} (reachable : Reachable cellHash s) :
    ¬ Agreement cellHash s ∧
      ((∃ id, 2 ≤ id ∧ (s.subscriptions.get? id).isSome) →
        ¬ ∀ wc address period id, Indexes cellHash s wc address period id ↔
          Holds s wc address period id) := by
  constructor
  · exact founder_not_listed (reachable_founded reachable)
  · rintro ⟨id, second, present⟩
    exact second_not_indexed reachable.indexed (reachable_lagging reachable) second present

theorem sample_index_never_agrees : ¬ Agreement sampleHash sampleState ∧
    ¬ Agreement sampleHash (run (receive sampleHash) sampleState [sampleDeposit 8 2000000000]) :=
  ⟨(index_never_agrees sample_start).1, (index_never_agrees (sample_reachable _)).1⟩

/-- After one deposit by 8 the index holds id 1, the subscription is 2. -/
theorem deposit_wrongly_indexed :
    ¬ Agreement sampleHash (run (receive sampleHash) sampleState [sampleDeposit 8 2000000000]) := by
  intro agreement
  have reachable := sample_reachable [sampleDeposit 8 2000000000]
  exact second_not_indexed reachable.indexed (reachable_lagging reachable) le_rfl (by decide +kernel)
    agreement.index

end Invariants

end TonStaking.Guarantees.IndexAgreement
