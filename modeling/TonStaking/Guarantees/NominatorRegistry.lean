import TonStaking.Source.StakingPool.RequestEffect

/-!
# The registry of nominators

`try_init` keeps the addresses of the init message and marks every entry whose
address is not derived from its wallet id as invalid (status 2). Its loop starts
above address 0, so an entry at address 0 is not checked. Afterwards
`process_got_balance` rewrites entries in place. `process_activate_wallet` writes
under the stored wallet id instead of the address and keeps the registry intact
only where the two are equal.
-/
namespace TonStaking.Guarantees.NominatorRegistry
open Tvm Source.StakingPool Dict

def nominatorAt (nominators : Dict 256 Slice) (address : Nat) : Option Nominator :=
  (nominators.get? address).bind fun raw => (unpackNominator raw).toOption

section Definitions

variable (cellHash : Cell → Uint 256) (init : InitMessage)

/-- The addresses are those of the init message, and valid entries sit at their
derived address. -/
structure Registry (nominators : Dict 256 Slice) : Prop where
  keys : ∀ k, (nominators.get? k).isSome ↔ (init.nominators.get? k).isSome
  addresses : ∀ k x, nominatorAt nominators k = some x → x.status.val ≠ 2 →
    k = (calculateNominatorAddress cellHash init.nominatorCode init.poolAddress x.walletId).val

/-- The order changed the status of the entry at its address and nothing else. -/
def Activated (s after : State) (address : Uint 256) (status : Uint 8) : Prop :=
  ∃ x, nominatorAt s.poolConfig.nominators address = some x ∧ after = { s with
    poolConfig := { s.poolConfig with
      nominators := s.poolConfig.nominators.set address address.lt256 { x with status }.toSlice } }

structure RegistryIntegrity (start : State) (inputs : List Input) : Prop where
  registry : ∀ before after, inputs = before ++ after →
    Registry cellHash init (run (receive cellHash) start before).poolConfig.nominators
  invalid : ∀ before later after, inputs = before ++ later ++ after → ∀ k x,
    nominatorAt (run (receive cellHash) start before).poolConfig.nominators k = some x → x.status.val = 2 →
    ∃ y, nominatorAt (run (receive cellHash) start (before ++ later)).poolConfig.nominators k = some y ∧
      y.status.val = 2
  activation : ∀ before i after address status next out, inputs = before ++ i :: after →
    i.request = some (.activateWallet address status) →
    receive cellHash (run (receive cellHash) start before) i = .ok (next, out) →
    Activated (run (receive cellHash) start before) next address status

end Definitions

/-- An activation order that passes its guards addresses an entry whose wallet id is
the address itself. -/
def OwnWalletId (s : State) (i : Input) : Prop :=
  ∀ m address status x, i = .internal m → i.request = some (.activateWallet address status) →
    (s.poolConfig.transactionFee : Int) ≤ m.value →
    parseStdAddr m.src = .ok (0, (s.poolConfig.owner : Int)) →
    nominatorAt s.poolConfig.nominators address = some x → x.status.val ≠ 2 → x.status ≠ status →
    x.walletId.val = address.val

section Entries

variable {nominators : Dict 256 Slice} {k : Nat} {x : Nominator}

theorem nominatorAt_of_get? {raw : Slice} (found : nominators.get? k = some raw)
    (unpacked : unpackNominator raw = .ok x) :
    nominatorAt nominators k = some x := by
  simp [nominatorAt, found, unpacked, Except.toOption]

theorem nominatorAt_decoded (entry : nominatorAt nominators k = some x) :
    ∃ raw, nominators.get? k = some raw ∧ unpackNominator raw = .ok x := by
  obtain ⟨raw, found, read⟩ := Option.bind_eq_some_iff.mp entry
  refine ⟨raw, found, ?_⟩
  cases outcome : unpackNominator raw with
  | error e =>
    rw [outcome] at read
    cases read
  | ok y =>
    rw [outcome] at read
    cases read
    rfl

theorem nominatorAt_of_none (absent : nominators.get? k = none) : nominatorAt nominators k = none := by
  simp [nominatorAt, absent]

theorem nominatorAt_congr {a b : Dict 256 Slice} (same : a.get? k = b.get? k) :
    nominatorAt a k = nominatorAt b k := by
  simp [nominatorAt, same]

theorem nominatorAt_set (nominators : Dict 256 Slice) (k j : Nat) (fits : k < 2 ^ 256) (x : Nominator) :
    nominatorAt (nominators.set k fits x.toSlice) j = if j = k then some x else nominatorAt nominators j := by
  unfold nominatorAt
  rw [get?_set]
  split
  · simp [Except.toOption]
  · rfl

/-- A nominator that a fetch order asks for its balance. -/
def Asked (nominators : Dict 256 Slice) (pivot : Int) (k : Nat) : Prop :=
  pivot < k ∧ ∃ x, nominatorAt nominators k = some x ∧ x.status.val = 1

variable {pivot : Int}

theorem asked_next {address : Nat} {raw : Slice} (next : nominators.udictGetNext? pivot = some (address, raw))
    (unpacked : unpackNominator raw = .ok x) :
    Asked nominators pivot k ↔ (k = address ∧ x.status.val = 1) ∨ Asked nominators address k := by
  obtain ⟨above, entry⟩ := Dict.udictGetNext?_some next
  have decoded := nominatorAt_of_get? entry unpacked
  constructor
  · rintro ⟨high, y, found, active⟩
    rcases lt_trichotomy k address with below | rfl | later
    · rw [nominatorAt_of_none (Dict.udictGetNext?_least next k high below)] at found
      cases found
    · rw [decoded] at found
      cases found
      exact .inl ⟨rfl, active⟩
    · exact .inr ⟨by exact_mod_cast later, y, found, active⟩
  · rintro (⟨rfl, active⟩ | ⟨high, rest⟩)
    · exact ⟨above, x, decoded, active⟩
    · exact ⟨above.trans high, rest⟩

/-- A fetch order asks the active nominators above its start, each of them once. -/
theorem requestBalances_targets {fuel : Nat} {out : List OutMsg} (enough : nominators.remaining pivot < fuel)
    (h : requestBalances nominators fuel pivot = .ok out) :
    ∃ targets : List (Uint 256), out.map OutMsg.dest = targets.map (.tag6 ⟨-1, by decide⟩) ∧
      targets.Pairwise (· < ·) ∧ ∀ k, k ∈ targets.map Fin.val ↔ Asked nominators pivot k := by
  induction fuel generalizing pivot out with
  | zero => omega
  | succ fuel ih =>
    unfold requestBalances at h
    split at h
    · next last =>
      cases h
      refine ⟨[], rfl, .nil, fun k => iff_of_false (List.not_mem_nil) ?_⟩
      rintro ⟨above, x, entry, -⟩
      rw [nominatorAt_of_none (Dict.udictGetNext?_none last k above)] at entry
      cases entry
    rename_i address raw next
    have fewer := Dict.remaining_next next
    obtain ⟨target, rfl⟩ : ∃ target : Uint 256, target.val = address :=
      ⟨⟨address, lt_of_get? (Dict.udictGetNext?_some next).2⟩, rfl⟩
    obtain ⟨nominator, unpacked, h⟩ := of_bind h
    simp only [asked_next next unpacked]
    split at h
    · next active =>
      obtain ⟨dest, written, h⟩ := of_bind h
      obtain ⟨request, sent, h⟩ := of_bind h
      obtain ⟨rest, requested, h⟩ := of_bind h
      cases h
      cases written.symm.trans (getAddressSlice_val ⟨-1, by decide⟩ target)
      obtain ⟨targets, dests, sorted, asked⟩ := ih (by omega) requested
      refine ⟨target :: targets, ?_, List.pairwise_cons.mpr ⟨fun a member => ?_, sorted⟩, fun k => ?_⟩
      · rw [List.map_cons, dests, (sendMessage_success sent).1, List.map_cons]
      · have high := ((asked a).mp (List.mem_map_of_mem member)).1
        exact_mod_cast high
      · rw [List.map_cons, List.mem_cons, asked, and_iff_left active]
    · next inactive =>
      obtain ⟨targets, dests, sorted, asked⟩ := ih (by omega) h
      exact ⟨targets, dests, sorted, fun k => by rw [asked, or_iff_right fun here => inactive here.2]⟩

end Entries

section Init

variable {cellHash : Cell → Uint 256} {init : InitMessage}

/-- The loop visits every address above its start, keeps the addresses and leaves
only derived or invalid entries behind. -/
theorem checkNominators_checks {code : Cell} {pool : Uint 256} {fuel : Nat} {pivot : Int}
    {nominators checked : Dict 256 Slice}
    (h : checkNominators cellHash code pool fuel pivot nominators = .ok checked)
    (enough : nominators.remaining pivot < fuel) :
    checked.keys = nominators.keys ∧
    (∀ k : Nat, (k : Int) ≤ pivot → checked.get? k = nominators.get? k) ∧
    ∀ (k : Nat) (x : Nominator), pivot < k → nominatorAt checked k = some x → x.status.val ≠ 2 →
      k = (calculateNominatorAddress cellHash code pool x.walletId).val := by
  induction fuel generalizing pivot nominators with
  | zero => omega
  | succ fuel ih =>
    unfold checkNominators at h
    split at h
    · next last =>
      cases h
      refine ⟨rfl, fun _ _ => rfl, ?_⟩
      intro k x above found
      rw [nominatorAt_of_none (Dict.udictGetNext?_none last k above)] at found
      cases found
    rename_i address raw next
    obtain ⟨above, stored⟩ := Dict.udictGetNext?_some next
    have fewer := Dict.remaining_next next
    have least := Dict.udictGetNext?_least next
    obtain ⟨nominator, unpacked, h⟩ := of_bind h
    split at h
    · next mismatch =>
      obtain ⟨raw2, packed, h⟩ := of_bind h
      obtain ⟨marked, written, h⟩ := of_bind h
      obtain ⟨invalid, rfl, status, -, -, -⟩ := packNominator_success packed
      rw [Dict.udictSet_natCast _ _ (lt_of_get? stored)] at written
      cases written
      have sameKeys := Dict.keys_set_used (lt_of_get? stored) invalid.toSlice (by rw [stored]; rfl)
      have sameRemaining : ∀ p, (nominators.set address (lt_of_get? stored) invalid.toSlice).remaining p =
          nominators.remaining p := by
        intro p
        unfold Dict.remaining
        rw [sameKeys]
      obtain ⟨keys, below, valid⟩ := ih h (by rw [sameRemaining]; omega)
      refine ⟨keys.trans sameKeys, ?_, ?_⟩
      · intro k low
        rw [below k (by omega), get?_set, if_neg (by omega)]
      · intro k x high found notInvalid
        rcases Nat.lt_trichotomy k address with less | equal | more
        · rw [nominatorAt_congr (below k (by omega)), nominatorAt_set, if_neg (by omega),
            nominatorAt_of_none (least k high less)] at found
          cases found
        · rw [nominatorAt_congr (below k (by omega)), nominatorAt_set, if_pos equal] at found
          cases found
          omega
        · exact valid k x (by omega) found notInvalid
    · next match_ =>
      obtain ⟨keys, below, valid⟩ := ih h (by omega)
      refine ⟨keys, fun k low => below k (by omega), ?_⟩
      intro k x high found notInvalid
      rcases Nat.lt_trichotomy k address with less | equal | more
      · rw [nominatorAt_congr (below k (by omega)), nominatorAt_of_none (least k high less)] at found
        cases found
      · subst equal
        rw [nominatorAt_congr (below k (by omega)), nominatorAt_of_get? stored unpacked] at found
        cases found
        exact (not_not.mp match_).symm
      · exact valid k x (by omega) found notInvalid

theorem initial_registry {poolConfig : PoolConfig} {balance : Grams} {s : State}
    (h : tryInit cellHash 0 poolConfig init balance = .ok s) (listed : init.nominators.get? 0 = none) :
    Registry cellHash init s.poolConfig.nominators := by
  obtain ⟨first, opened, sub, hash, effect⟩ := tryInit_effects h
  have enough := Dict.remaining_le init.nominators 0
  obtain ⟨keys, below, valid⟩ := checkNominators_checks effect.checked (by omega)
  constructor
  · intro k
    rw [← mem_keys_iff, ← mem_keys_iff, keys]
  · intro k x found notInvalid
    by_cases zero : k = 0
    · subst zero
      rw [nominatorAt_of_none ((below 0 le_rfl).trans listed)] at found
      cases found
    · exact valid k x (by omega) found notInvalid

variable {s after : State} {i : Input} {out : List OutMsg}

section

variable (indexed : Indexed s) (own : OwnWalletId s i) (success : receive cellHash s i = .ok (after, out))
include indexed own success

/-- A transaction leaves the registry alone or rewrites one entry in place: it keeps the
wallet id, and an invalid entry stays invalid. -/
theorem receive_rewrites : after.poolConfig.nominators = s.poolConfig.nominators ∨
    ∃ (k : Nat) (fits : k < 2 ^ 256) (x y : Nominator),
      nominatorAt s.poolConfig.nominators k = some x ∧
      after.poolConfig.nominators = s.poolConfig.nominators.set k fits y.toSlice ∧
      y.walletId = x.walletId ∧ (x.status.val = 2 → y.status.val = 2) := by
  rcases receive_effect indexed success with ⟨rfl, -, -⟩ | ⟨m, request, rfl, asked, effect⟩
  · exact .inl rfl
  cases effect with
  | ignored | ownersTransfer owner => exact .inl rfl
  | deposit effect | redeem effect | fetch effect =>
    rw [effect.state]
    exact .inl rfl
  | @activate address status raw nominator after effect =>
    have found := nominatorAt_of_get? effect.found effect.unpacked
    have same := own m address status nominator rfl asked effect.feePaid effect.owner found effect.valid
      effect.different
    refine .inr ⟨nominator.walletId, effect.fits, nominator, { nominator with status := status },
      ?_, congrArg (fun x : State => x.poolConfig.nominators) effect.state, rfl, ?_⟩
    · rw [same]
      exact found
    · intro invalid
      exact absurd invalid effect.valid
  | @gotBalance balance stake address raw nominator current updated after effect =>
    refine .inr ⟨address, address.isLt, nominator, { nominator with balance := balance, stake := stake },
      nominatorAt_of_get? effect.found effect.unpacked, by rw [effect.state], rfl, ?_⟩
    exact fun invalid => invalid
  | newPeriod effect =>
    rw [effect.poolConfig]
    exact .inl rfl
  | setConfig parsed effect => exact .inl effect.nominators

theorem receive_registry
    (registry : Registry cellHash init s.poolConfig.nominators) :
    Registry cellHash init after.poolConfig.nominators := by
  rcases receive_rewrites indexed own success with same | ⟨k, fits, x, y, found, stored, wallet, stays⟩
  · rw [same]
    exact registry
  rw [stored]
  constructor
  · intro j
    rw [get?_set, ← registry.keys]
    split
    · next equal =>
      subst equal
      cases present : s.poolConfig.nominators.get? j with
      | none =>
        rw [nominatorAt_of_none present] at found
        cases found
      | some raw => simp
    · rfl
  · intro j z entry valid
    rw [nominatorAt_set] at entry
    split at entry
    · next equal =>
      cases entry
      rw [equal, wallet]
      exact registry.addresses k x found fun invalid => valid (stays invalid)
    · exact registry.addresses j z entry valid

theorem receive_invalid
    {k : Nat}
    (invalid : ∃ x, nominatorAt s.poolConfig.nominators k = some x ∧ x.status.val = 2) :
    ∃ y, nominatorAt after.poolConfig.nominators k = some y ∧ y.status.val = 2 := by
  obtain ⟨x, found, status⟩ := invalid
  rcases receive_rewrites indexed own success with same | ⟨j, fits, old, new, entry, stored, -, stays⟩
  · rw [same]
    exact ⟨x, found, status⟩
  rw [stored, nominatorAt_set]
  split
  · next equal =>
    rw [equal, entry] at found
    cases found
    exact ⟨new, rfl, stays status⟩
  · exact ⟨x, found, status⟩

theorem receive_activated
    {address : Uint 256} {status : Uint 8}
    (asked : i.request = some (.activateWallet address status)) :
    Activated s after address status := by
  rcases receive_effect indexed success with ⟨-, -, none⟩ | ⟨m, request, rfl, same, effect⟩
  · rw [asked] at none
    cases none
  rw [asked] at same
  cases same
  cases effect with
  | @activate _ _ raw nominator _ effect =>
    have found := nominatorAt_of_get? effect.found effect.unpacked
    have wallet := own m address status nominator rfl asked effect.feePaid effect.owner found
      effect.valid effect.different
    refine ⟨nominator, found, ?_⟩
    rw [effect.state]
    simp [wallet]

end

/-- If the init message does not list address 0 and every activation order that passes
its guards names an entry with that very wallet id, the registry stays intact. -/
theorem registry_integrity_with_own_wallet_ids {poolConfig : PoolConfig} {init : InitMessage}
    {balance : Grams} {start : State} (initialised : tryInit cellHash 0 poolConfig init balance = .ok start)
    (listed : init.nominators.get? 0 = none) (inputs : List Input)
    (own : Meets (receive cellHash) OwnWalletId start inputs) :
    RegistryIntegrity cellHash init start inputs := by
  have indexed : ∀ before, Indexed (run (receive cellHash) start before) :=
    run_indexed (tryInit_indexed initialised)
  constructor
  case registry =>
    intro before after split
    rw [split] at own
    refine (run_preserves_of_meets
      (P := fun s => Indexed s ∧ Registry cellHash init s.poolConfig.nominators) ?_ start before own.before
      ⟨tryInit_indexed initialised, initial_registry initialised listed⟩).2
    rintro s i next out here ⟨indexed, registry⟩ success
    exact ⟨receive_indexed indexed success, receive_registry indexed here success registry⟩
  case invalid =>
    intro before later after split k x found status
    rw [split] at own
    have between := ((meets_append start before later).mp own.before).2
    rw [run_append]
    refine (run_preserves_of_meets
      (P := fun s => Indexed s ∧ ∃ y, nominatorAt s.poolConfig.nominators k = some y ∧ y.status.val = 2)
      ?_ _ later between ⟨indexed before, x, found, status⟩).2
    rintro s i next out here ⟨indexed, invalid⟩ success
    exact ⟨receive_indexed indexed success, receive_invalid indexed here success invalid⟩
  case activation =>
    intro before i after address status next out split asked success
    rw [split] at own
    exact receive_activated (indexed before) own.at success asked

/-- A balance answer of the sample nominator between two deposits. -/
theorem sample_registry_integrity :
    nominatorAt (run (receive sampleHash) sampleState [sampleDeposit 8 2000000000, sampleGotBalance 5 6,
        sampleDeposit 9 2000000000]).poolConfig.nominators sampleNominator =
      some { status := 1, balance := 5, stake := 6, walletId := 0 } ∧
    RegistryIntegrity sampleHash sampleInit sampleState
      [sampleDeposit 8 2000000000, sampleGotBalance 5 6, sampleDeposit 9 2000000000] := by
  refine ⟨by decide +kernel, registry_integrity_with_own_wallet_ids sample_initialised ?_ _ ?_⟩
  · rfl
  · refine ⟨?_, ?_, ?_, trivial⟩
    · intro m address status x _ asked
      cases asked
    · intro m address status x _ asked
      rw [sampleGotBalance_request] at asked
      cases asked
    · intro m address status x _ asked
      cases asked

/-- Deactivating the sample nominator adds an entry at address 0, its wallet id. -/
theorem activation_adds_address : ¬ RegistryIntegrity sampleHash sampleInit sampleState
    [sampleActivate sampleNominator 0] := by
  intro integrity
  have same := (integrity.registry [sampleActivate sampleNominator 0] [] rfl).keys 0
  have added : ((run (receive sampleHash) sampleState
      [sampleActivate sampleNominator 0]).poolConfig.nominators.get? 0).isSome = true := by
    decide +kernel
  rw [added] at same
  exact absurd (same.mp rfl) (by decide +kernel)

end Init

end TonStaking.Guarantees.NominatorRegistry
