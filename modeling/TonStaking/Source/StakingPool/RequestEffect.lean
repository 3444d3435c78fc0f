import TonStaking.Source.StakingPool.ConfigEffects

/-!
# Staking pool: what one message can do

One constructor for each kind of successful request. The two fund orders are
missing because they never succeed. All invariants of the pool are proved by
cases on this relation.
-/
namespace TonStaking.Source.StakingPool
open Tvm

inductive Effect (cellHash : Cell → Uint 256) (s : State) (m : InMsg) :
    Request → State → List OutMsg → Prop
  | ignored : Effect cellHash s m .ignored s []
  | ownersTransfer (owner : parseStdAddr m.src = .ok (0, (s.poolConfig.owner : Int))) :
      Effect cellHash s m .newSubscription s []
  | deposit {srcWc srcAddr : Int} {hash : Uint 256} {lastId : Uint 32} {inner : IndexTrie}
      {sub : Subscription} {current updated : Performance} {after : State}
      (effect : DepositEffect cellHash s m.src m.value srcWc srcAddr hash lastId inner sub current
        updated after) : Effect cellHash s m .newSubscription after []
  | redeem {queryId : Int} {id : Nat} {sub written : Subscription} {current updated : Performance}
      {after : State} {out : List OutMsg}
      (effect : RedeemEffect s m.src id sub written current updated after out) :
      Effect cellHash s m (.redeem queryId id) after out
  | activate {walletAddress : Uint 256} {walletStatus : Uint 8} {raw : Slice} {nominator : Nominator}
      {after : State}
      (effect : ActivateEffect s m.src m.value walletAddress walletStatus raw nominator after) :
      Effect cellHash s m (.activateWallet walletAddress walletStatus) after []
  | fetch {current : Performance} {after : State} {out : List OutMsg}
      (effect : FetchEffect s m.src m.value m.balance current after out) :
      Effect cellHash s m .fetchBalances after out
  | gotBalance {balance stake : Grams} {address : Uint 256} {raw : Slice} {nominator : Nominator}
      {current updated : Performance} {after : State}
      (effect : GotBalanceEffect s balance stake address raw nominator current updated after) :
      Effect cellHash s m (.gotBalance balance stake) after []
  | newPeriod {current previous closed opened : Performance} {next : Uint 16} {after : State}
      (effect : NewPeriodEffect s m.src current previous closed opened next after) :
      Effect cellHash s m .newPeriod after []
  | setConfig {option : Uint 8} {inMsg : Slice} {srcWc srcAddr : Int} {written : PoolConfig}
      (parsed : parseStdAddr m.src = .ok (srcWc, srcAddr))
      (effect : SetConfigEffect s.poolConfig srcWc srcAddr option inMsg written) :
      Effect cellHash s m (.setConfig option inMsg) { s with poolConfig := written } []

variable {cellHash : Cell → Uint 256}
variable {s after : State} {m : InMsg} {request : Request} {out : List OutMsg} {sub : Subscription} {i : Input}

theorem handle_effect (indexed : Indexed s) (h : handle cellHash s m request = .ok (after, out)) :
    Effect cellHash s m request after out := by
  cases request with
  | newSubscription =>
    obtain ⟨rfl, ⟨rfl, owner⟩ | ⟨_, _, _, _, _, _, _, _, effect⟩⟩ :=
      processNewSubscription_effects indexed h
    · exact .ownersTransfer owner
    · exact .deposit effect
  | redeem queryId subscriptionId =>
    obtain ⟨id, _, _, _, _, rfl, effect⟩ := processRedeem_effects h
    exact .redeem effect
  | activateWallet walletAddress walletStatus =>
    obtain ⟨rfl, _, _, effect⟩ := processActivateWallet_effects h
    exact .activate effect
  | transferToWallet walletAddress grams => exact (processTransferToWallet_fails _ _ _ _ _ _ _ h).elim
  | withdrawFromWallet walletAddress grams => exact (processWithdrawFromWallet_fails _ _ _ _ _ _ h).elim
  | fetchBalances =>
    obtain ⟨_, effect⟩ := processFetchBalances_effects h
    exact .fetch effect
  | gotBalance balance stake =>
    obtain ⟨rfl, _, _, _, _, _, effect⟩ := processGotBalance_effects h
    exact .gotBalance effect
  | newPeriod =>
    obtain ⟨rfl, _, _, _, _, _, effect⟩ := processNewPeriod_effects h
    exact .newPeriod effect
  | setConfig option inMsg =>
    obtain ⟨rfl, _, _, _, parsed, effect, rfl⟩ := processSetConfig_effects h
    exact .setConfig parsed effect
  | ignored =>
    obtain ⟨rfl, rfl⟩ := h
    exact .ignored

/-- Where a subscription that is stored after a message comes from. -/
inductive Origin (s : State) (id : Nat) (sub : Subscription) : Prop
  | kept (found : s.subscriptions.get? id = some sub)
  | opened (start : sub.startPeriod = s.currentPeriod) (status : sub.status.val = 1)
      (workchain : 0 ≤ sub.subscriberWc.val)
  | redeemed {old : Subscription} (found : s.subscriptions.get? id = some old)
      (start : sub.startPeriod = old.startPeriod) (status : sub.status.val = 0 ∨ sub.status.val = 2)
      (workchain : sub.subscriberWc = old.subscriberWc)

theorem Effect.origin (effect : Effect cellHash s m request after out) {id : Nat}
    (found : after.subscriptions.get? id = some sub) : Origin s id sub := by
  cases effect with
  | ignored | ownersTransfer owner | setConfig parsed effect => exact .kept found
  | activate effect | fetch effect | gotBalance effect =>
    rw [effect.state] at found
    exact .kept found
  | deposit effect =>
    rw [effect.state, Dict.get?_set] at found
    split at found
    · cases found
      -- the key of a sender is stored unsigned
      obtain ⟨wc, stored, -⟩ := of_bind effect.hashed
      exact .opened effect.start effect.status (effect.workchain ▸ (storeUint_fits stored).1)
    · exact .kept found
  | redeem effect =>
    rw [effect.state, Dict.get?_set] at found
    split at found
    · next same =>
      cases found
      rw [same]
      refine .redeemed effect.found effect.start ?_ effect.workchain
      rcases effect.branch with now | ⟨start, last, earlier⟩
      · exact .inl now.status
      · exact .inr earlier.status
    · exact .kept found
  | newPeriod effect =>
    rcases effect.subscriptions with ⟨-, same⟩ | ⟨-, lastId, issued, share⟩
    · rw [same] at found
      exact .kept found
    obtain ⟨fits, stored⟩ := share.stored
    rw [stored, Dict.get?_set] at found
    split at found
    · cases found
      exact .opened share.start share.status (le_of_eq share.workchain.symm)
    · exact .kept found

section

variable (indexed : Indexed s)
include indexed

theorem receive_effect (h : receive cellHash s i = .ok (after, out)) :
    (after = s ∧ out = [] ∧ i.request = none) ∨ ∃ m request, i = .internal m ∧
      i.request = some request ∧ Effect cellHash s m request after out := by
  rcases receive_success h with idle | ⟨m, request, source, asked, handled⟩
  · exact .inl idle
  · exact .inr ⟨m, request, source, asked, handle_effect indexed handled⟩

theorem handle_indexed (h : handle cellHash s m request = .ok (after, out)) : Indexed after := by
  cases handle_effect indexed h with
  | ignored | ownersTransfer owner | setConfig parsed effect => exact indexed
  | @deposit srcWc srcAddr hash lastId inner sub current updated after effect =>
    intro key subscriber found
    rw [effect.state, Dict.get?_set] at found
    split at found
    · cases found
      exact ⟨inner, rfl⟩
    · exact indexed key subscriber found
  | redeem effect | activate effect | fetch effect | gotBalance effect =>
    rw [effect.state]
    exact indexed
  | newPeriod effect =>
    intro key subscriber found
    rw [effect.subscribers] at found
    exact indexed key subscriber found

theorem receive_indexed (h : receive cellHash s i = .ok (after, out)) : Indexed after := by
  rcases receive_success h with ⟨rfl, -, -⟩ | ⟨m, request, -, -, handled⟩
  · exact indexed
  · exact handle_indexed indexed handled

theorem commit_indexed (i : Input) : Indexed (commit (receive cellHash) s i).1 :=
  commit_preserves indexed fun _ _ => receive_indexed indexed

theorem run_indexed (inputs : List Input) : Indexed (run (receive cellHash) s inputs) := by
  induction inputs generalizing s with
  | nil => exact indexed
  | cons i _ ih => exact ih (commit_indexed indexed i)

end

theorem tryInit_indexed {poolConfig : PoolConfig} {init : InitMessage} {balance : Grams}
    (h : tryInit cellHash 0 poolConfig init balance = .ok s) : Indexed s := by
  obtain ⟨_, _, _, hash, effect⟩ := tryInit_effects h
  intro key subscriber found
  rw [effect.subscribers, Dict.get?_set] at found
  split at found
  · cases found
    exact ⟨_, rfl⟩
  · cases found

theorem Reachable.indexed (reachable : Reachable cellHash s) : Indexed s := by
  apply reachable.invariant
  · intro poolConfig init balance s initialised
    exact tryInit_indexed initialised
  · intro s m request after out before handled
    exact handle_indexed before handled

theorem Reachable.invariant_effect {P : State → Prop} (reachable : Reachable cellHash s)
    (start : ∀ poolConfig init balance s, tryInit cellHash 0 poolConfig init balance = .ok s → P s)
    (keeps : ∀ s m request after out, P s → Effect cellHash s m request after out → P after) : P s := by
  have both : Indexed s ∧ P s := by
    apply reachable.invariant
    · intro poolConfig init balance s initialised
      exact ⟨tryInit_indexed initialised, start poolConfig init balance s initialised⟩
    · rintro s m request after out ⟨indexed, before⟩ handled
      exact ⟨handle_indexed indexed handled, keeps s m request after out before (handle_effect indexed handled)⟩
  exact both.2

end TonStaking.Source.StakingPool
