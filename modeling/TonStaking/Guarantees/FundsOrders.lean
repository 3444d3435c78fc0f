import TonStaking.Guarantees.NominatorRegistry
import TonStaking.Source.Network

/-!
# Fund orders to nominators

`TRNS` and `WTDR` are meant to move funds between the pool and an active
nominator. Both handlers of the pool throw when the address is registered and
read a null entry when it is not, so no order ever leaves the pool.
-/
namespace TonStaking.Guarantees.FundsOrders
open Tvm Source Source.StakingPool NominatorRegistry
open Source.Network (poolAccount nominatorAccount)

/-- The address is registered with status 1. -/
def Active (s : State) (address : Uint 256) : Prop :=
  ∃ x, nominatorAt s.poolConfig.nominators address = some x ∧ x.status.val = 1

/-- A request of the owner with sufficient fee. -/
structure OwnerMessage (s : State) (m : InMsg) (request : Request) : Prop where
  asked : (Input.internal m).request = some request
  owner : parseStdAddr m.src = .ok (0, (s.poolConfig.owner : Int))
  feePaid : s.poolConfig.transactionFee.val ≤ m.value.val

section Definitions

variable (cellHash : Cell → Uint 256) (poolAddress : Uint 256) (s : State) (m : InMsg) (address : Uint 256) (grams : Grams)

/-- The pool answers with exactly one message of `grams` to the nominator. -/
def TransferReaches : Prop :=
  ∃ after order, recvInternal cellHash s m = .ok (after, [order]) ∧
    order.dest.account = some (⟨-1, master_fits⟩, address) ∧ order.value = grams

/-- The nominator reads the order as a withdrawal of `grams` and, in whatever state it
is, answers with one message of `grams` that the pool accepts. -/
def WithdrawalAnswered (after : State) (order : OutMsg) : Prop :=
  (∃ queryId, NominatorContract.parseRequest order.body = .ok (.withdraw queryId grams)) ∧
    ∀ (elector : Uint 256) (n : NominatorContract.State) (value balance : Grams),
      n.poolAddress = poolAddress →
      ∃ n' answer, NominatorContract.recvInternal elector n
          (order.deliver (poolAccount poolAddress) value balance) = .ok (n', [answer]) ∧
        answer.dest.account = some (⟨0, base_fits⟩, poolAddress) ∧ answer.value = grams ∧
        ∀ value balance : Grams, ∃ result,
          recvInternal cellHash after (answer.deliver (nominatorAccount address) value balance) = .ok result

def WithdrawalReaches : Prop :=
  ∃ after order, recvInternal cellHash s m = .ok (after, [order]) ∧
    order.dest.account = some (⟨-1, master_fits⟩, address) ∧
    WithdrawalAnswered cellHash poolAddress address grams after order

/-- Orders for an active nominator reach it; orders for any other address emit nothing. -/
structure OrdersReach : Prop where
  transfer : Active s address → ∀ m, OwnerMessage s m (.transferToWallet address grams) →
    grams.val ≤ m.balance.val → TransferReaches cellHash s m address grams
  withdrawal : Active s address → ∀ m, OwnerMessage s m (.withdrawFromWallet address grams) →
    grams.val ≤ m.balance.val → WithdrawalReaches cellHash poolAddress s m address grams
  silent : ¬ Active s address → ∀ m,
    OwnerMessage s m (.transferToWallet address grams) ∨
      OwnerMessage s m (.withdrawFromWallet address grams) →
    (commit (receive cellHash) s (.internal m)).2 = []

/-- The `TRNS` order of the owner of a pool that holds the amount. -/
def transferOrder : InMsg where
  flags := 0
  src := accountAddress ⟨0, base_fits⟩ s.poolConfig.owner
  value := s.poolConfig.transactionFee
  body := ⟨sampleOperation 0x534e5254 (Uint.bits address ++ gramsBits grams), []⟩
  balance := grams

theorem transferOrder_request :
    (Input.internal (transferOrder s address grams)).request = some (.transferToWallet address grams) := by
  have op : (0x534e5254 : Uint 32).val = 0x534e5254 := by decide
  have parsed := sampleOperation_request (accountAddress ⟨0, by decide⟩ s.poolConfig.owner)
    s.poolConfig.transactionFee grams 0x534e5254 (Uint.bits address ++ gramsBits grams) (by decide)
  refine Eq.trans parsed ?_
  rw [parseOperation, op]
  simp [Except.toOption]

theorem transferOrder_owner :
    OwnerMessage s (transferOrder s address grams) (.transferToWallet address grams) where
  asked := transferOrder_request s address grams
  owner := parseStdAddr_account _ _
  feePaid := le_rfl

end Definitions

section Refusal

variable {cellHash : Cell → Uint 256}
variable {s : State} {m : InMsg} {request : Request} {address : Uint 256} {grams : Grams}

/-- No fund order is ever carried out, whoever sends it. -/
theorem fund_order_refused (asked : (Input.internal m).request = some request)
    (order : request = .transferToWallet address grams ∨ request = .withdrawFromWallet address grams)
    (result : State × List OutMsg) : receive cellHash s (.internal m) ≠ .ok result := by
  rw [receive_request asked]
  rcases order with rfl | rfl
  · exact processTransferToWallet_fails _ _ _ _ _ _ result
  · exact processWithdrawFromWallet_fails _ _ _ _ _ result

theorem fund_order_silent (asked : (Input.internal m).request = some request)
    (order : request = .transferToWallet address grams ∨ request = .withdrawFromWallet address grams) :
    commit (receive cellHash) s (.internal m) = (s, []) := by
  cases outcome : receive cellHash s (.internal m) with
  | error e => exact commit_of_error outcome
  | ok result => exact (fund_order_refused asked order result outcome).elim

/-- The guard of the pool, meant for unknown addresses, refuses the registered one. -/
theorem active_transfer_error (grams : Grams) (active : Active s address) :
    receive cellHash s (.internal (transferOrder s address grams)) = .error (.code 50) := by
  obtain ⟨x, entry, -⟩ := active
  obtain ⟨raw, found, -⟩ := nominatorAt_decoded entry
  rw [receive_request (transferOrder_request s address grams)]
  simp [handle, processTransferToWallet, orderNominator, transferOrder, throwUnless, found]

theorem active_orders_fail (poolAddress : Uint 256) (grams : Grams) (active : Active s address) :
    ¬ OrdersReach cellHash poolAddress s address grams := by
  intro reach
  obtain ⟨after, order, sent, -⟩ :=
    reach.transfer active (transferOrder s address grams) (transferOrder_owner s address grams) le_rfl
  exact fund_order_refused (transferOrder_request s address grams) (.inl rfl) _ sent

/-- Orders reach the nominators exactly where there is nothing to reach: at an address
that is not registered with status 1. -/
theorem orders_reach_iff_inactive (cellHash : Cell → Uint 256) (poolAddress : Uint 256) (s : State)
    (address : Uint 256) (grams : Grams) :
    OrdersReach cellHash poolAddress s address grams ↔ ¬ Active s address := by
  constructor
  · intro reach active
    exact active_orders_fail poolAddress grams active reach
  · intro inactive
    constructor
    · intro active
      exact (inactive active).elim
    · intro active
      exact (inactive active).elim
    · intro _ m order
      rcases order with transfer | withdrawal
      · rw [fund_order_silent transfer.asked (.inl rfl)]
      · rw [fund_order_silent withdrawal.asked (.inr rfl)]

end Refusal

/-- The sample pool registers its nominator with status 1 and refuses to send it 10000
nanograms. -/
theorem active_transfer_refused :
    Active sampleState sampleNominator ∧
      receive sampleHash sampleState (.internal (transferOrder sampleState sampleNominator 10000)) =
        .error (.code 50) ∧
      ¬ OrdersReach sampleHash 5 sampleState sampleNominator 10000 := by
  have active : Active sampleState sampleNominator :=
    ⟨{ status := 1, balance := 0, stake := 0, walletId := 0 }, by decide +kernel, by decide⟩
  exact ⟨active, active_transfer_error 10000 active, active_orders_fail 5 10000 active⟩

end TonStaking.Guarantees.FundsOrders
