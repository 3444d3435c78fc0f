import TonStaking.Source.NominatorContract.Effects
import TonStaking.Source.StakingPool.Receive

/-!
# The stake ledger of a nominator

A nominator records what it has sent to the elector and what was confirmed. Its
stake orders take 1057 bits and never fit the cell of a message, so nothing is
ever sent. The recorded amounts stay at zero, as the ledger demands, and the
nominator takes part in no election.
-/
namespace TonStaking.Guarantees.StakeLedger
open Tvm Source.NominatorContract

section Definitions

variable (elector : Uint 256)

def IsStake (sent : OutMsg) : Prop :=
  sent.dest.account = some (⟨-1, master_fits⟩, elector) ∧
    (loadUint 32 sent.body).toOption.map Prod.fst = some 0x4e73744b

instance (sent : OutMsg) : Decidable (IsStake elector sent) := inferInstanceAs (Decidable (_ ∧ _))

/-- Grams that the messages of one transaction stake. -/
def staked (out : List OutMsg) : Nat :=
  (out.map fun sent => if IsStake elector sent then sent.value.val else 0).sum

/-- Grams that an answer of the elector returns or pays back. -/
def paidBack : Input → Nat
  | .internal m =>
    match m.bounced, parseRequest m.body with
    | false, .ok (.returnStake _) => m.value.val
    | false, .ok .recoverStake => m.value.val
    | _, _ => 0
  | _ => 0

/-- Totals of a run: what was sent to the elector and what came back. -/
structure Totals where
  sent : Nat
  back : Nat

def note (s : State) (t : Totals) (i : Input) : Totals :=
  match receive elector s i with
  | .ok (_, out) => ⟨t.sent + staked elector out, t.back + paidBack i⟩
  | .error _ => t

def totals (start : State) (inputs : List Input) : Totals :=
  track (receive elector) (note elector) start ⟨0, 0⟩ inputs

/-- Some order of the pool makes the nominator send a stake. -/
def CanStake (s : State) : Prop :=
  ∃ m inMsg after sent, parseRequest m.body = .ok (.stake inMsg) ∧ fromPool s m.src = .ok () ∧
    receive elector s (.internal m) = .ok (after, [sent]) ∧ IsStake elector sent

/-- The ledger shows what the elector still owes, and a nominator that is owed nothing is
ready for another election. -/
structure LedgerAgrees (start : State) (inputs : List Input) : Prop where
  balanced : ∀ before after, inputs = before ++ after →
    (run (receive elector) start before).stake.val + (run (receive elector) start before).stakeSent.val =
      (totals elector start before).sent - (totals elector start before).back
  cleared : ∀ before after, inputs = before ++ after →
    (totals elector start before).sent ≤ (totals elector start before).back →
    (run (receive elector) start before).stake.val = 0 ∧
      (run (receive elector) start before).stakeAt.val = 0 ∧
      CanStake elector (run (receive elector) start before)

end Definitions

/-- The body of a stake order: an amount that is read and not used, then the order. -/
def stakeBody (value : Grams) (order : StakeOrder) : Slice :=
  ⟨Uint.bits (0x4e73744b : Uint 32) ++ (Uint.bits (1 : Uint 64) ++
    (gramsBits value ++ (packStakeOrder order).bits)), (packStakeOrder order).refs⟩

def stakeMessage (s : State) (value : Grams) (order : StakeOrder) : InMsg where
  flags := 0
  src := accountAddress ⟨0, base_fits⟩ s.poolAddress
  value := value
  body := stakeBody value order
  balance := value

section Runs

variable {elector : Uint 256}

theorem never_can_stake (elector : Uint 256) (s : State) : ¬ CanStake elector s := by
  rintro ⟨m, inMsg, after, sent, parsed, -, success, -⟩
  rcases receive_effect success with ⟨-, none⟩ | ⟨m', request, same, again, effect⟩
  · cases none
  cases same
  rw [parsed] at again
  cases again
  cases effect

/-- No nominator keeps the ledger as intended: owed nothing by the elector, it still
cannot take part in an election. -/
theorem ledger_never_agrees (elector : Uint 256) (start : State) (inputs : List Input) :
    ¬ LedgerAgrees elector start inputs := by
  intro agrees
  obtain ⟨-, -, canStake⟩ := agrees.cleared [] inputs rfl le_rfl
  exact never_can_stake elector start canStake

end Runs

def sampleOrder : StakeOrder where
  validatorPubkey := 1
  stakeAt := 1000
  maxFactor := 65536
  adnlAddress := 2
  signature := List.replicate 512 false
  width := List.length_replicate

/-- A nominator that has never staked refuses the first order of its pool. -/
theorem first_stake_overflows :
    receive sampleElector (deployed 5 0) (.internal (stakeMessage (deployed 5 0) 10000000000000 sampleOrder)) =
        .error .cellOv ∧
      ¬ LedgerAgrees sampleElector (deployed 5 0) [] := by
  constructor
  · have refused : (receive sampleElector (deployed 5 0) (.internal (stakeMessage (deployed 5 0) 10000000000000
        sampleOrder))).map (fun _ => ()) = .error .cellOv := by decide +kernel
    generalize receive sampleElector (deployed 5 0) _ = result at refused
    cases result with
    | error e => rw [Except.error.inj refused]
    | ok done => cases refused
  · intro agrees
    obtain ⟨-, -, canStake⟩ := agrees.cleared [] [] rfl le_rfl
    exact never_can_stake sampleElector (deployed 5 0) canStake

end TonStaking.Guarantees.StakeLedger
