import TonStaking.Source.StakingPool.SubscriberIndex
import TonStaking.Tvm.Transaction

/-!
# Staking pool: runs

Everything that can reach an initialised pool: an internal message that is
processed, one whose transaction runs out of gas or fails in its action phase,
and a further external message. Runs are sequences of such inputs after a
successful `try_init`.
-/
namespace TonStaking.Source.StakingPool
open Tvm

inductive Input where
  | internal (m : InMsg)
  | aborted (m : InMsg)
  | external (init : InitMessage) (balance : Grams)

/-- The request that an input makes the pool process. -/
def Input.request : Input → Option Request
  | .internal m => if m.bounced then none else (parseRequest m.body).toOption
  | _ => none

def Input.sender : Input → Outcome (Int × Int)
  | .internal m => parseStdAddr m.src
  | _ => .error .outOfGas

section Run

variable (cellHash : Cell → Uint 256)

def receive (s : State) : Input → Outcome (State × List OutMsg)
  | .internal m => recvInternal cellHash s m
  | .aborted _ => .error .outOfGas
  | .external init balance => do
    match ← recvExternal cellHash init balance (.running s) with
    | .running s => .ok (s, [])
    | .fresh _ _ => .error .cellUnd

/-- States of all runs after initialisation. -/
def Reachable (s : State) : Prop :=
  ∃ poolConfig init balance start inputs, tryInit cellHash 0 poolConfig init balance = .ok start ∧
    s = run (receive cellHash) start inputs

variable {cellHash} {s : State}

theorem receive_success {after : State} {i : Input} {out : List OutMsg}
    (h : receive cellHash s i = .ok (after, out)) :
    (after = s ∧ out = [] ∧ i.request = none) ∨ ∃ m request, i = .internal m ∧
      i.request = some request ∧ handle cellHash s m request = .ok (after, out) := by
  cases i with
  | aborted m | external init balance => cases h
  | internal m =>
    change recvInternal cellHash s m = .ok (after, out) at h
    unfold recvInternal at h
    split at h
    · next bounced =>
      simp only [Except.ok.injEq, Prod.mk.injEq] at h
      exact .inl ⟨h.1.symm, h.2.symm, by simp [Input.request, bounced]⟩
    · next direct =>
      obtain ⟨request, parsed, handled⟩ := of_bind h
      refine .inr ⟨m, request, rfl, ?_, handled⟩
      simp [Input.request, direct, parsed, Except.toOption]

theorem receive_request {m : InMsg} {request : Request}
    (asked : (Input.internal m).request = some request) :
    receive cellHash s (.internal m) = handle cellHash s m request := by
  change recvInternal cellHash s m = _
  unfold recvInternal
  change (if m.bounced then none else (parseRequest m.body).toOption) = some request at asked
  split at asked
  · cases asked
  rename_i direct
  rw [if_neg direct]
  cases parsed : parseRequest m.body with
  | error e =>
    rw [parsed] at asked
    cases asked
  | ok r =>
    rw [parsed] at asked
    cases asked
    rfl

theorem Reachable.invariant {P : State → Prop} (reachable : Reachable cellHash s)
    (start : ∀ poolConfig init balance s, tryInit cellHash 0 poolConfig init balance = .ok s → P s)
    (keeps : ∀ s m request after out, P s → handle cellHash s m request = .ok (after, out) → P after) :
    P s := by
  obtain ⟨poolConfig, init, balance, first, inputs, initialised, rfl⟩ := reachable
  refine run_preserves ?_ first inputs (start poolConfig init balance first initialised)
  intro s i after out before success
  rcases receive_success success with ⟨rfl, -, -⟩ | ⟨m, request, -, -, handled⟩
  · exact before
  · exact keeps s m request after out before handled

theorem Reachable.success (reachable : Reachable cellHash s) {i : Input} {after : State} {out : List OutMsg}
    (success : receive cellHash s i = .ok (after, out)) : Reachable cellHash after := by
  obtain ⟨poolConfig, init, balance, first, inputs, initialised, rfl⟩ := reachable
  refine ⟨poolConfig, init, balance, first, inputs ++ [i], initialised, ?_⟩
  rw [run_snoc, commit_of_success success]

end Run

/-- A pool at address 5 with owner 7, depositors 8 and 9 and the nominators 0 and 1
with empty code: the representation hashes of the cells that occur there. -/
def sampleHash (c : Cell) : Uint 256 :=
  match c.refs with
  | [_, data] =>
    if natOf data.bits = 5 * 2 ^ 76 then
      ⟨0x6e7be42b723fcc9fbe29b5c4219b6a0379c1419826b8bc7c2b4e2dd7b41ff51b, by decide⟩
    else ⟨0x57b1f8b9fef912ab8667f97c10ed67a4c65db0f1a50661501ec46d408f184627, by decide⟩
  | _ =>
    if natOf c.bits = 7 then
      ⟨0x214bdf53afbe1683a8edacf8685c81ec66aa1bf8318024da2f42ca846a711033, by decide⟩
    else if natOf c.bits = 8 then
      ⟨0x97bc855b61b00f308799984a077905d57ba48023fa958e7891a9857209e6e3b8, by decide⟩
    else ⟨0x3f66b71b21f90c61f4e824088f34ae3a894303a043d5c0535c8d43f7198f50a7, by decide⟩

def sampleNominator : Uint 256 :=
  ⟨0x6e7be42b723fcc9fbe29b5c4219b6a0379c1419826b8bc7c2b4e2dd7b41ff51b, by decide⟩

def sampleConfig : PoolConfig where
  transactionFee := 100000000
  minAmount := 1000000000
  ownerFee := 500
  penaltyFee := 500
  owner := 7
  pendingOwner := 0
  nominators := Dict.empty

def sampleInit : InitMessage where
  poolAddress := 5
  nominators := Dict.empty.set sampleNominator sampleNominator.isLt
    (Nominator.toSlice { status := 1, balance := 0, stake := 0, walletId := 0 })
  nominatorCode := .mk [] []
  nonempty := by decide

/-- The sample pool after `try_init` with a balance of 10000 nanograms. -/
def sampleState : State :=
  (tryInit sampleHash 0 sampleConfig sampleInit 10000).toOption.get (by decide +kernel)

theorem sample_initialised : tryInit sampleHash 0 sampleConfig sampleInit 10000 = .ok sampleState :=
  eq_ok_get _

theorem sample_start : Reachable sampleHash sampleState :=
  ⟨sampleConfig, sampleInit, 10000, sampleState, [], sample_initialised, (run_nil _).symm⟩

theorem sample_reachable (inputs : List Input) : Reachable sampleHash (run (receive sampleHash) sampleState inputs) :=
  ⟨sampleConfig, sampleInit, 10000, sampleState, inputs, sample_initialised, rfl⟩

def sampleSender (address : Uint 256) : MsgAddress := accountAddress ⟨0, base_fits⟩ address

/-- A message to the sample pool, whose balance is `balance` on arrival. -/
def sampleMessage (src : MsgAddress) (value balance : Grams) (body : List Bool) : Input :=
  .internal { flags := 0, src, value, body := ⟨body, []⟩, balance }

def sampleTransfer (sender : Uint 256) (value : Grams) : InMsg where
  flags := 0
  src := sampleSender sender
  value := value
  body := ⟨[], []⟩
  balance := 0

def sampleDeposit (sender : Uint 256) (value : Grams) : Input := .internal (sampleTransfer sender value)

theorem sampleDeposit_request (sender : Uint 256) (value : Grams) :
    (sampleDeposit sender value).request = some .newSubscription := by
  simp [sampleDeposit, sampleTransfer, Input.request, InMsg.bounced, parseRequest, Slice.isEmpty, Except.toOption]

/-- Key of a sender in the subscribers dictionary of the sample pool. -/
def sampleKey (sender : Uint 256) : Uint 256 :=
  sampleHash (.mk (Uint.bits (0 : Uint 8) ++ Uint.bits sender) [])

theorem sample_hashed (sender : Uint 256) : subscriberHash sampleHash 0 (sender : Int) = .ok (sampleKey sender) := by
  have workchain : storeUint 8 0 = .ok 0 := by decide
  simp [subscriberHash, workchain, sampleKey]

def sampleOperation (op : Uint 32) (rest : List Bool) : List Bool :=
  Uint.bits op ++ (Uint.bits (1 : Uint 64) ++ rest)

theorem sampleOperation_request (src : MsgAddress) (value balance : Grams) (op : Uint 32)
    (rest : List Bool) (nonzero : op.val ≠ 0) :
    (sampleMessage src value balance (sampleOperation op rest)).request =
      (parseOperation op 1 ⟨rest, []⟩).toOption := by
  have nonempty : (⟨sampleOperation op rest, []⟩ : Slice).isEmpty = false := by
    cases bits : sampleOperation op rest with
    | nil =>
      have width := congrArg List.length bits
      simp [sampleOperation] at width
    | cons b tail => rfl
  have direct : InMsg.bounced ⟨0, src, value, ⟨sampleOperation op rest, []⟩, balance⟩ = false := by
    simp [InMsg.bounced]
  simp only [sampleMessage, Input.request, direct, parseRequest, nonempty, Bool.false_eq_true, if_false]
  simp only [sampleOperation, loadUint_bits, ok_bind, if_neg nonzero]

def sampleRedeem (sender : Uint 256) (id : Uint 32) : Input :=
  sampleMessage (sampleSender sender) 100000000 0 (sampleOperation 0x534D4452 (Uint.bits id))

/-- The answer of the sample nominator to a balance request. -/
def sampleGotBalance (balance stake : Grams) : Input :=
  sampleMessage (accountAddress ⟨-1, master_fits⟩ sampleNominator) 1000000 0
    (sampleOperation 0x4c425447 (gramsBits balance ++ gramsBits stake))

theorem sampleGotBalance_request (balance stake : Grams) :
    (sampleGotBalance balance stake).request = some (.gotBalance balance stake) := by
  have op : (0x4c425447 : Uint 32).val = 0x4c425447 := by decide
  rw [sampleGotBalance, sampleOperation_request _ _ _ _ _ (by decide)]
  rw [parseOperation, op]
  simp [Except.toOption]

def sampleActivate (address : Uint 256) (status : Uint 8) : Input :=
  sampleMessage (sampleSender 7) 100000000 0
    (sampleOperation 0x544c5741 (Uint.bits address ++ Uint.bits status))

/-- `SETC` from the masterchain. -/
def sampleSetConfig (sender : Uint 256) (option : Uint 8) (rest : List Bool) : Input :=
  sampleMessage (accountAddress ⟨-1, master_fits⟩ sender) 100000000 0
    (sampleOperation 0x43544553 (Uint.bits option ++ rest))

/-- `NEWP` from the owner. -/
def sampleNewPeriod : Input :=
  sampleMessage (sampleSender 7) 100000000 0 (sampleOperation 0x5057454e [])

theorem sampleNewPeriod_request : sampleNewPeriod.request = some .newPeriod := by
  have op : (0x5057454e : Uint 32).val = 0x5057454e := by decide
  rw [sampleNewPeriod, sampleOperation_request _ _ _ _ _ (by decide)]
  rw [parseOperation, op]
  simp [Except.toOption]

end TonStaking.Source.StakingPool
