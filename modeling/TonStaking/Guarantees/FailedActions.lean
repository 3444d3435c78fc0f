import TonStaking.Source.Transaction.Effects

/-!
# Failed action phases

An action phase that ends with an error leaves balance, code, data, messages and
logical time as they were before it: they are kept in the phase until all
actions have been performed. The libraries are the exception. An action that
changes them writes them to the transaction at once, and a later error does not
take that back.
-/
namespace TonStaking.Guarantees.FailedActions
open Tvm Source.Transaction

section Definitions

variable (cellHash : Cell → Uint 256)

/-- The same transaction with no actions, and with its data and code not committed. -/
def uncommitted (x : OrdInput) (tx : Tx) : OrdInput :=
  { x with vm := { x.vm with newData := tx.newData, actions := ⟨[], false⟩ } }

/-- The parts of a transaction that the account and the outside see. -/
structure SameResult (a b : Tx) : Prop where
  newCode : a.newCode = b.newCode
  newData : a.newData = b.newData
  newLibrary : a.newLibrary = b.newLibrary
  balance : a.balance = b.balance
  endLt : a.endLt = b.endLt
  outMsgs : a.outMsgs = b.outMsgs

/-- The actions of the transaction up to the first error. -/
def reachedActions (x : OrdInput) (tx : Tx) (gasFees : Int) : List Action :=
  match x.vm.actions.actions x.cfg.maxActions with
  | .error _ => []
  | .ok actions => reached cellHash (actionEnv x gasFees) (beginActions tx) actions

end Definitions

section Phases

variable {cellHash : Cell → Uint 256} {x : OrdInput} {start tx after : Tx} {gasFees : Int} {code : Int}

/-- After an error, only the rest of the inbound value and the libraries have changed. -/
theorem failed_framed
    (failed : prepareActionPhase cellHash (actionEnv x gasFees) tx x.vm.newData x.vm.actions = .ok (after, code))
    (error : code ≠ 0) :
    Framed (libraryAfter cellHash tx.newLibrary (reachedActions cellHash x tx gasFees)) tx after := by
  unfold reachedActions
  change (match x.vm.actions.actions x.cfg.maxActions with
    | .error code => _
    | .ok actions => _) = _ at failed
  split at failed
  · cases failed
    rfl
  obtain ⟨⟨st, reason⟩, ran, failed⟩ := of_bind failed
  dsimp only at failed
  split at failed
  · obtain ⟨_, -, failed⟩ := of_bind failed
    cases failed
    exact absurd rfl error
  · cases failed
    exact (tryActions_attempted ran).framed

/-- Without actions, a transaction ends as it was before its action phase. -/
theorem no_actions (cellHash : Cell → Uint 256) (env : ActionEnv) (early : Early tx) :
    ∃ ref, prepareActionPhase cellHash env tx tx.newData ⟨[], false⟩ = .ok (ref, 0) ∧ SameResult ref tx := by
  refine ⟨_, prepareActionPhase_nil cellHash env tx.newData early, ?_⟩
  exact ⟨rfl, rfl, rfl, rfl, rfl, early.noMsgs.symm⟩

theorem acts_uncommitted (acts : Acts x tx gasFees) : Acts (uncommitted x tx) tx gasFees := by
  obtain ⟨start, prepared, computed⟩ := acts.computed
  exact ⟨start, prepared, computed⟩

/-- A transaction whose actions fail ends like one without actions that commits nothing, exactly if the
actions before the error have left the libraries as they were. -/
theorem failed_actions_iff (cellHash : Cell → Uint 256) (x : OrdInput) (tx after : Tx) (gasFees code : Int)
    (acts : Acts x tx gasFees)
    (failed : prepareActionPhase cellHash (actionEnv x gasFees) tx x.vm.newData x.vm.actions = .ok (after, code))
    (error : code ≠ 0) :
    createOrdinaryTransaction cellHash x = .ok (some after) ∧
      ∃ ref, createOrdinaryTransaction cellHash (uncommitted x tx) = .ok (some ref) ∧
        (SameResult after ref ↔
          libraryAfter cellHash tx.newLibrary (reachedActions cellHash x tx gasFees) = tx.newLibrary) := by
  have framed := failed_framed failed error
  obtain ⟨ref, reference, same⟩ := no_actions cellHash (actionEnv x gasFees) acts.early
  refine ⟨acts.result failed, ref, (acts_uncommitted acts).result reference, ?_⟩
  constructor
  · intro result
    have changed : after.newLibrary = libraryAfter cellHash tx.newLibrary (reachedActions cellHash x tx gasFees) :=
      congrArg Tx.newLibrary framed
    rw [← changed, result.newLibrary, same.newLibrary]
  · intro library
    rw [library] at framed
    rw [framed]
    exact ⟨same.newCode.symm, same.newData.symm, same.newLibrary.symm, same.balance.symm, same.endLt.symm,
      same.outMsgs.symm⟩

end Phases

def freePrices : MsgPrices where
  lumpPrice := 0
  bitPrice := 0
  cellPrice := 0
  ihrFactor := 0
  firstFrac := 0

/-- An account of the masterchain with 1 Gram receives 1 Gram; a unit of gas costs one nanogram, and the
machine uses 100 of them. -/
def sampleInput (actions : List Action) : OrdInput where
  storageCfg := { freezeDueLimit := 100000000, deleteDueLimit := 1000000000 }
  gasCfg := { gasLimit := 10000, specialGasLimit := 10000, gasCredit := 0, gasPrice := 65536, flatGasLimit := 0
              flatGasPrice := 0 }
  cfg := { maxActions := 255, mcPrices := freePrices, basePrices := freePrices, workchains := fun _ => none }
  account := {
    addr := 7, myAddr := accountAddress ⟨-1, master_fits⟩ 7, myAddrExact := accountAddress ⟨-1, master_fits⟩ 7
    isMasterchain := true, isSpecial := false, status := .active, balance := ⟨1000000000, none⟩, duePayment := 0
    code := some (.mk [] []), data := some (.mk [] []), library := Dict.empty, lastTransEndLt := 10 }
  inMsg := .int {
    ihrDisabled := true, bounce := true, src := accountAddress ⟨-1, master_fits⟩ 8, value := ⟨1000000000, none⟩
    ihrFee := 0, createdLt := 5, extraCells := 0, extraBits := 0 }
  init := none
  ihrDelivered := false
  reqStartLt := 11
  storageFees := 0
  vm := { newLimit := none, consumed := 100, committed := true, newData := some (.mk [true] [])
          actions := ⟨actions.map Node.action, false⟩ }

/-- The transaction when it reaches its action phase. -/
def sampleTx (x : OrdInput) : Option Tx :=
  ((unpackInputMsg x (newTx x)).bind (prepareMoney x)).bind fun start =>
    match prepareComputePhase x start with
    | .ok (tx, .ran true 100) => some tx
    | _ => none

theorem sampleTx_acts {x : OrdInput} {tx : Tx} (reached : sampleTx x = some tx) : Acts x tx 100 := by
  obtain ⟨start, prepared, reached⟩ := Option.bind_eq_some_iff.mp reached
  refine ⟨start, prepared, ?_⟩
  split at reached
  · next computed =>
    cases reached
    exact computed
  · cases reached

/-- Libraries are identified by the bits of their cells. -/
def sampleHash (c : Cell) : Uint 256 := ⟨natOf c.bits % 2 ^ 256, Nat.mod_lt _ (by decide)⟩

/-- A library is added, and then more is to be reserved than there is. -/
def addThenFail : OrdInput :=
  sampleInput [.changeLibrary 2 (.ref (.mk [true, false, true] [])), .reserveCurrency 0 (some ⟨5000000000, none⟩)]

theorem addThenFail_fails :
    ∃ tx after, Acts addThenFail tx 100 ∧
      prepareActionPhase sampleHash (actionEnv addThenFail 100) tx addThenFail.vm.newData addThenFail.vm.actions =
        .ok (after, 37) ∧ tx.newLibrary.keys = [] ∧ after.newLibrary.keys = [5] := by
  have ran : ((sampleTx addThenFail).map fun tx =>
      match prepareActionPhase sampleHash (actionEnv addThenFail 100) tx addThenFail.vm.newData
        addThenFail.vm.actions with
      | .ok (after, code) => (code, tx.newLibrary.keys, after.newLibrary.keys)
      | .error _ => (0, [], [])) = some (37, [], [5]) := by decide +kernel
  obtain ⟨tx, reached, ran⟩ := Option.map_eq_some_iff.mp ran
  refine ⟨tx, ?_⟩
  split at ran
  · next after code done =>
    obtain ⟨rfl, before, now⟩ := by simpa using ran
    exact ⟨after, sampleTx_acts reached, done, before, now⟩
  · cases ran

/-- The library of a transaction whose action phase fails with code 37 stays. -/
theorem library_survives_failure :
    ∃ tx after ref, Acts addThenFail tx 100 ∧
      prepareActionPhase sampleHash (actionEnv addThenFail 100) tx addThenFail.vm.newData addThenFail.vm.actions =
        .ok (after, 37) ∧
      createOrdinaryTransaction sampleHash addThenFail = .ok (some after) ∧
      createOrdinaryTransaction sampleHash (uncommitted addThenFail tx) = .ok (some ref) ∧
      after.newLibrary.keys = [5] ∧ ref.newLibrary.keys = [] ∧ ¬ SameResult after ref := by
  obtain ⟨tx, after, acts, failed, before, now⟩ := addThenFail_fails
  obtain ⟨ref, reference, same⟩ := no_actions sampleHash (actionEnv addThenFail 100) acts.early
  have kept : ref.newLibrary.keys = [] := by rw [same.newLibrary, before]
  refine ⟨tx, after, ref, acts, failed, acts.result failed, (acts_uncommitted acts).result reference, now, kept, ?_⟩
  intro result
  rw [result.newLibrary, kept] at now
  cases now

theorem failed_actions_sample :
    ∃ tx after, Acts addThenFail tx 100 ∧ createOrdinaryTransaction sampleHash addThenFail = .ok (some after) ∧
      ∃ ref, createOrdinaryTransaction sampleHash (uncommitted addThenFail tx) = .ok (some ref) ∧
        (SameResult after ref ↔ libraryAfter sampleHash tx.newLibrary
          (reachedActions sampleHash addThenFail tx 100) = tx.newLibrary) := by
  obtain ⟨tx, after, acts, failed, -⟩ := addThenFail_fails
  exact ⟨tx, after, acts, failed_actions_iff sampleHash addThenFail tx after 100 37 acts failed (by decide)⟩

end TonStaking.Guarantees.FailedActions
