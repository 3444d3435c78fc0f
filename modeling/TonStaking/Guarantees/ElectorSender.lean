import TonStaking.Source.NominatorContract.Effects

/-!
# The nominator and its elector

Stakes go to an address made of the bits of parameter 1 (`get_elector_addr_s`). The senders of the three
answers are compared with the same bits as a signed number (`get_elector_addr`), while `parse_std_addr`
returns an unsigned one, so both name one account below 2^255 only. A recover order of the pool never
leads to a message: its body is null.
-/
namespace TonStaking.Guarantees.ElectorSender

open Tvm TonStaking.Source.NominatorContract

/-- The requests with a check that the sender is the elector. -/
def IsAnswer : Request → Prop
  | .recoverStake => True
  | .returnStake _ => True
  | .confirmStake => True
  | _ => False

/-- Exactly messages of the account that stakes are addressed to pass the check of the sender. -/
def ListensToElector (elector : Uint 256) (s : State) : Prop :=
  ∀ (m : InMsg) (request : Request) (wc addr : Int), IsAnswer request → parseStdAddr m.src = .ok (wc, addr) →
    (handle elector s m request ≠ .error (.code 43) ↔
      ∃ workchain address, (getElectorAddrS elector).account = some (workchain, address) ∧ wc = workchain.val ∧
        addr = address.val)

/-- A recover order of the pool leads to one message to the elector. -/
def RecoversOnOrder (elector : Uint 256) (s : State) : Prop :=
  ∀ m : InMsg, parseStdAddr m.src = .ok (0, (s.poolAddress : Int)) →
    ∃ after sent, handle elector s m .recoverStakeRequest = .ok (after, [sent]) ∧ sent.dest = getElectorAddrS elector

section Checks

variable {elector : Uint 256} {s : State} {m : InMsg} {request : Request} {wc addr : Int}

/-- A computation that never throws 43 leaves the decision to the check in front of it. -/
theorem checked_iff {check : Outcome Unit} {rest : Outcome (State × List OutMsg)}
    (fine : ErrorsIn (· ≠ .code 43) rest) :
    (check >>= fun _ => rest) ≠ .error (.code 43) ↔ check ≠ .error (.code 43) := by
  cases check with
  | error e => rw [error_bind]; simp
  | ok u => exact iff_of_true (fun refused => fine _ refused rfl) (by simp)

theorem answer_iff (answer : IsAnswer request) :
    handle elector s m request ≠ .error (.code 43) ↔ fromElector elector m.src ≠ .error (.code 43) := by
  have stored (initialized poolAddress walletId stakeAt stakeSent balance stake : Int) :
      ErrorsIn (· ≠ .code 43) (packState initialized poolAddress walletId stakeAt stakeSent balance stake >>=
        fun after => .ok (after, ([] : List OutMsg))) := by
    refine ErrorsIn.bind ?_ fun _ _ => errorsIn_ok _
    repeat refine (storeUint_errorsIn (by simp) _ _).bind fun _ _ => ?_
    exact errorsIn_ok _
  cases request with
  | recoverStake | returnStake reason | confirmStake => exact checked_iff (stored _ _ _ _ _ _ _)
  | _ => exact answer.elim

theorem fromElector_iff (parsed : parseStdAddr m.src = .ok (wc, addr)) :
    fromElector elector m.src ≠ .error (.code 43) ↔ wc = -1 ∧ addr = getElectorAddr elector := by
  unfold fromElector throwUnless
  rw [parsed, ok_bind]
  dsimp only
  split
  · next passed => exact iff_of_true (by simp) passed
  · next failed => exact iff_of_false (by simp) failed

end Checks

def messageFrom (workchain : Sint 8) (address : Uint 256) : InMsg :=
  ⟨0, accountAddress workchain address, 0, ⟨[], []⟩, 0⟩

/-- The nominator listens to the account it talks to exactly if the address has no sign bit; a
recover order never results in a message. -/
theorem listens_to_elector_iff (elector : Uint 256) (s : State) :
    (ListensToElector elector s ↔ elector.val < 2 ^ 255) ∧ ¬ RecoversOnOrder elector s := by
  refine ⟨⟨fun listens => ?_, fun low => ?_⟩, fun recovers => ?_⟩
  · by_contra high
    have answer : IsAnswer .confirmStake := trivial
    have heard := (listens (messageFrom ⟨-1, by decide⟩ elector) .confirmStake (-1) elector answer rfl).mpr
      ⟨⟨-1, by decide⟩, elector, rfl, rfl, rfl⟩
    rw [answer_iff answer, fromElector_iff rfl] at heard
    have same := heard.2
    rw [getElectorAddr, if_neg high] at same
    omega
  · intro m request wc addr answer parsed
    rw [answer_iff answer, fromElector_iff parsed, getElectorAddr, if_pos low]
    constructor
    · rintro ⟨rfl, rfl⟩
      exact ⟨⟨-1, by decide⟩, elector, rfl, rfl, rfl⟩
    · rintro ⟨workchain, address, same, rfl, rfl⟩
      cases same
      exact ⟨rfl, rfl⟩
  · obtain ⟨after, sent, done, -⟩ := recovers (messageFrom ⟨0, by decide⟩ s.poolAddress) rfl
    exact processRecoverStakeRequest_fails _ _ _ _ done

/-- The elector at 2^255: its confirmation is refused, and the recover order of the pool fails. -/
theorem far_elector_unheard :
    let elector : Uint 256 := ⟨2 ^ 255, by decide⟩
    let confirmation := messageFrom ⟨-1, by decide⟩ elector
    handle elector (deployed 5 0) confirmation .confirmStake = .error (.code 43) ∧
      handle elector (deployed 5 0) (messageFrom ⟨0, by decide⟩ 5) .recoverStakeRequest = .error .typeChk ∧
      ¬ ListensToElector elector (deployed 5 0) ∧ ¬ RecoversOnOrder elector (deployed 5 0) := by
  intro elector confirmation
  have refused : handle elector (deployed 5 0) confirmation .confirmStake = .error (.code 43) := rfl
  refine ⟨refused, rfl, fun listens => ?_, fun recovers => ?_⟩
  · exact (listens confirmation .confirmStake (-1) elector trivial rfl).mpr
      ⟨⟨-1, by decide⟩, elector, rfl, rfl, rfl⟩ refused
  · obtain ⟨after, sent, done, -⟩ := recovers (messageFrom ⟨0, by decide⟩ 5) rfl
    cases done

end TonStaking.Guarantees.ElectorSender
