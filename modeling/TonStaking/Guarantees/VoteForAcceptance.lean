import TonStaking.Source.ValidatorSession.Round

/-!
# VOTEFOR is accepted before it may be generated

The attempt repeats the tests of `check_need_generate_vote_for`, but its test of the waiting
time is made only for sessions that do not wait.
-/
namespace TonStaking.Guarantees.VoteForAcceptance
open Tvm Source.ValidatorSession

variable {n : Nat} (d : Description n) (round : RoundState n) (src : Fin n) (att : Uint 32)
  {candidate : Option (Uint 256)}

def Approved (candidate : Option (Uint 256)) : Prop :=
  ∃ x, round.getBlock candidate = some x ∧ x.checkBlockIsApproved d = true

def Recorded (candidate : Option (Uint 256)) : Prop :=
  (round.getAttempt att).voteForInited = false ∧
    ((round.getAttempt att).voteForAction d src att candidate round).voteForInited = true

/-- The attempt waits for the VOTEFOR of this node, which has taken part in the round. -/
def Awaited : Prop :=
  (round.getAttempt att).voteForInited = false ∧ src.val = getVoteForAuthor n att ∧
    (round.firstAttempt src = 0 → d.maxRoundAttempts = 0)

/-- The sum is that of 32-bit numbers. -/
def Early : Prop := att < round.firstAttempt src + d.maxRoundAttempts

theorem recorded_iff (approved : Approved d round candidate) :
    Recorded d round src att candidate ↔
      Awaited d round src att ∧ ¬ (Early d round src att ∧ d.maxRoundAttempts = 0) := by
  obtain ⟨x, found, enough⟩ := approved
  unfold Recorded AttemptState.voteForAction Awaited Early
  simp only [found, enough, if_true, gt_iff_lt, Fin.pos_iff_ne_zero, ← Bool.not_eq_true]
  split_ifs <;> tauto

theorem needed_iff (approved : Approved d round candidate) :
    round.checkNeedGenerateVoteFor d src att = true ↔
      Awaited d round src att ∧ round.precommitted = false ∧ ¬ (Early d round src att ∧ d.maxRoundAttempts ≠ 0) := by
  obtain ⟨x, found, enough⟩ := approved
  have some : round.sentBlocks.any (·.checkBlockIsApproved d) = true :=
    List.any_eq_true.mpr ⟨x, List.mem_of_find?_eq_some found, enough⟩
  have inited : (round.attempts att).any (·.voteForInited) = (round.getAttempt att).voteForInited := by
    unfold RoundState.getAttempt
    cases round.attempts att <;> rfl
  unfold RoundState.checkNeedGenerateVoteFor Awaited Early
  simp only [inited, some, gt_iff_lt, Fin.pos_iff_ne_zero, ← Bool.not_eq_true]
  split_ifs <;> tauto

/-- A VOTEFOR for an approved candidate is recorded exactly when one may be generated. -/
def AcceptedAsGenerated : Prop := ∀ candidate, Approved d round candidate →
  (Recorded d round src att candidate ↔ round.checkNeedGenerateVoteFor d src att = true)

theorem accepted_as_generated_iff (d : Description n) (round : RoundState n) (src : Fin n) (att : Uint 32) :
    AcceptedAsGenerated d round src att ↔
      ((∃ candidate, Approved d round candidate) → Awaited d round src att →
        if d.maxRoundAttempts = 0 then (Early d round src att ↔ round.precommitted = true)
        else round.precommitted = false ∧ ¬ Early d round src att) := by
  constructor
  · rintro same ⟨candidate, approved⟩ awaited
    have both := same candidate approved
    rw [recorded_iff d round src att approved, needed_iff d round src att approved] at both
    cases precommitted : round.precommitted <;> split_ifs <;> simp_all
  · intro agrees candidate approved
    rw [recorded_iff d round src att approved, needed_iff d round src att approved]
    refine and_congr_right fun awaited => ?_
    have waits := agrees ⟨candidate, approved⟩ awaited
    cases precommitted : round.precommitted <;> split_ifs at waits <;> simp_all

/-- One node, whose round starts with its APPROVE of the empty candidate at the attempt 1024. -/
def sampleDescription : Description 1 := ⟨fun _ => 1, 4⟩

def sampleRound : RoundState 1 := RoundState.create.action 0 1024 (·.approvedBlock 0 none true)

/-- A VOTEFOR of the next attempt is recorded, three attempts before it may be generated. -/
theorem early_voteFor_recorded : Approved sampleDescription sampleRound none ∧
    Recorded sampleDescription sampleRound 0 1025 none ∧
    sampleRound.checkNeedGenerateVoteFor sampleDescription 0 1025 = false :=
  ⟨⟨⟨none, fun i => i = 0⟩, rfl, by decide⟩, ⟨rfl, by decide⟩, by decide⟩

end TonStaking.Guarantees.VoteForAcceptance
