import TonStaking.Guarantees.ElectedSets

/-!
# Elections: a stake is frozen or credited

`try_elect` freezes a share of every elected stake and credits what is left of it to the address that
the stake came from. It divides, however, the stakes of its sorted list, and those are cut at
`max_stake` (elector-code.fc 440-444): the part above is in neither place.
-/
namespace TonStaking.Guarantees.ElectionRefunds

open Tvm TonStaking.Source.Elector TonStaking.Guarantees.ElectedSets

section Stakes

variable (maxStake : Grams) (members : Dict 256 Member) (a : Uint 256)

/-- What the members registered from an address have staked. -/
def stakedFrom : Int :=
  members.sumBy fun _ mem => if mem.srcAddr = a then (mem.stake : Int) else 0

def frozenOf (frozen : Dict 256 Frozen) (a : Uint 256) : Int :=
  frozen.sumBy fun _ x => if x.addr = a then (x.stake : Int) else 0

/-- The stake of a candidate as far as it belongs to an address. -/
def candidateFrom (c : Candidate) : Int :=
  if (members.get? c.pubkey).map Member.srcAddr = some a then c.stake else 0

/-- The stakes of an address as `try_elect` divides them. -/
def cappedFrom : Int :=
  members.sumBy fun _ mem => if mem.srcAddr = a then min (mem.stake : Int) maxStake else 0

/-- What `max_stake` cuts off the stakes of an address. -/
def excessFrom : Int :=
  members.sumBy fun _ mem => if mem.srcAddr = a then max ((mem.stake : Int) - maxStake) 0 else 0

theorem stakedFrom_eq :
    stakedFrom members a = cappedFrom maxStake members a + excessFrom maxStake members a := by
  unfold stakedFrom cappedFrom excessFrom
  rw [← Dict.sumBy_add]
  refine Dict.sumBy_congr _ _ _ fun k mem _ => ?_
  split <;> omega

end Stakes

/-- For every source address the stakes are its frozen stakes and the increase of its credit. -/
def LosesNoStake (credits : Dict 256 Grams) (members : Dict 256 Member) (r : ElectionResult) : Prop :=
  ∀ a : Uint 256, stakedFrom members a = frozenOf r.frozen a + (creditOf r.credits a - creditOf credits a)

section Loop

variable {members : Dict 256 Member} {m i n : Nat} {mStake bestStake : Int} {l : List Candidate} {e after : Elected}
  {maxStake : Grams} {maxStakeFactor : Uint 32} {sdict : Dict 416 SortValue}

theorem excessFrom_eq_zero_iff :
    (∀ a, excessFrom maxStake members a = 0) ↔ ∀ k mem, members.get? k = some mem → mem.stake ≤ maxStake := by
  constructor
  · intro zero k mem found
    have part := Dict.le_sumBy members
      (fun _ x => if x.srcAddr = mem.srcAddr then max ((x.stake : Int) - maxStake) 0 else 0)
      (fun k x => by split <;> omega) found
    have none := zero mem.srcAddr
    unfold excessFrom at none
    rw [none, if_pos rfl] at part
    rw [Fin.le_def]
    omega
  · intro below a
    refine (Dict.sumBy_congr _ _ _ fun k mem found => ?_).trans (Dict.sumBy_zero members)
    have low := Fin.le_def.mp (below k mem found)
    split <;> omega

theorem creditRest_of {credits after : Dict 256 Grams} {addr : Uint 256} {stake : Int}
    (h : creditRest credits addr stake = .ok after) (a : Uint 256) :
    creditOf after a = creditOf credits a + if addr = a then stake else 0 := by
  unfold creditRest at h
  split at h
  · have same : (a.val = addr.val) ↔ addr = a := by rw [Fin.val_inj, eq_comm]
    rw [creditTo_of h a, if_congr same rfl rfl]
  · next zero =>
    cases h
    split <;> omega

/-- A round moves the stake of its candidate to the address it came from, and nothing to others. -/
theorem electAll_refunds (distinct : (l.map fun c => c.pubkey.val).Nodup)
    (unused : ∀ c ∈ l, e.frozen.get? c.pubkey = none) (h : electAll members m mStake bestStake i e l = .ok after)
    (a : Uint 256) : creditOf after.credits a + frozenOf after.frozen a =
      creditOf e.credits a + frozenOf e.frozen a + (l.map (candidateFrom members a)).sum := by
  refine electAll_rule (Q := fun l e => creditOf after.credits a + frozenOf after.frozen a =
    creditOf e.credits a + frozenOf e.frozen a + (l.map (candidateFrom members a)).sum) (by simp) ?_ distinct unused h
  intro e c next l mem share placed unused later
  have credited := creditRest_of placed.credited a
  have frozen : frozenOf next.frozen a = frozenOf e.frozen a + if mem.srcAddr = a then share else 0 :=
    placed.sumBy_frozen unused (· = a)
  have source : candidateFrom members a c = if mem.srcAddr = a then c.stake else 0 := by
    simp [candidateFrom, placed.found]
  rw [List.map_cons, List.sum_cons, source, later, credited, frozen]
  split <;> omega

theorem listStakes_from (h : sortMembers members maxStakeFactor = .ok (sdict, n)) (a : Uint 256) :
    ((listStakes sdict maxStake).map (candidateFrom members a)).sum = cappedFrom maxStake members a := by
  rw [((listStakes_perm h).map _).sum_eq, List.map_map]
  congr 1
  apply List.map_congr_left
  intro e member
  have found : members.get? e.1 = some e.2 := (members.get?_eq_some_iff e.1 e.2).mpr member
  have bound := members.bounded e member
  rw [Function.comp_apply, candidateFrom, candidateOf_pubkey, candidateOf_stake, sortEntry_key, sortKey_mod bound,
    sortKey_div bound, found]
  simp

end Loop

/-- Elections lose no stake exactly if no stake is above `max_stake`. -/
theorem loses_no_stake_iff (env : Env) (credits : Dict 256 Grams) (members : Dict 256 Member)
    (minStake maxStake minTotalStake : Grams) (maxStakeFactor : Uint 32) (r : ElectionResult)
    (h : tryElect env credits members minStake maxStake minTotalStake maxStakeFactor = .ok r) (nonempty : r.cnt ≠ 0) :
    LosesNoStake credits members r ↔ ∀ k mem, members.get? k = some mem → mem.stake ≤ maxStake := by
  rcases tryElect_run h with rfl | ⟨sdict, last, e, elections⟩
  · exact absurd rfl nonempty
  obtain ⟨n, sorted⟩ := elections.sorted
  have divided (a : Uint 256) : creditOf r.credits a + frozenOf r.frozen a =
      creditOf credits a + cappedFrom maxStake members a := by
    have moved := electAll_refunds (listStakes_nodup sorted) (fun _ _ => rfl) elections.elected a
    rw [listStakes_from sorted] at moved
    have start : frozenOf Dict.empty a = 0 := rfl
    rw [elections.result]
    simpa [start] using moved
  rw [← excessFrom_eq_zero_iff]
  refine forall_congr' fun a => ?_
  have whole := stakedFrom_eq maxStake members a
  have parts := divided a
  omega

/-- Two members from address 9 with stakes of 10. -/
def sampleElection (maxStake : Grams) : Outcome ElectionResult :=
  tryElect (sampleEnv 2) Dict.empty (sampleMembers 0x10000) 1 maxStake 1 0x30000

/-- With a `max_stake` of 4 there are 8 frozen, and nothing is credited. -/
theorem stake_above_limit_lost :
    ∃ r, sampleElection 4 = .ok r ∧ r.cnt = 2 ∧ stakedFrom (sampleMembers 0x10000) 9 = 20 ∧ frozenOf r.frozen 9 = 8 ∧
      creditOf r.credits (9 : Uint 256) = 0 ∧ ¬ LosesNoStake Dict.empty (sampleMembers 0x10000) r := by
  have ran : (sampleElection 4).toOption.isSome = true := by decide +kernel
  have staked : stakedFrom (sampleMembers 0x10000) 9 = 20 := by decide +kernel
  have frozen : frozenOf ((sampleElection 4).toOption.get ran).frozen 9 = 8 := by decide +kernel +revert
  have credited : creditOf ((sampleElection 4).toOption.get ran).credits (9 : Uint 256) = 0 := by
    decide +kernel +revert
  refine ⟨_, eq_ok_get ran, by decide +kernel +revert, staked, frozen, credited, fun none => ?_⟩
  have kept := none 9
  rw [staked, frozen, credited] at kept
  cases kept

/-- With a `max_stake` of 10 both stakes are kept. -/
theorem stakes_at_limit_kept :
    ∃ r, sampleElection 10 = .ok r ∧ LosesNoStake Dict.empty (sampleMembers 0x10000) r := by
  have ran : (sampleElection 10).toOption.isSome = true := by decide +kernel
  refine ⟨_, eq_ok_get ran, (loses_no_stake_iff _ _ _ _ _ _ _ _ (eq_ok_get ran) (by decide +kernel +revert)).mpr ?_⟩
  intro k mem found
  rcases sampleMembers_get? found with rfl | rfl <;> decide

end TonStaking.Guarantees.ElectionRefunds
