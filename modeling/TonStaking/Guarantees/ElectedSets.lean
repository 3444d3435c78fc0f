import Mathlib.Algebra.BigOperators.Ring.Finset
import TonStaking.Guarantees.ValidatorGroups
import TonStaking.Source.Elector.Loops
import TonStaking.Tvm.HashmapList

/-!
# Elected validator sets are usable

The validator set that the elector builds should pass the check of the configuration
contract and be accepted by the nodes. The declared total weight is always the sum, and the indices
are complete. A weight is zero, however, if the counted stake of a member is a tiny part of the total,
which a factor below one allows, and the number of main validators is zero if the parameter is.
-/
namespace TonStaking.Guarantees.ElectedSets

open Tvm Tvm.Hashmap TonStaking.Source.Elector TonStaking.Source.Validators TonStaking.Guarantees.ValidatorGroups

/-- The members in the order of `try_elect`. -/
def candidates (members : Dict 256 Member) (maxStake : Grams) (maxStakeFactor : Uint 32) : List Candidate :=
  match sortMembers members maxStakeFactor with
  | .ok (sdict, _) => listStakes sdict maxStake
  | .error _ => []

/-- The stake of the last one of the first `cnt` members. -/
def smallestStake (l : List Candidate) (cnt : Nat) : Int := ((l.drop (cnt - 1)).head?.map Candidate.stake).getD 0

/-- The stakes of the elected members as far as they count. -/
def countedStakes (l : List Candidate) (cnt : Nat) : List Int :=
  (l.take cnt).map fun c => trueStake c (smallestStake l cnt)

/-- `max_main_validators` of parameter 16. -/
def mainValidators (env : Env) : Outcome (Uint 16) := do
  let cs ← env.param 16
  let cs ← skipBits 16 cs
  let (main, _) ← loadUint 16 cs
  .ok main

/-- What the nodes and the configuration contract ask of a validator set. -/
structure Usable (cnt : Nat) (vset : Cell) : Prop where
  checked : ∃ times, checkValidatorSet vset = .ok times
  accepted : ∃ set, unpackValidatorSet (some vset) = .ok set ∧ set.total = cnt ∧ set.list.length = cnt ∧
    (∀ v ∈ set.list, v.weight.val ≠ 0) ∧ set.totalWeight = (set.list.map fun v => v.weight.val).sum ∧
    1 ≤ set.main ∧ set.main ≤ set.total

/-- No elected member counts for less than the unit of the weights. -/
def Weighty (l : List Candidate) (cnt : Nat) (totalStakes : Int) : Prop :=
  ∀ share ∈ countedStakes l cnt, totalStakes ≤ share * 2 ^ 60

/-- The descriptions of the elected candidates, with their weights. -/
def infos (chosen : List (Candidate × Uint 64)) : List Slice := chosen.map fun x => validatorInfo x.1 x.2

/-- The candidates have stakes and factors that are not negative, in decreasing order of the stakes. -/
structure Ranked (l : List Candidate) : Prop where
  stake : ∀ c ∈ l, 0 ≤ c.stake
  factor : ∀ c ∈ l, 0 ≤ c.maxF ∧ c.maxF < 2 ^ 32
  order : l.Pairwise fun a b => b.stake ≤ a.stake

theorem listStakes_ranked (sdict : Dict 416 SortValue) (maxStake : Grams) : Ranked (listStakes sdict maxStake) := by
  rw [listStakes_eq]
  refine ⟨?_, ?_, ?_⟩
  · intro c member
    obtain ⟨e, -, rfl⟩ := List.mem_map.mp (List.mem_reverse.mp member)
    rw [candidateOf_stake]
    omega
  · intro c member
    obtain ⟨e, -, rfl⟩ := List.mem_map.mp (List.mem_reverse.mp member)
    show 0 ≤ (e.2.maxF.val : Int) ∧ (e.2.maxF.val : Int) < 2 ^ 32
    omega
  · rw [List.pairwise_reverse, List.pairwise_map]
    refine sdict.sorted.imp ?_
    intro a b less
    rw [candidateOf_stake, candidateOf_stake]
    omega

section Electing

variable {members : Dict 256 Member} {m : Nat} {mStake bestStake : Int}
variable {l : List Candidate} {chosen : List (Candidate × Uint 64)} {e after : Elected} {env : Env}
  {credits : Dict 256 Grams} {minStake maxStake minTotalStake : Grams} {maxStakeFactor : Uint 32} {r : ElectionResult}

/-- What the last loop has done with the candidates `l`; `chosen` are the elected ones with their weights. -/
structure Built (m : Nat) (mStake bestStake : Int) (l : List Candidate) (chosen : List (Candidate × Uint 64))
    (e : Elected) : Prop where
  members : chosen.map Prod.fst = l.take m
  weights : ∀ x ∈ chosen, (x.2 : Int) = (trueStake x.1 mStake * 2 ^ 60).fdiv bestStake
  stake : e.totStake = ((l.take m).map (trueStake · mStake)).sum
  weight : e.totWeight = (chosen.map fun x => (x.2 : Int)).sum
  dict : HoldsList 16 e.vset (infos chosen)

section

variable (built : Built m mStake bestStake l chosen e)
include built

theorem Built.length : chosen.length = min m l.length := by
  rw [← List.length_take, ← built.members, List.length_map]

theorem electOne_built {c : Candidate}
    (h : electOne members m mStake bestStake l.length e c = .ok after) :
    ∃ chosen', Built m mStake bestStake (l ++ [c]) chosen' after := by
  obtain ⟨mem, -, h⟩ := of_bind h
  split at h
  · next inside =>
    obtain ⟨weight, divided, h⟩ := of_bind h
    obtain ⟨packed, stored, h⟩ := of_bind h
    obtain ⟨vset, set, h⟩ := of_bind h
    obtain ⟨stake, -, h⟩ := of_bind h
    obtain ⟨credits, -, h⟩ := of_bind h
    cases h
    have value := (divInt_success divided).2
    have word := storeUint_success stored
    have all : l.take m = l := List.take_of_length_le (by omega)
    have more : (l ++ [c]).take m = l ++ [c] := List.take_of_length_le (by simp; omega)
    have count : chosen.length = l.length := by rw [built.length]; omega
    refine ⟨chosen ++ [(c, packed)], ⟨?_, ?_, ?_, ?_, ?_⟩⟩
    · rw [List.map_append, built.members, all, more]
      rfl
    · intro x member
      rcases List.mem_append.mp member with old | new
      · exact built.weights x old
      · obtain rfl := List.mem_singleton.mp new
        exact word.trans value
    · show e.totStake + _ = _
      rw [built.stake, all, more]
      simp
    · show e.totWeight + weight = _
      rw [built.weight]
      simp [word]
    · rw [infos, List.map_append]
      refine built.dict.append ?_
      rw [infos, List.length_map, count]
      exact set
  · next outside =>
    obtain ⟨credits, -, h⟩ := of_bind h
    cases h
    have same : (l ++ [c]).take m = l.take m := by
      rw [List.take_append_of_le_length (by omega)]
    exact ⟨chosen, by rw [same]; exact built.members, built.weights, by rw [same]; exact built.stake, built.weight,
      built.dict⟩

theorem electAll_built {rest : List Candidate}
    (h : electAll members m mStake bestStake l.length e rest = .ok after) :
    ∃ chosen', Built m mStake bestStake (l ++ rest) chosen' after := by
  induction rest generalizing l chosen e with
  | nil =>
    cases h
    rw [List.append_nil]
    exact ⟨chosen, built⟩
  | cons c rest ih =>
    obtain ⟨next, one, h⟩ := of_bind h
    obtain ⟨more, built⟩ := electOne_built built one
    rw [← List.length_singleton (a := c), ← List.length_append] at h
    obtain ⟨all, built⟩ := ih built h
    rw [List.append_assoc, List.singleton_append] at built
    exact ⟨all, built⟩

end

/-- What a successful election consists of. -/
structure Electing (l : List Candidate) (r : ElectionResult) (chosen : List (Candidate × Uint 64)) : Prop where
  ranked : Ranked l
  count : r.cnt < 2 ^ 16
  positive : 0 < r.totalStakes
  complete : chosen.length = r.cnt
  places : chosen.map Prod.fst = l.take r.cnt
  weights : ∀ x ∈ chosen, (x.2 : Int) = (trueStake x.1 (smallestStake l r.cnt) * 2 ^ 60).fdiv r.totalStakes
  stakes : r.totalStakes = (countedStakes l r.cnt).sum
  weight : r.totalWeight = (chosen.map fun x => (x.2 : Int)).sum
  dict : HoldsList 16 r.vdict (infos chosen)

section

variable (h : tryElect env credits members minStake maxStake minTotalStake maxStakeFactor = .ok r)
include h

theorem tryElect_outcome
    (nonempty : r.cnt ≠ 0) :
    ∃ chosen, Electing (candidates members maxStake maxStakeFactor) r chosen := by
  rcases tryElect_run h with rfl | ⟨sdict, last, e, elections⟩
  · exact absurd rfl nonempty
  obtain ⟨n, sorted⟩ := elections.sorted
  have list : candidates members maxStake maxStakeFactor = listStakes sdict maxStake := by
    unfold candidates
    rw [sorted]
  have long : r.cnt ≤ (listStakes sdict maxStake).length := by
    by_contra short
    have head := elections.place
    rw [List.drop_eq_nil_of_le (by omega)] at head
    cases head
  have smallest : smallestStake (listStakes sdict maxStake) r.cnt = last.stake := by
    rw [smallestStake, elections.place]
    rfl
  have start : Built r.cnt last.stake e.totStake [] []
      { credits, vset := none, totWeight := 0, frozen := Dict.empty, totStake := 0 } :=
    ⟨by simp, by simp, by simp, by simp, holdsList_empty 16⟩
  obtain ⟨chosen, built⟩ := electAll_built start elections.elected
  rw [List.nil_append] at built
  have stakes : r.totalStakes = e.totStake := by rw [elections.result]
  have weight : r.totalWeight = e.totWeight := by rw [elections.result]
  have dict : r.vdict = e.vset := by rw [elections.result]
  rw [list]
  refine ⟨chosen, ⟨listStakes_ranked sdict maxStake, elections.count.2, stakes ▸ elections.positive, ?_, built.members, ?_,
    ?_, weight ▸ built.weight, dict ▸ built.dict⟩⟩
  · rw [built.length]
    omega
  · rw [smallest, stakes]
    exact built.weights
  · rw [countedStakes, smallest, stakes]
    exact built.stake

theorem tryElect_mainValidators : ∃ main, mainValidators env = .ok main := by
  obtain ⟨cs, read, h⟩ := of_bind h
  obtain ⟨⟨maxValidators, cs1⟩, first, h⟩ := of_bind h
  obtain ⟨⟨main, cs2⟩, second, -⟩ := of_bind h
  have front : skipBits 16 cs = .ok cs1 := by
    rw [loadUint_eq first, skipBits_append (Uint.bits_length _)]
  refine ⟨main, ?_⟩
  unfold mainValidators
  rw [read, ok_bind, front, ok_bind, second]
  rfl

end

/-- The weights add up to one unit at most. -/
theorem sum_fdiv_le {total : Int} (positive : 0 < total) (shares : List Int) :
    (shares.map fun share => (share * 2 ^ 60).fdiv total).sum * total ≤ shares.sum * 2 ^ 60 := by
  induction shares with
  | nil => simp
  | cons share shares ih =>
    have one : (share * 2 ^ 60).fdiv total * total ≤ share * 2 ^ 60 := by
      rw [Int.fdiv_eq_ediv_of_nonneg _ positive.le]
      exact Int.ediv_mul_le _ positive.ne'
    rw [List.map_cons, List.sum_cons, List.sum_cons, add_mul, add_mul]
    exact add_le_add one ih

theorem Electing.totalWeight_le (electing : Electing l r chosen) : r.totalWeight ≤ 2 ^ 60 := by
  have positive := electing.positive
  have bound := sum_fdiv_le positive (countedStakes l r.cnt)
  have weights : r.totalWeight =
      ((countedStakes l r.cnt).map fun share => (share * 2 ^ 60).fdiv r.totalStakes).sum := by
    rw [electing.weight, countedStakes, ← electing.places, List.map_map, List.map_map]
    congr 1
    exact List.map_congr_left electing.weights
  rw [← electing.stakes, ← weights, Int.mul_comm r.totalStakes] at bound
  exact le_of_mul_le_mul_right bound positive

/-- A weight is zero exactly if the share is less than a unit of the total. -/
theorem Electing.weights_iff (electing : Electing l r chosen) :
    (∀ x ∈ chosen, x.2.val ≠ 0) ↔ Weighty l r.cnt r.totalStakes := by
  have positive := electing.positive
  unfold Weighty countedStakes
  rw [← electing.places]
  simp only [List.forall_mem_map]
  refine forall₂_congr fun x member => ?_
  have weight := electing.weights x member
  rw [Int.fdiv_eq_ediv_of_nonneg _ positive.le] at weight
  have unit := Int.le_ediv_iff_mul_le (a := 1) (b := trueStake x.1 (smallestStake l r.cnt) * 2 ^ 60) positive
  omega

section Ranked

variable {cnt : Nat} (ranked : Ranked l)
include ranked

theorem smallest_nonneg : 0 ≤ smallestStake l cnt := by
  unfold smallestStake
  cases head : (l.drop (cnt - 1)).head? with
  | none => exact le_rfl
  | some c => exact ranked.stake c (List.mem_of_mem_drop (List.mem_of_mem_head? head))

theorem smallest_le (positive : 0 < cnt) (long : cnt ≤ l.length) : ∀ c ∈ l.take cnt, smallestStake l cnt ≤ c.stake := by
  have inside : cnt - 1 < l.length := by omega
  have smallest : smallestStake l cnt = (l.get ⟨cnt - 1, inside⟩).stake := by
    rw [smallestStake, List.head?_drop, List.getElem?_eq_getElem inside]
    rfl
  intro c member
  obtain ⟨i, place, rfl⟩ := List.mem_iff_getElem.mp member
  rw [List.length_take] at place
  rw [List.getElem_take, smallest]
  rcases Nat.lt_or_ge i (cnt - 1) with before | last
  · exact List.pairwise_iff_getElem.mp ranked.order i (cnt - 1) (by omega) inside before
  have same : i = cnt - 1 := by omega
  subst same
  exact le_rfl

omit ranked in
/-- Shares that differ by a factor of `2 ^ 16` at most have positive weights. -/
theorem weighty_of_within {least : Int} (few : cnt < 2 ^ 16) (nonneg : 0 ≤ least)
    (within : ∀ share ∈ countedStakes l cnt, least ≤ share ∧ share ≤ 2 ^ 16 * least) :
    Weighty l cnt (countedStakes l cnt).sum := by
  have sum : (countedStakes l cnt).sum ≤ (countedStakes l cnt).length • (2 ^ 16 * least) :=
    List.sum_le_card_nsmul _ _ fun share member => (within share member).2
  have size : (countedStakes l cnt).length ≤ cnt := by
    rw [countedStakes, List.length_map, List.length_take]
    exact Nat.min_le_left _ _
  rw [nsmul_eq_mul] at sum
  intro share member
  have lower := (within share member).1
  have many : ((countedStakes l cnt).length : Int) * (2 ^ 16 * least) ≤ 2 ^ 16 * (2 ^ 16 * least) :=
    mul_le_mul_of_nonneg_right (by exact_mod_cast size.trans few.le) (by omega)
  omega

/-- With factors of at least one every weight is positive, whatever the limit on the factors. -/
theorem weighty_of_factors (few : cnt < 2 ^ 16) (positive : 0 < cnt) (long : cnt ≤ l.length) (limit : Nat)
    (factors : ∀ c ∈ l.take cnt, ∃ own : Uint 32, 2 ^ 16 ≤ own.val ∧ c.maxF = min (own.val : Int) limit) :
    Weighty l cnt (countedStakes l cnt).sum := by
  have least := smallest_le ranked positive long
  have low : 0 ≤ smallestStake l cnt := smallest_nonneg ranked
  by_cases limited : 2 ^ 16 ≤ limit
  · -- every counted stake lies between the smallest one and its multiple by the largest factor
    refine weighty_of_within few low fun share member => ?_
    obtain ⟨c, taken, rfl⟩ := List.mem_map.mp member
    obtain ⟨own, one, factor⟩ := factors c taken
    have stake := least c taken
    have lower : 2 ^ 16 * smallestStake l cnt ≤ c.maxF * smallestStake l cnt :=
      mul_le_mul_of_nonneg_right (by omega) low
    have upper : c.maxF * smallestStake l cnt ≤ 2 ^ 32 * smallestStake l cnt :=
      mul_le_mul_of_nonneg_right (by omega) low
    unfold trueStake
    omega
  · -- a limit below one is the factor of all members, and all counted stakes are equal
    have product : 0 ≤ (limit : Int) * smallestStake l cnt := mul_nonneg (Int.natCast_nonneg _) low
    refine weighty_of_within few (Int.ediv_nonneg product (by decide : (0 : Int) ≤ 2 ^ 16)) fun share member => ?_
    obtain ⟨c, taken, rfl⟩ := List.mem_map.mp member
    obtain ⟨own, one, factor⟩ := factors c taken
    have stake := least c taken
    have same : c.maxF = limit := by omega
    have part : (limit : Int) * smallestStake l cnt ≤ 2 ^ 16 * smallestStake l cnt :=
      mul_le_mul_of_nonneg_right (by omega) low
    unfold trueStake
    rw [same]
    omega

end Ranked

theorem candidates_factor {c : Candidate} (member : c ∈ candidates members maxStake maxStakeFactor) :
    ∃ key mem, members.get? key = some mem ∧ c.maxF = min (mem.maxFactor.val : Int) maxStakeFactor.val := by
  unfold candidates at member
  cases sorted : sortMembers members maxStakeFactor with
  | error e =>
    rw [sorted] at member
    cases member
  | ok out =>
    rw [sorted] at member
    obtain ⟨e, there, rfl⟩ := List.mem_map.mp ((listStakes_perm sorted).mem_iff.mp member)
    refine ⟨e.1, e.2, (members.get?_eq_some_iff e.1 e.2).mpr there, ?_⟩
    show (((sortEntry maxStakeFactor e).2.maxF : Nat) : Int) = _
    unfold sortEntry
    dsimp only
    split
    · next below =>
      have order : e.2.maxFactor.val ≤ maxStakeFactor.val := below
      omega
    · next above =>
      have order : ¬ e.2.maxFactor.val ≤ maxStakeFactor.val := above
      omega

theorem Electing.weighty (electing : Electing (candidates members maxStake maxStakeFactor) r chosen) (nonempty : r.cnt ≠ 0)
    (factors : ∀ key mem, members.get? key = some mem → 2 ^ 16 ≤ mem.maxFactor.val) :
    Weighty (candidates members maxStake maxStakeFactor) r.cnt r.totalStakes := by
  have size := congrArg List.length electing.places
  rw [List.length_map, electing.complete, List.length_take] at size
  rw [electing.stakes]
  refine weighty_of_factors electing.ranked electing.count (Nat.pos_of_ne_zero nonempty) (by omega) maxStakeFactor
    fun c taken => ?_
  obtain ⟨key, mem, found, factor⟩ := candidates_factor (List.mem_of_mem_take taken)
  exact ⟨mem.maxFactor, factors key mem found, factor⟩

end Electing

/-- The public key as it stands in a description. -/
def keyBits (c : Candidate) : List Bool := bitsOf 32 0x8e81278a ++ Uint.bits c.pubkey

/-- A description from its tag on. -/
def descr (tag : Nat) (c : Candidate) (weight : Uint 64) (rest : List Bool) : Slice :=
  ⟨bitsOf 8 tag ++ bitsOf 32 0x8e81278a ++ Uint.bits c.pubkey ++ Uint.bits weight ++ rest, []⟩

theorem fetchDescr_head {tag found : Nat} (small : found < 2 ^ 8) (c : Candidate) (weight : Uint 64) (rest : List Bool) :
    fetchDescr tag (descr found c weight rest) = if found = tag then .ok ((keyBits c, weight), ⟨rest, []⟩) else .error (.code 0) := by
  have head : bitsOf 8 found = Uint.bits (⟨found, small⟩ : Uint 8) := rfl
  have width : (keyBits c).length = 288 := by simp [keyBits]
  have body : descr found c weight rest =
      ⟨Uint.bits (⟨found, small⟩ : Uint 8) ++ (keyBits c ++ (Uint.bits weight ++ rest)), []⟩ := by
    rw [descr, head]
    simp [keyBits]
  unfold fetchDescr
  rw [body, loadUint_bits, ok_bind]
  by_cases same : found = tag
  · have passed : throwUnless 0 (found = tag) = .ok () := throwUnless_success.mpr same
    rw [if_pos same]
    show (throwUnless 0 (found = tag) >>= _) = _
    rw [passed, ok_bind]
    have enough : 288 ≤ (keyBits c ++ (Uint.bits weight ++ rest)).length := by simp [width]
    have taken : loadBits 288 ⟨keyBits c ++ (Uint.bits weight ++ rest), []⟩ = .ok (keyBits c, ⟨Uint.bits weight ++ rest, []⟩) := by
      unfold loadBits preloadBits
      rw [if_pos enough, ok_bind, skipBits_append width, ok_bind, List.take_left' width]
    rw [taken, ok_bind]
    simp
  · rw [if_neg same]
    show (throwUnless 0 (found = tag) >>= _) = _
    unfold throwUnless
    rw [if_neg same]
    rfl

theorem readDescr_info (i : Nat) (c : Candidate) (weight : Uint 64) :
    readDescr i (validatorInfo c weight) = .ok (keyBits c, weight, c.adnlAddr) := by
  unfold readDescr validatorInfo
  by_cases address : c.adnlAddr.val = 0
  · have zero : c.adnlAddr = 0 := Fin.ext address
    have first : unpackValidatorAddr (descr 0x53 c weight []) = .error (.code 0) := by
      unfold unpackValidatorAddr
      rw [fetchDescr_head (by decide)]
      rfl
    have second : unpackValidator (descr 0x53 c weight []) = .ok (keyBits c, weight, 0) := by
      unfold unpackValidator
      rw [fetchDescr_head (by decide)]
      rfl
    have none : ¬ c.adnlAddr.val ≠ 0 := not_not.mpr address
    rw [if_neg none, if_neg none, ← descr, first]
    rw [second, zero]
    rfl
  · have first : unpackValidatorAddr (descr 0x73 c weight (Uint.bits c.adnlAddr)) =
        .ok (keyBits c, weight, c.adnlAddr) := by
      unfold unpackValidatorAddr
      rw [fetchDescr_head (by decide), if_pos rfl, ok_bind]
      simp only [loadUint_last]
      rfl
    rw [if_pos address, if_pos address, ← descr, first]

theorem unpackSigPubKey_keyBits (c : Candidate) : unpackSigPubKey (keyBits c) = .ok c.pubkey := by
  have head : bitsOf 32 0x8e81278a = Uint.bits (⟨0x8e81278a, by decide⟩ : Uint 32) := rfl
  unfold unpackSigPubKey keyBits
  rw [head, loadUint_bits, ok_bind]
  simp only [loadUint_last]
  rfl

/-- One round of the reader on an elected member. -/
theorem addValidator_info {dict : Cell} {i : Nat} {c : Candidate} {weight : Uint 64} (ptr : ValidatorSet)
    (found : dictLookup 17 dict (bitsOf 16 i) = .ok (some (validatorInfo c weight)))
    (room : ptr.totalWeight + weight.val < 2 ^ 64) :
    addValidator dict i ptr =
      if weight.val = 0 then .error (.status s!"validator #{i} has zero weight")
      else .ok { ptr with
        list := ptr.list ++ [{ pubkey := c.pubkey, adnlAddr := c.adnlAddr, weight, cumWeight := ptr.totalWeight }]
        totalWeight := ptr.totalWeight + weight } := by
  have fits : ¬ 2 ^ 64 - 1 - ptr.totalWeight < weight.val := by omega
  unfold addValidator
  simp only [found, orVmError, ok_bind, readDescr_info, unpackSigPubKey_keyBits, orStatus]
  rw [if_neg fits, Nat.mod_eq_of_lt room]

/-- The reader accepts the elected members exactly if no weight is zero. -/
theorem addValidators_info {dict : Cell} {rest : List (Candidate × Uint 64)} {i : Nat} (ptr : ValidatorSet)
    (found : ∀ j x, rest[j]? = some x → dictLookup 17 dict (bitsOf 16 (i + j)) = .ok (some (validatorInfo x.1 x.2)))
    (room : ptr.totalWeight + (rest.map fun x => x.2.val).sum < 2 ^ 64) :
    ((∃ after, addValidators dict rest.length i ptr = .ok after) ↔ ∀ x ∈ rest, x.2.val ≠ 0) ∧
      ∀ after, addValidators dict rest.length i ptr = .ok after →
        after.totalWeight = ptr.totalWeight + (rest.map fun x => x.2.val).sum := by
  induction rest generalizing i ptr with
  | nil =>
    refine ⟨by simp [addValidators], ?_⟩
    rintro after ⟨⟩
    rfl
  | cons x rest ih =>
    rw [List.map_cons, List.sum_cons] at room ⊢
    rw [List.forall_mem_cons]
    have first := addValidator_info ptr (found 0 x rfl) (by omega)
    rw [Nat.add_zero] at first
    have later : ∀ j y, rest[j]? = some y → dictLookup 17 dict (bitsOf 16 (i + 1 + j)) = .ok (some (validatorInfo y.1 y.2)) := by
      intro j y there
      rw [Nat.add_right_comm]
      exact found (j + 1) y there
    rw [List.length_cons, addValidators, first]
    by_cases zero : x.2.val = 0
    · simp [zero]
    · rw [if_neg zero]
      obtain ⟨accepts, total⟩ := ih { ptr with
        list := ptr.list ++ [{ pubkey := x.1.pubkey, adnlAddr := x.1.adnlAddr, weight := x.2, cumWeight := ptr.totalWeight }]
        totalWeight := ptr.totalWeight + x.2 } later (by dsimp only; omega)
      exact ⟨accepts.trans (and_iff_right zero).symm, fun after done => (total after done).trans (Nat.add_assoc ..)⟩

section Packed

variable {start stop : Uint 32} {cnt main : Uint 16} {weight : Uint 64}

/-- The cell of a validator set. -/
def packed (start stop : Uint 32) (cnt main : Uint 16) (weight : Uint 64) (dict : Cell) : Cell :=
  .mk (bitsOf 8 0x12 ++ Uint.bits start ++ Uint.bits stop ++ Uint.bits cnt ++ Uint.bits main ++ Uint.bits weight ++
    [true]) [dict]

theorem packed_bits (dict : Cell) : (packed start stop cnt main weight dict).beginParse =
    ⟨Uint.bits (⟨0x12, by decide⟩ : Uint 8) ++ (Uint.bits start ++ (Uint.bits stop ++ (Uint.bits cnt ++
      (Uint.bits main ++ (Uint.bits weight ++ [true]))))), [dict]⟩ := by
  have tag : bitsOf 8 0x12 = Uint.bits (⟨0x12, by decide⟩ : Uint 8) := rfl
  simp [packed, Cell.beginParse, Cell.bits, Cell.refs, tag]

theorem checkValidatorSet_packed (dict : Cell) :
    (∃ times, checkValidatorSet (packed start stop cnt main weight dict) = .ok times) ↔ 0 < main.val ∧ main ≤ cnt := by
  unfold checkValidatorSet
  simp only [packed_bits, loadUint_bits, ok_bind, throwUnless, if_true]
  by_cases positive : 0 < main.val
  · by_cases order : main ≤ cnt
    · simp [positive, order]
    · simp [positive, order]
  · simp [positive]

theorem unpackValidatorSet_packed (dict : Cell) (order : main ≤ cnt) (positive : 0 < main.val) :
    unpackValidatorSet (some (packed start stop cnt main weight dict)) =
      if weight.val = 0 then .error (.status "validator set cannot have zero total weight")
      else unpackRecord ⟨start, stop, cnt, main, weight.val, some dict⟩ := by
  have read : unpackExt (packed start stop cnt main weight dict) =
      .ok ⟨start, stop, cnt, main, weight.val, some dict⟩ := by
    have one : 1 ≤ main.val := positive
    unfold unpackExt fetchHeader
    simp only [packed_bits, loadUint_bits, ok_bind, throwUnless, if_true, order, one, loadDict, endParse, Slice.isEmpty,
      List.isEmpty_nil, Bool.and_self]
  simp only [unpackValidatorSet, read]

variable {l : List Candidate} {r : ElectionResult} {chosen : List (Candidate × Uint 64)} {dict : Cell}

theorem laidEnd_eq_sum (c : Nat) (vs : List ValidatorDescr) : laidEnd c vs = c + (vs.map fun v => v.weight.val).sum := by
  induction vs generalizing c with
  | nil => rfl
  | cons v vs ih =>
    rw [laidEnd, ih, List.map_cons, List.sum_cons]
    omega

/-- The reader accepts the elected set exactly if no weight is zero. -/
theorem unpackRecord_packed (complete : chosen.length = cnt.val) (nonempty : cnt.val ≠ 0)
    (sum : weight.val = (chosen.map fun x => x.2.val).sum)
    (holds : HoldsList 16 (some dict) (infos chosen)) :
    (∃ set, unpackRecord ⟨start, stop, cnt, main, weight.val, some dict⟩ = .ok set) ↔ ∀ x ∈ chosen, x.2.val ≠ 0 := by
  have size : (infos chosen).length = cnt.val := by rw [infos, List.length_map, complete]
  obtain ⟨cell, same, lookups, k, v, last, place⟩ :=
    holds.exists_root (List.ne_nil_of_length_pos (by omega)) (by rw [size]; omega)
  cases same
  rw [size] at place
  have found : ∀ j x, chosen[j]? = some x →
      dictLookup 17 dict (bitsOf 16 (0 + j)) = .ok (some (validatorInfo x.1 x.2)) := by
    intro j x there
    have inside := (List.getElem?_eq_some_iff.mp there).1
    rw [Nat.zero_add, lookups j (by omega), infos, List.getElem?_map, there]
    rfl
  have room : (ValidatorSet.new start stop cnt main).totalWeight + (chosen.map fun x => x.2.val).sum < 2 ^ 64 := by
    show 0 + _ < _
    rw [Nat.zero_add, ← sum]
    exact weight.isLt
  obtain ⟨accepts, totals⟩ := addValidators_info (ValidatorSet.new start stop cnt main) found room
  rw [complete] at accepts totals
  rw [← accepts]
  unfold unpackRecord
  simp only [last, orVmError, ok_bind, place, ne_eq, not_true, if_false]
  constructor
  · rintro ⟨set, done⟩
    obtain ⟨ptr, loop, -⟩ := of_bind done
    exact ⟨ptr, loop⟩
  · rintro ⟨ptr, loop⟩
    refine ⟨ptr, ?_⟩
    have total : ptr.totalWeight = weight.val := by
      rw [totals ptr loop, sum]
      exact Nat.zero_add _
    rw [loop, ok_bind, if_neg (by rw [total]; exact fun both => both.2 rfl)]

/-- An elected set is usable exactly if it has main validators and no weight is zero. -/
theorem Electing.usable_iff (electing : Electing l r chosen) (nonempty : r.cnt ≠ 0)
    (start stop : Uint 32) (main : Uint 16) :
    ∃ vset, packValidatorSet start stop r.cnt (min (r.cnt : Int) main.val) r.totalWeight r.vdict = .ok vset ∧
      (Usable r.cnt vset ↔ main.val ≠ 0 ∧ Weighty l r.cnt r.totalStakes) := by
  have few := electing.count
  have complete := electing.complete
  have size : (infos chosen).length = r.cnt := by rw [infos, List.length_map, complete]
  obtain ⟨dict, root, -⟩ := electing.dict.exists_root (List.ne_nil_of_length_pos (by omega)) (by rw [size]; omega)
  obtain ⟨cnt, cntStored, cntValue⟩ := storeUint_of_fits (n := 16) (x := (r.cnt : Int)) (by omega) (by omega)
  obtain ⟨count, mainStored, mainValue⟩ :=
    storeUint_of_fits (n := 16) (x := min (r.cnt : Int) main.val) (by omega) (by omega)
  have sumNat : r.totalWeight = ((chosen.map fun x => x.2.val).sum : Nat) := by
    rw [electing.weight, Nat.cast_list_sum, List.map_map]
    rfl
  have top := electing.totalWeight_le
  obtain ⟨weight, weightStored, weightValue⟩ :=
    storeUint_of_fits (n := 64) (x := r.totalWeight) (by omega) (by omega)
  have cntNat : cnt.val = r.cnt := by omega
  have weightNat : weight.val = (chosen.map fun x => x.2.val).sum := by omega
  refine ⟨packed start stop cnt count weight dict, ?_, ?_⟩
  · unfold packValidatorSet
    rw [storeUint_val, ok_bind, storeUint_val, ok_bind, cntStored, ok_bind, mainStored, ok_bind, weightStored, ok_bind,
      root]
    rfl
  · have holds := electing.dict
    rw [root] at holds
    rw [← electing.weights_iff]
    have order : count ≤ cnt := by
      show count.val ≤ cnt.val
      omega
    rw [← cntNat] at complete
    constructor
    · rintro ⟨⟨times, checked⟩, set, accepted, -⟩
      have positive := ((checkValidatorSet_packed dict).mp ⟨times, checked⟩).1
      refine ⟨by omega, ?_⟩
      rw [unpackValidatorSet_packed dict order positive] at accepted
      split at accepted
      · cases accepted
      · exact (unpackRecord_packed complete (by omega) weightNat holds).mp ⟨set, accepted⟩
    · rintro ⟨present, weights⟩
      have positive : 0 < count.val := by omega
      refine ⟨(checkValidatorSet_packed dict).mpr ⟨positive, order⟩, ?_⟩
      obtain ⟨set, read⟩ : ∃ set, unpackRecord ⟨start, stop, cnt, count, weight.val, some dict⟩ = .ok set :=
        (unpackRecord_packed complete (by omega) weightNat holds).mpr weights
      obtain ⟨wf, total, main⟩ := unpackRecord_wellFormed read
      have sum : set.totalWeight = (set.list.map fun v => v.weight.val).sum := by
        rw [wf.sum, laidEnd_eq_sum, Nat.zero_add]
      have heavy : weight.val ≠ 0 := by
        obtain ⟨x, member⟩ := List.exists_mem_of_length_pos (l := chosen) (by omega)
        have part := List.single_le_sum (fun _ _ => Nat.zero_le _) _
          (List.mem_map_of_mem (f := fun x : Candidate × Uint 64 => x.2.val) member)
        have one := weights x member
        omega
      rw [if_pos positive] at main
      have totalNat : set.total = r.cnt := total.trans cntNat
      have mainNat : set.main = count.val := main
      refine ⟨set, ?_, totalNat, wf.count.trans totalNat, ?_, sum, by omega, ?_⟩
      · rw [unpackValidatorSet_packed dict order positive, if_neg heavy]
        exact read
      · intro v member
        exact (wf.laid.weight_pos v member).ne'
      · omega

end Packed

/-- A non-empty set that is elected from members with factors of at least one is usable, if the configuration
allows any main validators. -/
theorem elected_set_usable (env : Env) (credits : Dict 256 Grams) (members : Dict 256 Member)
    (minStake maxStake minTotalStake : Grams) (maxStakeFactor : Uint 32) (r : ElectionResult)
    (elected : tryElect env credits members minStake maxStake minTotalStake maxStakeFactor = .ok r)
    (nonempty : r.cnt ≠ 0) (present : ∀ main, mainValidators env = .ok main → main.val ≠ 0)
    (factors : ∀ key mem, members.get? key = some mem → 2 ^ 16 ≤ mem.maxFactor.val) (start stop : Uint 32) :
    ∃ main vset, mainValidators env = .ok main ∧
      packValidatorSet start stop r.cnt (min (r.cnt : Int) main.val) r.totalWeight r.vdict = .ok vset ∧
      Usable r.cnt vset := by
  obtain ⟨main, configured⟩ := tryElect_mainValidators elected
  obtain ⟨chosen, electing⟩ := tryElect_outcome elected nonempty
  obtain ⟨vset, built, usable⟩ := electing.usable_iff nonempty start stop main
  exact ⟨main, vset, configured, built, usable.mpr ⟨present main configured, electing.weighty nonempty factors⟩⟩

/-- Two validators at least, and at most `main` of them for the masterchain. -/
def sampleEnv (main : Nat) : Env where
  now := 1000
  config i := if i = 16 then some (.mk (bitsOf 16 2 ++ bitsOf 16 main ++ bitsOf 16 2) []) else none
  myAddress := accountAddress ⟨-1, master_fits⟩ 7

def sampleMember (factor : Uint 32) : Member := ⟨10, 100, factor, 9, 4⟩

/-- Two members with stakes of 10; the second one has the given factor. -/
def sampleMembers (factor : Uint 32) : Dict 256 Member :=
  (Dict.empty.set 1 (by decide) (sampleMember 0x10000)).set 2 (by decide) (sampleMember factor)

def sampleResult (main : Nat) (factor : Uint 32) : Option ElectionResult :=
  (tryElect (sampleEnv main) Dict.empty (sampleMembers factor) 1 1000 1 0x30000).toOption

/-- The cell of the sample elections. -/
def sampleCell (main : Nat) (factor : Uint 32) : Option Cell := do
  let r ← sampleResult main factor
  (packValidatorSet 1000 2000 r.cnt (min (r.cnt : Int) main) r.totalWeight r.vdict).toOption

/-- A member with a factor of almost zero gets no weight, and without main validators the check of the
configuration contract fails. -/
theorem elected_set_refused :
    ((sampleResult 2 1).map (·.cnt) = some 2 ∧
      ∀ vset ∈ sampleCell 2 1, unpackValidatorSet (some vset) = .error (.status "validator #0 has zero weight")) ∧
    ((sampleResult 0 0x10000).map (·.cnt) = some 2 ∧
      ∀ vset ∈ sampleCell 0 0x10000, checkValidatorSet vset = .error (.code 9)) := by
  decide +kernel

theorem sampleMembers_get? {factor : Uint 32} {key : Nat} {mem : Member}
    (found : (sampleMembers factor).get? key = some mem) : mem = sampleMember factor ∨ mem = sampleMember 0x10000 := by
  rw [sampleMembers, Dict.get?_set, Dict.get?_set] at found
  split at found
  · exact .inl (Option.some.inj found).symm
  split at found
  · exact .inr (Option.some.inj found).symm
  · cases found

/-- With a factor of one the set is usable. -/
theorem elected_set_usable_two :
    ∃ r main vset, tryElect (sampleEnv 2) Dict.empty (sampleMembers 0x10000) 1 1000 1 0x30000 = .ok r ∧
      mainValidators (sampleEnv 2) = .ok main ∧
      packValidatorSet (1000 : Uint 32) (2000 : Uint 32) r.cnt (min (r.cnt : Int) main.val) r.totalWeight r.vdict =
        .ok vset ∧ Usable r.cnt vset := by
  have ran : (sampleResult 2 0x10000).isSome = true := by decide +kernel
  have nonempty : ((sampleResult 2 0x10000).get ran).cnt ≠ 0 := by decide +kernel +revert
  have present : ∀ main, mainValidators (sampleEnv 2) = .ok main → main.val ≠ 0 := by
    intro main same
    cases same
    decide
  have factors : ∀ key mem, (sampleMembers 0x10000).get? key = some mem → 2 ^ 16 ≤ mem.maxFactor.val := by
    intro key mem found
    rcases sampleMembers_get? found with rfl | rfl <;> decide
  obtain ⟨main, vset, configured, built, usable⟩ := elected_set_usable (sampleEnv 2) Dict.empty (sampleMembers 0x10000)
    1 1000 1 0x30000 _ (eq_ok_get ran) nonempty present factors 1000 2000
  exact ⟨_, main, vset, eq_ok_get ran, configured, built, usable⟩

end TonStaking.Guarantees.ElectedSets
