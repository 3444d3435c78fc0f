import TonStaking.Source.Elector.Messages
import TonStaking.Tvm.Hashmap

/-!
# Elector: elections

`crypto/smartcont/elector-code.fc` 408-587. `try_elect` sorts the members by
stake, time and key in a dictionary, chooses the number of validators that
freezes the largest total stake, freezes the stake of the chosen members up to
a multiple of the smallest one and credits the rest. What exceeds `max_stake`
is neither frozen nor credited.
-/
namespace TonStaking.Source.Elector
open Tvm

/-- Value of a member in the dictionary that sorts the members. -/
structure SortValue where
  maxF : Uint 32
  addr : Uint 256
  adnlAddr : Uint 256

/-- A member in the list of all stakes: `[stake, max_f, pubkey, adnl_addr]`. -/
structure Candidate where
  stake : Int
  maxF : Int
  pubkey : Uint 256
  adnlAddr : Uint 256

/-- The key `store_uint(stake, 128).store_int(- time, 32).store_uint(pubkey, 256)` as a number. -/
def sortKey (stake : Grams) (negTime : Int) (pubkey : Nat) : Nat :=
  (stake.val * 2 ^ 32 + (negTime % 2 ^ 32).toNat) * 2 ^ 256 + pubkey

/-- The first loop of `try_elect`: the sorted dictionary and the number of members. -/
def sortMembers (members : Dict 256 Member) (maxStakeFactor : Uint 32) :
    Outcome (Dict 416 SortValue × Nat) :=
  members.forEach (fun (sdict, n) pubkey mem => do
    let negTime ← storeInt 32 (-(mem.time : Int))
    let sdict ← sdict.udictSet (sortKey mem.stake negTime.val pubkey)
      { maxF := if mem.maxFactor ≤ maxStakeFactor then mem.maxFactor else maxStakeFactor
        addr := mem.srcAddr, adnlAddr := mem.adnlAddr }
    .ok (sdict, n + 1)) (Dict.empty, 0)

def candidateOf (maxStake : Grams) (e : Nat × SortValue) : Candidate where
  stake := min ((e.1 / 2 ^ 256 / 2 ^ 32 : Nat) : Int) maxStake
  maxF := e.2.maxF
  pubkey := ⟨e.1 % 2 ^ 256, Nat.mod_lt _ (Nat.two_pow_pos 256)⟩
  adnlAddr := e.2.adnlAddr

/-- The second loop: the smallest key is taken out until the dictionary is empty, and each
member is put in front of the list. -/
def listStakes (sdict : Dict 416 SortValue) (maxStake : Grams) : List Candidate :=
  sdict.entries.foldl (fun l e => candidateOf maxStake e :: l) []

/-- `min(stake, (max_f * m_stake) >> 16)`. -/
def trueStake (c : Candidate) (mStake : Int) : Int := min c.stake (c.maxF * mStake / 2 ^ 16)

/-- `computes the total stake out of the first n entries of list l`. -/
def computeTotalStake : List Candidate → Nat → Int → Outcome Int
  | _, 0, _ => .ok 0
  | [], _ + 1, _ => .error .typeChk
  | c :: l, n + 1, mStake => do
    let rest ← computeTotalStake l n mStake
    .ok (trueStake c mStake + rest)

/-- The total stake with the first `i` members, if it is the best one so far. -/
def improve (l : List Candidate) (minStake : Grams) (c : Candidate) (i : Nat) (bestStake : Int) (m : Nat) :
    Outcome (Int × Nat) :=
  if minStake ≤ c.stake then do
    let totStake ← computeTotalStake l i c.stake
    .ok (if bestStake < totStake then (totStake, i) else (bestStake, m))
  else .ok (bestStake, m)

/-- The third loop: the best total stake and the number of validators that reaches it. -/
def chooseSize (l : List Candidate) (minStake : Grams) (n : Nat) :
    List Candidate → Nat → Int → Nat → Outcome (Int × Nat)
  | [], _, _, _ => .error .typeChk
  | c :: l1, i, bestStake, m => do
    let (bestStake, m) ← improve l minStake c (i + 1) bestStake m
    if n ≤ i + 1 then .ok (bestStake, m) else chooseSize l minStake n l1 (i + 1) bestStake m

/-- Variables of the last loop. -/
structure Elected where
  credits : Dict 256 Grams
  vset : Option Cell
  totWeight : Int
  frozen : Dict 256 Frozen
  totStake : Int

/-- `validator_addr#73` or `validator#53`. -/
def validatorInfo (c : Candidate) (weight : Uint 64) : Slice :=
  ⟨bitsOf 8 (if c.adnlAddr.val ≠ 0 then 0x73 else 0x53) ++ bitsOf 32 0x8e81278a ++ Uint.bits c.pubkey ++
    Uint.bits weight ++ (if c.adnlAddr.val ≠ 0 then Uint.bits c.adnlAddr else []), []⟩

/-- `non-zero unused part of the stake, credit to the source address`. -/
def creditRest (credits : Dict 256 Grams) (srcAddr : Uint 256) (stake : Int) : Outcome (Dict 256 Grams) :=
  if stake ≠ 0 then creditTo credits srcAddr stake else .ok credits

def electOne (members : Dict 256 Member) (m : Nat) (mStake bestStake : Int) (i : Nat) (e : Elected)
    (c : Candidate) : Outcome Elected := do
  let mem ← orThrow 61 (members.get? c.pubkey)
  if i < m then do
    let share := trueStake c mStake
    let weight ← divInt (share * 2 ^ 60) bestStake
    let packed ← storeUint 64 weight
    let vset ← Hashmap.udictSet 16 e.vset i (validatorInfo c packed)
    let stake ← storeGrams share
    let credits ← creditRest e.credits mem.srcAddr (c.stake - share)
    .ok { credits, vset, totWeight := e.totWeight + weight, totStake := e.totStake + share
          frozen := e.frozen.set c.pubkey.val c.pubkey.isLt
            { addr := mem.srcAddr, weight := packed, stake, banned := false } }
  else do
    let credits ← creditRest e.credits mem.srcAddr c.stake
    .ok { e with credits }

def electAll (members : Dict 256 Member) (m : Nat) (mStake bestStake : Int) :
    Nat → Elected → List Candidate → Outcome Elected
  | _, e, [] => .ok e
  | i, e, c :: l => do
    let e ← electOne members m mStake bestStake i e c
    electAll members m mStake bestStake (i + 1) e l

structure ElectionResult where
  credits : Dict 256 Grams
  vdict : Option Cell
  totalWeight : Int
  frozen : Dict 256 Frozen
  totalStakes : Int
  cnt : Nat

/-- The empty validator set of elections that did not succeed. -/
def noResult (credits : Dict 256 Grams) : ElectionResult :=
  { credits, vdict := none, totalWeight := 0, frozen := Dict.empty, totalStakes := 0, cnt := 0 }

def tryElect (env : Env) (credits : Dict 256 Grams) (members : Dict 256 Member)
    (minStake maxStake minTotalStake : Grams) (maxStakeFactor : Uint 32) : Outcome ElectionResult := do
  let cs ← env.param 16
  let (maxValidators, cs) ← loadUint 16 cs
  let (_, cs) ← loadUint 16 cs
  let (minValidators, cs) ← loadUint 16 cs
  endParse cs
  let minValidators := max minValidators.val 1
  let (sdict, n) ← sortMembers members maxStakeFactor
  let n := min n maxValidators.val
  if n < minValidators then .ok (noResult credits)
  else do
    let l := listStakes sdict maxStake
    let (bestStake, m) ← chooseSize l minStake n (l.drop (minValidators - 1)) (minValidators - 1) 0 0
    if m = 0 ∨ bestStake < minTotalStake then .ok (noResult credits)
    else do
      let last ← orNull (l.drop (m - 1)).head?
      let e ← electAll members m last.stake bestStake 0
        { credits, vset := none, totWeight := 0, frozen := Dict.empty, totStake := 0 } l
      throwUnless 49 (e.totStake = bestStake)
      .ok { credits := e.credits, vdict := e.vset, totalWeight := e.totWeight, frozen := e.frozen
            totalStakes := e.totStake, cnt := m }

section Conduct

variable (cellHash : Cell → Uint 256)

/-- The value of the message to the configuration contract. -/
def configMessageValue : Grams := ⟨2 ^ 30, by decide⟩

def sendValidatorSetToConfig (configAddr : Uint 256) (vset : Cell) (queryId : Uint 32) : OutMsg where
  dest := accountAddress ⟨-1, master_fits⟩ configAddr
  value := configMessageValue
  body := ⟨bitsOf 32 0x4e565354 ++ bitsOf 64 queryId.val, [vset]⟩
  mode := 1

/-- `validators_ext#12`. -/
def packValidatorSet (start stop cnt mainValidators totalWeight : Int) (vdict : Option Cell) :
    Outcome Cell := do
  let start ← storeUint 32 start
  let stop ← storeUint 32 stop
  let cnt ← storeUint 16 cnt
  let mainCount ← storeUint 16 mainValidators
  let totalWeight ← storeUint 64 totalWeight
  .ok (.mk (bitsOf 8 0x12 ++ Uint.bits start ++ Uint.bits stop ++ Uint.bits cnt ++ Uint.bits mainCount ++
    Uint.bits totalWeight ++ [vdict.isSome]) vdict.toList)

/-- `ds` and what it becomes, with the answer of the function. -/
structure Conducted where
  done : Bool
  state : State
  sent : List OutMsg

/-- Lines 549-587: the validator set goes to the configuration contract, the frozen stakes to the
past elections. -/
def installElected (env : Env) (s : State) (elect : Elect) (r : ElectionResult) : Outcome Conducted := do
  let conf ← getValidatorConf env
  let start := max ((env.now : Int) + conf.electEndBefore - 60) elect.electAt
  let cs ← env.param 16
  let cs ← skipBits 16 cs
  let (mainValidators, _) ← loadUint 16 cs
  let vset ← packValidatorSet start (start + conf.electFor) r.cnt (min (r.cnt : Int) mainValidators)
    r.totalWeight r.vdict
  let configAddr ← env.configAddr
  let unfreezeAt ← storeUint 32 (start + conf.electFor + conf.stakeHeld)
  let stakeHeld ← storeUint 32 conf.stakeHeld
  let totStakes ← storeGrams r.totalStakes
  .ok { done := true, sent := [sendValidatorSetToConfig configAddr vset elect.electAt]
        state := { s with
          elect := some elect, credits := r.credits
          pastElect := s.pastElect.set elect.electAt.val elect.electAt.isLt
            { unfreezeAt, stakeHeld, hash := cellHash vset, frozen := r.frozen, totStakes, bonuses := 0 } } }

def conductElections (env : Env) (s : State) (elect : Elect) : Outcome Conducted :=
  if env.now.val < elect.electClose.val then .ok { done := false, state := s, sent := [] }
  else if (env.config 0).isNone then .ok { done := false, state := s, sent := [] }
  else do
    let cs ← env.param 17
    let (minStake, cs) ← loadGrams cs
    let (maxStake, cs) ← loadGrams cs
    let (minTotalStake, cs) ← loadGrams cs
    let (maxStakeFactor, cs) ← loadUint 32 cs
    endParse cs
    if elect.totalStake.val < minTotalStake.val then .ok { done := false, state := s, sent := [] }
    else if elect.failed then .ok { done := false, state := s, sent := [] }
    else if elect.finished then .ok { done := false, state := s, sent := [] }
    else do
      let r ← tryElect env s.credits elect.members minStake maxStake minTotalStake maxStakeFactor
      if r.cnt = 0 then
        .ok { done := false, sent := []
              state := { s with
                elect := some { elect with minStake, failed := true, finished := false }, credits := r.credits } }
      else installElected cellHash env s { elect with minStake, failed := false, finished := true } r

end Conduct

end TonStaking.Source.Elector
