import TonStaking.Source.Elector.Elections

/-!
# Elector: what the loops conserve

The loops over frozen stakes and over the sorted members only move money: what
leaves one container enters another one. The division of a stake into a frozen
part and a credited rest is exact, and the floored shares of the bonuses never
add up to more than the bonuses.
-/
namespace TonStaking.Source.Elector
open Tvm Dict

section Credits

def creditSum (credits : Dict 256 Grams) : Int := credits.sumBy fun _ g => (g : Int)

variable {credits after : Dict 256 Grams} {addr : Uint 256} {amount : Int}

section

variable (h : creditTo credits addr amount = .ok after)
include h

theorem creditTo_success :
    ∃ sum : Grams, (sum : Int) = amount + creditOf credits addr ∧ after = credits.set addr.val addr.isLt sum := by
  obtain ⟨sum, stored, h⟩ := of_bind h
  exact ⟨sum, storeGrams_success stored, (Except.ok.inj h).symm⟩

theorem creditTo_sum : creditSum after = creditSum credits + amount := by
  obtain ⟨sum, total, rfl⟩ := creditTo_success h
  unfold creditSum
  rw [sumBy_set, total]
  unfold creditOf
  cases credits.get? addr with
  | none => simp
  | some g => simp; omega

theorem creditTo_of (a : Nat) : creditOf after a = creditOf credits a + if a = addr.val then amount else 0 := by
  obtain ⟨sum, total, rfl⟩ := creditTo_success h
  split
  · next equal =>
    subst equal
    have stored : creditOf (credits.set addr.val addr.isLt sum) addr = sum := by simp [creditOf]
    omega
  · next different =>
    have kept : creditOf (credits.set addr.val addr.isLt sum) a = creditOf credits a := by
      simp [creditOf, different]
    omega

end

theorem creditTo_of_fits (nonneg : 0 ≤ amount + creditOf credits addr)
    (fits : amount + creditOf credits addr < 2 ^ 120) : ∃ after, creditTo credits addr amount = .ok after := by
  obtain ⟨sum, stored, -⟩ := storeUint_of_fits (n := 120) nonneg fits
  unfold creditTo storeGrams
  rw [stored, ok_bind]
  exact ⟨_, rfl⟩

theorem creditOf_nonneg (credits : Dict 256 Grams) (a : Nat) : 0 ≤ creditOf credits a := by
  unfold creditOf
  split
  · exact le_rfl
  · exact Int.natCast_nonneg _

theorem creditTo_errorsIn (allowed : Exc → Prop) (ok : allowed .rangeChk) (credits : Dict 256 Grams)
    (addr : Uint 256) (amount : Int) : ErrorsIn allowed (creditTo credits addr amount) :=
  (storeUint_errorsIn ok 120 _).bind fun _ _ => errorsIn_ok _

end Credits

section Releases

variable {bonusOf : Frozen → Outcome Int} {bonus : Frozen → Int} {l : List (Nat × Frozen)} {r after : Release}

def stakeSum (l : List (Nat × Frozen)) : Int := (l.map fun e => (e.2.stake : Int)).sum

/-- What the participants with an address get back. -/
def payout (bonus : Frozen → Int) (l : List (Nat × Frozen)) (addr : Nat) : Int :=
  (l.map fun e => if e.2.banned = false ∧ e.2.addr.val = addr then e.2.stake + bonus e.2 else 0).sum

/-- The bonuses of the participants who are not banned. -/
def bonusSum (bonus : Frozen → Int) (l : List (Nat × Frozen)) : Int :=
  (l.map fun e => if e.2.banned then 0 else bonus e.2).sum

/-- Totals of a loop over frozen stakes. -/
structure Releases (bonus : Frozen → Int) (l : List (Nat × Frozen)) (r after : Release) : Prop where
  total : after.total = r.total + stakeSum l
  returned : after.returnedBonuses = r.returnedBonuses + bonusSum bonus l
  moved : creditSum after.credits + after.recovered =
    creditSum r.credits + r.recovered + stakeSum l + bonusSum bonus l
  credited : ∀ a, creditOf after.credits a = creditOf r.credits a + payout bonus l a

theorem releases_nil (bonus : Frozen → Int) (r : Release) : Releases bonus [] r r :=
  ⟨by simp [stakeSum], by simp [bonusSum], by simp [stakeSum, bonusSum], by simp [payout]⟩

variable (agree : ∀ x, bonusOf x = .ok (bonus x))
include agree

theorem releaseOne_releases (k : Nat) {x : Frozen}
    (h : releaseOne bonusOf r x = .ok after) : Releases bonus [(k, x)] r after := by
  unfold releaseOne at h
  split at h
  · next banned =>
    cases h
    exact ⟨by simp [stakeSum], by simp [bonusSum, banned], by simp [stakeSum, bonusSum, banned]; omega,
      by simp [payout, banned]⟩
  rename_i free
  rw [agree, ok_bind] at h
  obtain ⟨credits, credited, h⟩ := of_bind h
  cases h
  refine ⟨by simp [stakeSum], by simp [bonusSum, free], ?_, fun a => ?_⟩
  · have sum := creditTo_sum credited
    simp [stakeSum, bonusSum, free]
    omega
  · rw [creditTo_of credited a]
    by_cases here : a = x.addr.val
    · simp [payout, free, here]
    · simp [payout, here, Ne.symm here]

omit agree in
theorem Releases.append {l1 l2 : List (Nat × Frozen)} {a b c : Release} (first : Releases bonus l1 a b)
    (second : Releases bonus l2 b c) : Releases bonus (l1 ++ l2) a c := by
  obtain ⟨t1, b1, m1, c1⟩ := first
  obtain ⟨t2, b2, m2, c2⟩ := second
  refine ⟨?_, ?_, ?_, fun x => ?_⟩
  · simp only [stakeSum, List.map_append, List.sum_append] at *
    omega
  · simp only [bonusSum, List.map_append, List.sum_append] at *
    omega
  · simp only [stakeSum, bonusSum, List.map_append, List.sum_append] at *
    omega
  · have := c1 x
    have := c2 x
    simp only [payout, List.map_append, List.sum_append] at *
    omega

variable (bonus) in
theorem releaseList_releases {r : Release}
    (h : l.foldlM (fun r e => releaseOne bonusOf r e.2) r = .ok after) : Releases bonus l r after := by
  induction l generalizing r with
  | nil =>
    cases h
    exact releases_nil bonus _
  | cons e l ih =>
    obtain ⟨next, one, rest⟩ := of_bind h
    exact (releaseOne_releases agree e.1 one).append (ih rest)

omit agree in
theorem payout_nonneg (nonneg : ∀ x, 0 ≤ bonus x) (l : List (Nat × Frozen)) (a : Nat) : 0 ≤ payout bonus l a := by
  apply List.sum_nonneg
  intro y member
  obtain ⟨e, -, rfl⟩ := List.mem_map.mp member
  have := nonneg e.2
  split
  · omega
  · exact le_rfl

variable (bonus) in
theorem releaseList_of_fits (nonneg : ∀ x, 0 ≤ bonus x)
    (fits : ∀ a, creditOf r.credits a + payout bonus l a < 2 ^ 120) :
    ∃ after, l.foldlM (fun r e => releaseOne bonusOf r e.2) r = .ok after := by
  induction l generalizing r with
  | nil => exact ⟨r, rfl⟩
  | cons e l ih =>
    have step : ∃ next, releaseOne bonusOf r e.2 = .ok next := by
      unfold releaseOne
      split
      · exact ⟨_, rfl⟩
      rename_i free
      have here := fits e.2.addr
      have later := payout_nonneg nonneg l e.2.addr
      have share : payout bonus (e :: l) e.2.addr = e.2.stake + bonus e.2 + payout bonus l e.2.addr := by
        simp [payout, free]
      have held := creditOf_nonneg r.credits e.2.addr
      have share_nonneg := nonneg e.2
      have low : 0 ≤ (e.2.stake : Int) + bonus e.2 + creditOf r.credits e.2.addr := by omega
      obtain ⟨credits, credited⟩ := creditTo_of_fits low (by omega)
      rw [agree, ok_bind, credited, ok_bind]
      exact ⟨_, rfl⟩
    obtain ⟨next, one⟩ := step
    have moved := (releaseOne_releases agree e.1 one).credited
    obtain ⟨after, rest⟩ := ih (r := next) fun a => by
      have := fits a
      have := moved a
      have split : payout bonus (e :: l) a = payout bonus [(e.1, e.2)] a + payout bonus l a := by simp [payout]
      omega
    exact ⟨after, by rw [List.foldlM_cons, one, ok_bind, rest]⟩

theorem releaseList_errorsIn (l : List (Nat × Frozen)) (r : Release) :
    ErrorsIn (· = .rangeChk) (l.foldlM (fun r e => releaseOne bonusOf r e.2) r) := by
  induction l generalizing r with
  | nil => exact errorsIn_ok r
  | cons e l ih =>
    have first : ErrorsIn (· = .rangeChk) (releaseOne bonusOf r e.2) := by
      unfold releaseOne
      split
      · exact errorsIn_ok _
      rw [agree, ok_bind]
      have credited : ErrorsIn (· = .rangeChk) (creditTo r.credits e.2.addr (e.2.stake + bonus e.2)) :=
        creditTo_errorsIn (· = .rangeChk) rfl _ _ _
      exact credited.bind fun _ _ => errorsIn_ok _
    exact first.bind fun next _ => ih next

end Releases

section Unfreezing

/-- A record whose frozen stakes add up to its total. -/
structure Balanced (fs : PastElect) : Prop where
  total : stakeSum fs.frozen.entries = fs.totStakes
  positive : 0 < fs.totStakes.val

/-- `floor(bonuses * stake / tot_stakes)`. -/
def bonusShare (fs : PastElect) (x : Frozen) : Int := (fs.bonuses : Int) * x.stake / fs.totStakes

variable {fs : PastElect}

theorem bonusShare_nonneg (fs : PastElect) (x : Frozen) : 0 ≤ bonusShare fs x :=
  Int.ediv_nonneg (Int.mul_nonneg (Int.natCast_nonneg _) (Int.natCast_nonneg _)) (Int.natCast_nonneg _)

section

variable (balanced : Balanced fs)
include balanced

theorem bonusSum_le : bonusSum (bonusShare fs) fs.frozen.entries ≤ fs.bonuses := by
  have positive : (0 : Int) < fs.totStakes := by exact_mod_cast balanced.positive
  have scaled (l : List (Nat × Frozen)) : bonusSum (bonusShare fs) l * fs.totStakes ≤ fs.bonuses * stakeSum l := by
    induction l with
    | nil => simp [bonusSum, stakeSum]
    | cons e l ih =>
      have share : bonusShare fs e.2 * fs.totStakes ≤ fs.bonuses * e.2.stake :=
        Int.ediv_mul_le _ positive.ne'
      have nonneg : (0 : Int) ≤ fs.bonuses * e.2.stake :=
        Int.mul_nonneg (Int.natCast_nonneg _) (Int.natCast_nonneg _)
      simp only [bonusSum, stakeSum, List.map_cons, List.sum_cons, Int.add_mul, Int.mul_add] at ih ⊢
      split
      · omega
      · omega
  have all := scaled fs.frozen.entries
  rw [balanced.total] at all
  exact Int.le_of_mul_le_mul_right all positive

/-- The bonus that the branch of `unfreeze_all` for this record gives to a participant. -/
theorem bonus_agrees (x : Frozen) : divInt (fs.bonuses * x.stake) fs.totStakes = .ok (bonusShare fs x) := by
  have positive : (0 : Int) < fs.totStakes := by exact_mod_cast balanced.positive
  rw [divInt_of_ne positive.ne', Int.fdiv_eq_ediv_of_nonneg _ positive.le]
  rfl

omit balanced in
theorem bonusShare_of_none (none : fs.bonuses.val = 0) (x : Frozen) : bonusShare fs x = 0 := by
  simp [bonusShare, none]

/-- What unfreezing a record does to the credits. -/
structure Unfreezes (credits : Dict 256 Grams) (fs : PastElect) (after : Dict 256 Grams) (unused : Int) :
    Prop where
  conserved : creditSum after + unused = creditSum credits + fs.totStakes + fs.bonuses
  credited : ∀ addr, creditOf after addr = creditOf credits addr + payout (bonusShare fs) fs.frozen.entries addr

/-- Both loops are the one loop over the participants with their shares. -/
theorem unfreezeRecord_eq (credits : Dict 256 Grams) :
    unfreezeRecord credits fs = (releaseAll (fun x => .ok (bonusShare fs x)) credits fs.frozen >>= fun r =>
      .ok (r.credits, r.recovered + fs.bonuses - r.returnedBonuses)) := by
  have checked {r : Release} (done : releaseAll (fun x => .ok (bonusShare fs x)) credits fs.frozen = .ok r) :
      r.total = fs.totStakes ∧ r.returnedBonuses = bonusSum (bonusShare fs) fs.frozen.entries := by
    unfold releaseAll at done
    rw [forEach_eq] at done
    have released := releaseList_releases (bonusShare fs) (fun x => rfl) done
    have total := released.total
    have returned := released.returned
    rw [balanced.total] at total
    simp only [zero_add] at total returned
    exact ⟨total, returned⟩
  have limit := bonusSum_le balanced
  unfold unfreezeRecord
  split
  · next rich =>
    unfold unfreezeWithBonuses
    simp only [bonus_agrees balanced]
    cases done : releaseAll (fun x => .ok (bonusShare fs x)) credits fs.frozen with
    | error e => rfl
    | ok r =>
      obtain ⟨total, returned⟩ := checked done
      have fine : r.total = fs.totStakes ∧ r.returnedBonuses ≤ fs.bonuses := ⟨total, by omega⟩
      simp [throwUnless, if_pos fine]
  · next poor =>
    have none : fs.bonuses.val = 0 := by omega
    have shares : (fun x => .ok (bonusShare fs x)) = fun _ : Frozen => (.ok 0 : Outcome Int) := by
      funext x
      rw [bonusShare_of_none none]
    unfold unfreezeWithoutBonuses
    rw [shares] at checked ⊢
    cases done : releaseAll (fun _ => .ok 0) credits fs.frozen with
    | error e => rfl
    | ok r =>
      obtain ⟨total, returned⟩ := checked done
      have zero : bonusSum (bonusShare fs) fs.frozen.entries = 0 := by
        simp [bonusSum, bonusShare_of_none none]
      simp only [ok_bind, throwUnless, if_pos total, returned, zero, none]
      simp

theorem unfreezeRecord_unfreezes {credits after : Dict 256 Grams} {unused : Int}
    (h : unfreezeRecord credits fs = .ok (after, unused)) : Unfreezes credits fs after unused := by
  rw [unfreezeRecord_eq balanced] at h
  obtain ⟨r, done, h⟩ := of_bind h
  cases h
  unfold releaseAll at done
  rw [forEach_eq] at done
  have released := releaseList_releases (bonusShare fs) (fun x => rfl) done
  refine ⟨?_, released.credited⟩
  have moved := released.moved
  have returned := released.returned
  rw [balanced.total] at moved
  simp only at moved returned
  omega

theorem unfreezeRecord_of_fits {credits : Dict 256 Grams}
    (fits : ∀ a, creditOf credits a + payout (bonusShare fs) fs.frozen.entries a < 2 ^ 120) :
    ∃ after unused, unfreezeRecord credits fs = .ok (after, unused) := by
  obtain ⟨r, done⟩ := releaseList_of_fits (bonusShare fs) (fun x => rfl) (bonusShare_nonneg fs)
    (r := { credits, total := 0, recovered := 0, returnedBonuses := 0 }) fits
  rw [unfreezeRecord_eq balanced, releaseAll, forEach_eq, done]
  exact ⟨_, _, rfl⟩

theorem unfreezeRecord_errorsIn (credits : Dict 256 Grams) :
    ErrorsIn (· = .rangeChk) (unfreezeRecord credits fs) := by
  rw [unfreezeRecord_eq balanced, releaseAll, forEach_eq]
  exact (releaseList_errorsIn (fun x => rfl) _ _).bind fun _ _ => errorsIn_ok _

end

theorem unfreezeAll_found {credits : Dict 256 Grams} {past : Dict 32 PastElect} {id : Nat}
    (found : past.get? id = some fs) : unfreezeAll credits past id =
      (unfreezeRecord credits fs >>= fun r => .ok (r.1, past.erase id, r.2)) := by
  simp [unfreezeAll, found]

end Unfreezing

section Sorting

variable {pubkey n : Nat} {sdict : Dict 416 SortValue} {members : Dict 256 Member}

def memberSum (members : Dict 256 Member) : Int := members.sumBy fun _ mem => (mem.stake : Int)

/-- The stakes of all members, each up to `max_stake`. -/
def cappedSum (maxStake : Grams) (members : Dict 256 Member) : Int :=
  members.sumBy fun _ mem => min (mem.stake : Int) maxStake

/-- The entry of a member in the sorted dictionary. -/
def sortEntry (maxStakeFactor : Uint 32) (e : Nat × Member) : Nat × SortValue :=
  (sortKey e.2.stake (-(e.2.time : Int)) e.1,
    { maxF := if e.2.maxFactor ≤ maxStakeFactor then e.2.maxFactor else maxStakeFactor
      addr := e.2.srcAddr, adnlAddr := e.2.adnlAddr })

theorem sortKey_mod (bound : pubkey < 2 ^ 256) (stake : Grams) (negTime : Int) :
    sortKey stake negTime pubkey % 2 ^ 256 = pubkey := by
  unfold sortKey
  rw [Nat.mul_comm, Nat.mul_add_mod, Nat.mod_eq_of_lt bound]

theorem sortKey_div (bound : pubkey < 2 ^ 256) (stake : Grams) (negTime : Int) :
    sortKey stake negTime pubkey / 2 ^ 256 / 2 ^ 32 = stake.val := by
  have time : (negTime % 2 ^ 32).toNat < 2 ^ 32 := by omega
  unfold sortKey
  rw [Nat.mul_comm, Nat.mul_add_div (Nat.two_pow_pos 256),
    Nat.div_eq_of_lt bound, Nat.add_zero, Nat.mul_comm, Nat.mul_add_div (Nat.two_pow_pos 32),
    Nat.div_eq_of_lt time, Nat.add_zero]

variable {maxStakeFactor : Uint 32} {maxStake : Grams}

theorem sortEntry_key (maxStakeFactor : Uint 32) (e : Nat × Member) :
    (sortEntry maxStakeFactor e).1 = sortKey e.2.stake (-(e.2.time : Int)) e.1 := rfl

theorem candidateOf_pubkey (maxStake : Grams) (e : Nat × SortValue) :
    (candidateOf maxStake e).pubkey.val = e.1 % 2 ^ 256 := rfl

theorem candidateOf_stake (maxStake : Grams) (e : Nat × SortValue) :
    (candidateOf maxStake e).stake = min ((e.1 / 2 ^ 256 / 2 ^ 32 : Nat) : Int) maxStake := rfl

theorem sortList_perm {l : List (Nat × Member)} (sorted : l.Pairwise (fun a b => a.1 < b.1))
    (bounded : ∀ e ∈ l, e.1 < 2 ^ 256) {after : Dict 416 SortValue} {count : Nat}
    (fresh : ∀ e ∈ sdict.entries, ∀ x ∈ l, e.1 % 2 ^ 256 ≠ x.1)
    (h : l.foldlM (fun (acc : Dict 416 SortValue × Nat) e => do
      let negTime ← storeInt 32 (-(e.2.time : Int))
      let sdict ← acc.1.udictSet (sortKey e.2.stake negTime.val e.1) (sortEntry maxStakeFactor e).2
      .ok (sdict, acc.2 + 1)) (sdict, n) = .ok (after, count)) :
    after.entries.Perm (sdict.entries ++ l.map (sortEntry maxStakeFactor)) := by
  induction l generalizing sdict n with
  | nil =>
    cases h
    simp
  | cons x l ih =>
    obtain ⟨next, one, rest⟩ := of_bind h
    obtain ⟨negTime, stored, one⟩ := of_bind one
    obtain ⟨changed, set, one⟩ := of_bind one
    cases one
    obtain ⟨fits, rfl⟩ := Dict.udictSet_success set
    have boundX := bounded x (List.mem_cons_self ..)
    have time : negTime.val = -(x.2.time : Int) := storeInt_success stored
    have key : ((sortKey x.2.stake negTime.val x.1 : Nat) : Int).toNat = (sortEntry maxStakeFactor x).1 := by
      rw [time]
      rfl
    have unused : ∀ e ∈ sdict.entries, e.1 ≠ (sortEntry maxStakeFactor x).1 := by
      intro e member equal
      apply fresh e member x (List.mem_cons_self ..)
      rw [equal, sortEntry_key, sortKey_mod boundX]
    have inserted : (sdict.set _ fits (sortEntry maxStakeFactor x).2).entries.Perm
        (sortEntry maxStakeFactor x :: sdict.entries) := by
      simp only [key]
      exact insertEntry_perm _ _ _ unused
    obtain ⟨first, others⟩ := List.pairwise_cons.mp sorted
    have perm := ih others (fun e member => bounded e (List.mem_cons_of_mem _ member))
      (fun e member y later => by
        rcases List.mem_cons.mp (inserted.mem_iff.mp member) with rfl | old
        · rw [sortEntry_key, sortKey_mod boundX]
          exact (first y later).ne
        · exact fresh e old y (List.mem_cons_of_mem _ later)) rest
    refine perm.trans ((List.Perm.append_right _ inserted).trans ?_)
    exact List.perm_middle.symm

theorem sortMembers_perm (h : sortMembers members maxStakeFactor = .ok (sdict, n)) :
    sdict.entries.Perm (members.entries.map (sortEntry maxStakeFactor)) := by
  unfold sortMembers at h
  rw [forEach_eq] at h
  have sorted := sortList_perm members.sorted members.bounded (by simp [empty]) h
  simpa [empty] using sorted

theorem listStakes_eq (sdict : Dict 416 SortValue) (maxStake : Grams) :
    listStakes sdict maxStake = (sdict.entries.map (candidateOf maxStake)).reverse := by
  have all : sdict.entries.foldl (fun l e => candidateOf maxStake e :: l) [] = _ := List.foldl_flip_cons_eq_append
  rw [List.append_nil] at all
  exact all

section

variable (h : sortMembers members maxStakeFactor = .ok (sdict, n))
include h

theorem listStakes_perm :
    (listStakes sdict maxStake).Perm
      (members.entries.map fun e => candidateOf maxStake (sortEntry maxStakeFactor e)) := by
  rw [listStakes_eq]
  have mapped := (sortMembers_perm h).map (candidateOf maxStake)
  rw [List.map_map] at mapped
  exact (List.reverse_perm _).trans mapped

theorem listStakes_sum : ((listStakes sdict maxStake).map Candidate.stake).sum = cappedSum maxStake members := by
  rw [((listStakes_perm h).map Candidate.stake).sum_eq, List.map_map]
  congr 1
  apply List.map_congr_left
  intro e member
  rw [Function.comp_apply, candidateOf_stake, sortEntry_key, sortKey_div (members.bounded e member)]

theorem listStakes_nodup : ((listStakes sdict maxStake).map fun c => c.pubkey.val).Nodup := by
  rw [((listStakes_perm h).map fun c => c.pubkey.val).nodup_iff, List.map_map]
  have keys : members.entries.map ((fun c => c.pubkey.val) ∘ fun e => candidateOf maxStake
      (sortEntry maxStakeFactor e)) = members.entries.map Prod.fst := by
    apply List.map_congr_left
    intro e member
    rw [Function.comp_apply, candidateOf_pubkey, sortEntry_key, sortKey_mod (members.bounded e member)]
  rw [keys]
  exact (List.pairwise_map.mpr members.sorted).imp fun less => less.ne

end

end Sorting

section Electing

variable {members : Dict 256 Member} {m : Nat} {mStake bestStake : Int}
variable {i : Nat} {e after : Elected} {l : List Candidate} {minStake : Grams} {c : Candidate}

theorem creditRest_sum {credits after : Dict 256 Grams} {addr : Uint 256} {stake : Int}
    (h : creditRest credits addr stake = .ok after) : creditSum after = creditSum credits + stake := by
  unfold creditRest at h
  split at h
  · exact creditTo_sum h
  rename_i zero
  cases h
  omega

/-- Totals of the last loop of `try_elect`. -/
structure Elects (l : List Candidate) (e after : Elected) : Prop where
  moved : creditSum after.credits + after.totStake =
    creditSum e.credits + e.totStake + (l.map Candidate.stake).sum
  frozen : stakeSum after.frozen.entries + e.totStake = stakeSum e.frozen.entries + after.totStake

/-- What a round does with the stake of a candidate: the frozen share and the credit for the rest. -/
structure Placed (members : Dict 256 Member) (e : Elected) (c : Candidate) (after : Elected) (mem : Member)
    (share : Int) : Prop where
  found : members.get? c.pubkey = some mem
  credited : creditRest e.credits mem.srcAddr (c.stake - share) = .ok after.credits
  totStake : after.totStake = e.totStake + share
  frozen : share = 0 ∧ after.frozen = e.frozen ∨ ∃ x : Frozen, x.addr = mem.srcAddr ∧ (x.stake : Int) = share ∧
    after.frozen = e.frozen.set c.pubkey.val c.pubkey.isLt x

theorem electOne_placed (h : electOne members m mStake bestStake i e c = .ok after) :
    ∃ mem share, Placed members e c after mem share := by
  obtain ⟨mem, found, h⟩ := of_bind h
  split at h
  · obtain ⟨weight, -, h⟩ := of_bind h
    obtain ⟨packed, -, h⟩ := of_bind h
    obtain ⟨vset, -, h⟩ := of_bind h
    obtain ⟨stake, stored, h⟩ := of_bind h
    obtain ⟨credits, credited, h⟩ := of_bind h
    cases h
    exact ⟨mem, _, orThrow_success.mp found, credited, rfl, .inr ⟨_, rfl, storeGrams_success stored, rfl⟩⟩
  · obtain ⟨credits, credited, h⟩ := of_bind h
    cases h
    exact ⟨mem, 0, orThrow_success.mp found, by rw [Int.sub_zero]; exact credited, (Int.add_zero _).symm,
      .inl ⟨rfl, rfl⟩⟩

/-- The sum over the frozen stakes grows by the share, however its holders are told apart. -/
theorem Placed.sumBy_frozen {mem : Member} {share : Int} (placed : Placed members e c after mem share)
    (unused : e.frozen.get? c.pubkey = none) (mine : Uint 256 → Prop) [DecidablePred mine] :
    (after.frozen.sumBy fun _ x => if mine x.addr then (x.stake : Int) else 0) =
      (e.frozen.sumBy fun _ x => if mine x.addr then (x.stake : Int) else 0) + if mine mem.srcAddr then share else 0 := by
  rcases placed.frozen with ⟨rfl, same⟩ | ⟨x, addr, stake, set⟩
  · rw [same, ite_self, Int.add_zero]
  · rw [set, sumBy_set, unused, addr, stake]
    simp

/-- Every candidate meets a dictionary of frozen stakes without its key. -/
theorem electAll_rule {Q : List Candidate → Elected → Prop} (nil : Q [] after)
    (cons : ∀ e c next l mem share, Placed members e c next mem share → e.frozen.get? c.pubkey = none →
      Q l next → Q (c :: l) e)
    (distinct : (l.map fun c => c.pubkey.val).Nodup) (unused : ∀ c ∈ l, e.frozen.get? c.pubkey = none)
    (h : electAll members m mStake bestStake i e l = .ok after) : Q l e := by
  induction l generalizing i e with
  | nil =>
    cases h
    exact nil
  | cons c l ih =>
    obtain ⟨next, one, rest⟩ := of_bind h
    obtain ⟨mem, share, placed⟩ := electOne_placed one
    obtain ⟨apart, others⟩ := List.nodup_cons.mp distinct
    refine cons e c next l mem share placed (unused c (List.mem_cons_self ..)) (ih others (fun x member => ?_) rest)
    have old := unused x (List.mem_cons_of_mem _ member)
    rcases placed.frozen with ⟨-, same⟩ | ⟨y, -, -, set⟩
    · rw [same, old]
    · rw [set, Dict.get?_set, if_neg (fun equal => apart (List.mem_map.mpr ⟨x, member, equal⟩)), old]

theorem electAll_elects (distinct : (l.map fun c => c.pubkey.val).Nodup)
    (unused : ∀ c ∈ l, e.frozen.get? c.pubkey = none) (h : electAll members m mStake bestStake i e l = .ok after) :
    Elects l e after := by
  refine electAll_rule (Q := fun l e => Elects l e after) ⟨by simp, rfl⟩ ?_ distinct unused h
  intro e c next l mem share placed unused later
  have credited := creditRest_sum placed.credited
  have frozen := placed.sumBy_frozen unused fun _ => True
  have stake := placed.totStake
  simp only [if_true, Dict.sumBy] at frozen
  refine ⟨?_, ?_⟩
  · have moved := later.moved
    simp only [List.map_cons, List.sum_cons]
    omega
  · have kept := later.frozen
    unfold stakeSum at kept ⊢
    omega

theorem chooseSize_bounds {n : Nat} {l1 : List Candidate} {best best' : Int} {m m' : Nat} (below : i < n)
    (start : 0 ≤ best ∧ m ≤ n ∧ (m ≠ 0 → 0 < best)) (h : chooseSize l minStake n l1 i best m = .ok (best', m')) :
    m' ≤ n ∧ (m' ≠ 0 → 0 < best') := by
  induction l1 generalizing i best m with
  | nil => cases h
  | cons c l1 ih =>
    obtain ⟨⟨b, k⟩, chosen, h⟩ := of_bind h
    have kept : 0 ≤ b ∧ k ≤ n ∧ (k ≠ 0 → 0 < b) := by
      unfold improve at chosen
      split at chosen
      · obtain ⟨tot, -, chosen⟩ := of_bind chosen
        split at chosen
        · cases chosen
          exact ⟨by omega, below, fun _ => by omega⟩
        · cases chosen
          exact start
      · cases chosen
        exact start
    dsimp only at h
    split at h
    · cases h
      exact kept.2
    · next more => exact ih (by omega) kept h

/-- How elections that did not fail have run. -/
structure ElectionRun (credits : Dict 256 Grams) (members : Dict 256 Member) (maxStake : Grams)
    (maxStakeFactor : Uint 32) (r : ElectionResult) (sdict : Dict 416 SortValue) (last : Candidate) (e : Elected) :
    Prop where
  sorted : ∃ n, sortMembers members maxStakeFactor = .ok (sdict, n)
  count : r.cnt ≠ 0 ∧ r.cnt < 2 ^ 16
  place : ((listStakes sdict maxStake).drop (r.cnt - 1)).head? = some last
  elected : electAll members r.cnt last.stake e.totStake 0
    { credits, vset := none, totWeight := 0, frozen := Dict.empty, totStake := 0 } (listStakes sdict maxStake) = .ok e
  positive : 0 < e.totStake
  result : r = { credits := e.credits, vdict := e.vset, totalWeight := e.totWeight, frozen := e.frozen
                 totalStakes := e.totStake, cnt := r.cnt }

section Runs

variable {env : Env} {credits : Dict 256 Grams} {maxStake minTotalStake : Grams} {maxStakeFactor : Uint 32}
  {r : ElectionResult}

variable (h : tryElect env credits members minStake maxStake minTotalStake maxStakeFactor = .ok r)
include h

theorem tryElect_run :
    r = noResult credits ∨ ∃ sdict last e, ElectionRun credits members maxStake maxStakeFactor r sdict last e := by
  obtain ⟨cs, -, h⟩ := of_bind h
  obtain ⟨⟨maxValidators, cs⟩, -, h⟩ := of_bind h
  obtain ⟨⟨_, cs⟩, -, h⟩ := of_bind h
  obtain ⟨⟨minValidators, cs⟩, -, h⟩ := of_bind h
  obtain ⟨-, -, h⟩ := of_bind h
  obtain ⟨⟨sdict, n⟩, sorted, h⟩ := of_bind h
  dsimp only at h
  split at h
  · cases h
    exact .inl rfl
  obtain ⟨⟨bestStake, m⟩, chosen, h⟩ := of_bind h
  split at h
  · cases h
    exact .inl rfl
  rename_i enough
  obtain ⟨last, found, h⟩ := of_bind h
  obtain ⟨e, elected, h⟩ := of_bind h
  obtain ⟨_, checked, h⟩ := of_bind h
  cases h
  have equal := throwUnless_success.mp checked
  have count : m ≠ 0 := fun zero => enough (.inl zero)
  obtain ⟨limit, best⟩ := chooseSize_bounds (by omega) ⟨le_rfl, Nat.zero_le _, fun no => absurd rfl no⟩ chosen
  refine .inr ⟨sdict, last, e, ⟨n, sorted⟩, ⟨count, show m < 2 ^ 16 by omega⟩, orNull_success.mp found, ?_, ?_, rfl⟩
  · rw [equal]
    exact elected
  · rw [equal]
    exact best count

/-- What successful elections freeze and credit. -/
structure Elections (credits : Dict 256 Grams) (members : Dict 256 Member) (maxStake : Grams)
    (r : ElectionResult) : Prop where
  frozen : stakeSum r.frozen.entries = r.totalStakes
  positive : 0 < r.totalStakes
  moved : creditSum r.credits + r.totalStakes = creditSum credits + cappedSum maxStake members

theorem tryElect_success : r = noResult credits ∨ r.cnt ≠ 0 ∧ Elections credits members maxStake r := by
  rcases tryElect_run h with none | ⟨sdict, last, e, elections⟩
  · exact .inl none
  obtain ⟨n, sorted⟩ := elections.sorted
  have totals := electAll_elects (listStakes_nodup sorted) (fun _ _ => rfl) elections.elected
  have moved := totals.moved
  have frozen := totals.frozen
  rw [listStakes_sum sorted] at moved
  refine .inr ⟨elections.count.1, ?_⟩
  rw [elections.result]
  exact ⟨by simpa [stakeSum, empty] using frozen, elections.positive, by simpa using moved⟩

end Runs

end Electing

end TonStaking.Source.Elector
