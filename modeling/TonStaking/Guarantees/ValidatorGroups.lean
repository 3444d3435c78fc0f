import Mathlib.Algebra.Order.BigOperators.Group.List
import Mathlib.Data.List.Perm.Subperm
import TonStaking.Source.Validators.ValidatorSet

/-!
# Validator groups are weighted samples

The group of a shard should be drawn without replacement: in every round a position is
drawn among the weights of the validators that are left, laid end to end in the order of the list,
and the validator that holds the position is taken. The code draws a position, moves it behind
the holes of the validators already taken, and looks it up in the full list. Both agree for every
sequence of words, and no `CHECK` fails. The group of the masterchain is not drawn: it is the head
of the list.
-/
namespace TonStaking.Guarantees.ValidatorGroups

open Tvm TonStaking.Source.Shard TonStaking.Source.Validators

/-- Who holds a position when the weights of the given places are laid end to end. -/
def holder (weight : Nat → Nat) : List Nat → Nat → Option Nat
  | [], _ => none
  | i :: rest, p => if p < weight i then some i else holder weight rest (p - weight i)

/-- The places that are not taken yet, in order. -/
def remaining (n : Nat) (chosen : List Nat) : List Nat := (List.range n).filter fun i => decide (i ∉ chosen)

def weightAt (list : List ValidatorDescr) (i : Nat) : Nat := (list[i]?.map fun v => v.weight.val).getD 0

def weightSum (weight : Nat → Nat) (places : List Nat) : Nat := (places.map weight).sum

/-- A sample without replacement of `count` of the `n` places. -/
structure ProperSample (weight : Nat → Nat) (n count : Nat) (words : Nat → Uint 64) (chosen : List Nat) : Prop where
  size : chosen.length = count
  distinct : chosen.Nodup
  drawn : ∀ i < count, chosen[i]? = holder weight (remaining n (chosen.take i))
    (weightSum weight (remaining n (chosen.take i)) * words i / 2 ^ 64)

/-- The group that a function returns is a proper sample of the list. -/
def SampledGroup (vset : ValidatorSet) (count : Nat) (words : Nat → Uint 64) (group : List Node) : Prop :=
  ∃ chosen, ProperSample (weightAt vset.list) vset.total count words chosen ∧
    group = chosen.filterMap fun i => (vset.list[i]?).map shardNode

section Weights

variable {weight : Nat → Nat} {n i k : Nat} {chosen : List Nat}

theorem mem_remaining : i ∈ remaining n chosen ↔ i < n ∧ i ∉ chosen := by
  simp [remaining]

/-- As long as fewer places are taken than there are, one is left. -/
theorem exists_remaining (few : chosen.length < n) : ∃ i, i ∈ remaining n chosen := by
  by_contra none
  have all : List.range n ⊆ chosen := by
    intro i member
    by_contra free
    exact none ⟨i, mem_remaining.mpr ⟨List.mem_range.mp member, free⟩⟩
  have count := (List.subperm_of_subset List.nodup_range all).length_le
  rw [List.length_range] at count
  omega

theorem weightSum_remaining_pos (positive : ∀ i < n, 0 < weight i) (few : chosen.length < n) :
    0 < weightSum weight (remaining n chosen) := by
  obtain ⟨i, member⟩ := exists_remaining few
  have part := List.single_le_sum (fun _ _ => Nat.zero_le _) _ (List.mem_map_of_mem (f := weight) member)
  have one := positive i (mem_remaining.mp member).1
  unfold weightSum
  omega

theorem weightSum_filter_le (weight : Nat → Nat) (places : List Nat) (keep : Nat → Bool) :
    weightSum weight (places.filter keep) ≤ weightSum weight places := by
  have part : (places.filter keep).Sublist places := List.filter_sublist
  exact (part.map weight).sum_le_sum fun _ _ => Nat.zero_le _

theorem weightSum_remaining_snoc (weight : Nat → Nat) (left : k ∈ remaining n chosen) :
    weightSum weight (remaining n (chosen ++ [k])) + weight k = weightSum weight (remaining n chosen) := by
  have nodup : (remaining n chosen).Nodup := List.nodup_range.filter _
  have erased : remaining n (chosen ++ [k]) = (remaining n chosen).erase k := by
    rw [nodup.erase_eq_filter]
    unfold remaining
    rw [List.filter_filter]
    congr 1
    funext i
    rw [Bool.eq_iff_iff]
    simp [and_comm]
  rw [erased, weightSum, weightSum, Nat.add_comm]
  exact List.sum_map_erase weight left

variable {v : ValidatorDescr} {j b : Nat}

/-- Every validator has a weight and starts where the one before it ends. -/
def Laid : Nat → List ValidatorDescr → Prop
  | _, [] => True
  | c, v :: vs => v.cumWeight = c ∧ 0 < v.weight.val ∧ Laid (c + v.weight) vs

/-- The end of a list of validators that starts at `c`. -/
def laidEnd : Nat → List ValidatorDescr → Nat
  | c, [] => c
  | c, v :: vs => laidEnd (c + v.weight) vs

theorem le_laidEnd (c : Nat) (vs : List ValidatorDescr) : c ≤ laidEnd c vs := by
  induction vs generalizing c with
  | nil => exact le_refl c
  | cons v vs ih => exact le_trans (Nat.le_add_right c v.weight) (ih (c + v.weight))

theorem laidEnd_append (c : Nat) (vs : List ValidatorDescr) (v : ValidatorDescr) :
    laidEnd c (vs ++ [v]) = laidEnd c vs + v.weight := by
  induction vs generalizing c with
  | nil => rfl
  | cons head _ ih => exact ih (c + head.weight)

theorem Laid.append {c : Nat} {vs : List ValidatorDescr} (laid : Laid c vs) (start : v.cumWeight = laidEnd c vs)
    (positive : 0 < v.weight.val) : Laid c (vs ++ [v]) := by
  induction vs generalizing c with
  | nil => exact ⟨start, positive, trivial⟩
  | cons head vs ih => exact ⟨laid.1, laid.2.1, ih laid.2.2 start⟩

variable {c b : Nat} {vs : List ValidatorDescr} {v : ValidatorDescr} {holes : List Hole}

section

variable (laid : Laid c vs)
include laid

theorem Laid.cum_ge : ∀ v ∈ vs, c ≤ v.cumWeight := by
  induction vs generalizing c with
  | nil => nofun
  | cons head vs ih =>
    intro v member
    cases member with
    | head => exact laid.1.ge
    | tail _ later => exact le_trans (Nat.le_add_right c head.weight) (ih laid.2.2 v later)

theorem Laid.weight_pos : ∀ v ∈ vs, 0 < v.weight.val := by
  induction vs generalizing c with
  | nil => nofun
  | cons head vs ih =>
    intro v member
    cases member with
    | head => exact laid.2.1
    | tail _ later => exact ih laid.2.2 v later

/-- The validator at place `j` ends before the end of the list. -/
theorem Laid.cum_lt_end (found : vs[j]? = some v) : v.cumWeight + v.weight ≤ laidEnd c vs := by
  induction vs generalizing c j with
  | nil => cases found
  | cons head vs ih =>
    cases j with
    | zero =>
      cases found
      rw [laid.1]
      exact le_laidEnd _ vs
    | succ j => exact ih laid.2.2 found

/-- The first validator behind a position is the one after its holder. -/
theorem Laid.upperBound_eq {r : Nat} (found : vs[j]? = some v) (inside : r < v.weight.val) :
    upperBound (fun w => decide (v.cumWeight + r < w.cumWeight)) vs = j + 1 := by
  induction vs generalizing c j with
  | nil => cases found
  | cons head vs ih =>
    have reached : ¬ v.cumWeight + r < head.cumWeight := by
      have low := laid.cum_ge v (List.mem_of_getElem? found)
      rw [laid.1]
      omega
    unfold upperBound
    rw [List.takeWhile_cons_of_pos (by simpa using reached), List.length_cons]
    cases j with
    | zero =>
      cases found
      cases vs with
      | nil => rfl
      | cons next vs =>
        have behind : v.cumWeight + r < next.cumWeight := by
          rw [laid.1, laid.2.2.1]
          omega
        rw [List.takeWhile_cons_of_neg (by simpa using behind)]
        rfl
    | succ j => exact congrArg (· + 1) (ih laid.2.2 found)

/-- The holes of the places taken, in the order of the list; `b` is the place of the first validator. -/
def holesOf (chosen : List Nat) : Nat → List ValidatorDescr → List Hole
  | _, [] => []
  | b, v :: vs => if b ∈ chosen then (v.cumWeight, v.weight.val) :: holesOf chosen (b + 1) vs
      else holesOf chosen (b + 1) vs

theorem Laid.holes_ge : ∀ hole ∈ holesOf chosen b vs, c ≤ hole.1 := by
  induction vs generalizing c b with
  | nil => nofun
  | cons v vs ih =>
    intro hole member
    have later : ∀ hole ∈ holesOf chosen (b + 1) vs, c ≤ hole.1 :=
      fun hole there => le_trans (Nat.le_add_right c v.weight) (ih laid.2.2 hole there)
    unfold holesOf at member
    split at member
    · cases member with
      | head => exact laid.1.ge
      | tail _ there => exact later hole there
    · exact later hole member

end

theorem skipHoles_of_lt {p : Nat} (ahead : ∀ hole ∈ holes, p < hole.1) : skipHoles holes p = p := by
  cases holes with
  | nil => rfl
  | cons hole holes => exact if_pos (ahead hole (List.mem_cons_self ..))

/-- The weights of a list that starts at place `b`. -/
def WeightsFrom (weight : Nat → Nat) (b : Nat) (vs : List ValidatorDescr) : Prop :=
  ∀ j v, vs[j]? = some v → weight (b + j) = v.weight.val

theorem WeightsFrom.tail (weights : WeightsFrom weight b (v :: vs)) : WeightsFrom weight (b + 1) vs := by
  intro j w found
  rw [Nat.add_right_comm]
  exact weights (j + 1) w found

theorem WeightsFrom.sum_eq (weights : WeightsFrom weight b vs) (c : Nat) :
    c + weightSum weight (List.range' b vs.length) = laidEnd c vs := by
  induction vs generalizing b c with
  | nil => rfl
  | cons v vs ih =>
    have here : weight b = v.weight.val := weights 0 v rfl
    rw [laidEnd, ← ih weights.tail (c + v.weight), List.length_cons, List.range'_succ]
    simp [weightSum, here, Nat.add_assoc]

/-- The moved position lies in the validator that holds the drawn position among those left. -/
theorem Laid.skipHoles_holder {q : Nat} (laid : Laid c vs) (weights : WeightsFrom weight b vs)
    (bounded : laidEnd c vs < 2 ^ 64)
    (inside : q < weightSum weight ((List.range' b vs.length).filter fun i => decide (i ∉ chosen))) :
    ∃ k v r, holder weight ((List.range' b vs.length).filter fun i => decide (i ∉ chosen)) q = some (b + k) ∧
      b + k ∉ chosen ∧ vs[k]? = some v ∧ r < v.weight.val ∧
      skipHoles (holesOf chosen b vs) (c + q) = v.cumWeight + r := by
  induction vs generalizing c b q with
  | nil => simp [weightSum] at inside
  | cons v vs ih =>
    have here : weight b = v.weight.val := weights 0 v rfl
    have shift (k : Nat) : b + 1 + k = b + (k + 1) := by omega
    rw [List.length_cons, List.range'_succ] at inside ⊢
    by_cases taken : b ∈ chosen
    · rw [List.filter_cons_of_neg (by simpa using taken)] at inside ⊢
      obtain ⟨k, w, r, holds, free, found, within, moved⟩ := ih laid.2.2 weights.tail bounded inside
      rw [shift] at holds free
      refine ⟨k + 1, w, r, holds, free, found, within, ?_⟩
      -- no overflow: the moved position still lies before the end of the list
      have small : c + q + v.weight.val < 2 ^ 64 := by
        have part := weightSum_filter_le weight (List.range' (b + 1) vs.length) fun i => decide (i ∉ chosen)
        have whole := weights.tail.sum_eq (c + v.weight.val)
        have limit : laidEnd (c + v.weight) vs < 2 ^ 64 := bounded
        omega
      rw [holesOf, if_pos taken, skipHoles, if_neg (by rw [laid.1]; omega), Nat.mod_eq_of_lt small,
        Nat.add_right_comm]
      exact moved
    · rw [List.filter_cons_of_pos (by simpa using taken)] at inside ⊢
      rw [holesOf, if_neg taken, holder, here]
      by_cases first : q < v.weight.val
      · refine ⟨0, v, q, if_pos first, taken, rfl, first, ?_⟩
        rw [laid.1]
        apply skipHoles_of_lt
        intro hole member
        have ahead := laid.2.2.holes_ge hole member
        omega
      · have rest : q - v.weight.val <
            weightSum weight ((List.range' (b + 1) vs.length).filter fun i => decide (i ∉ chosen)) := by
          simp only [weightSum, List.map_cons, List.sum_cons] at inside ⊢
          omega
        obtain ⟨k, w, r, holds, free, found, within, moved⟩ := ih laid.2.2 weights.tail bounded rest
        rw [shift] at holds free
        refine ⟨k + 1, w, r, by rw [if_neg first]; exact holds, free, found, within, ?_⟩
        rw [← moved]
        congr 1
        omega

theorem check_bind {α : Type} {condition : Prop} [Decidable condition] (holds : condition) {name : Check}
    (next : Unit → Except Check α) : (check condition name >>= next) = next () := by
  rw [check, if_pos holds]
  rfl

theorem Hole.before_asymm {a b : Hole} (before : Hole.before a b = true) : Hole.before b a = false := by
  unfold Hole.before at before ⊢
  simp only [decide_eq_true_eq, decide_eq_false_iff_not] at before ⊢
  omega

/-- A hole that lies between two parts of the list is put between them. -/
theorem insertHole_between {front back : List Hole} {hole : Hole} (after : ∀ h ∈ front, Hole.before h hole = true)
    (ahead : ∀ h ∈ back, Hole.before hole h = true) :
    insertHole (front ++ back) hole = .ok (front ++ hole :: back) := by
  have position : upperBound (fun h => Hole.before hole h) (front ++ back) = front.length := by
    unfold upperBound
    have passed : ∀ h ∈ front, (!Hole.before hole h) = true := by
      intro h member
      rw [Hole.before_asymm (after h member)]
      rfl
    rw [List.takeWhile_append_of_pos passed, List.length_append]
    cases back with
    | nil => rfl
    | cons next back =>
      rw [List.takeWhile_cons_of_neg (by simp [ahead next (List.mem_cons_self ..)])]
      rfl
  have increasing : front.length = 0 ∨ ((front ++ back)[front.length - 1]?.all fun h => Hole.before h hole) = true := by
    cases front.eq_nil_or_concat with
    | inl empty => exact .inl (by rw [empty]; rfl)
    | inr last =>
      obtain ⟨init, h, rfl⟩ := last
      refine .inr ?_
      have there : (init.concat h ++ back)[(init.concat h).length - 1]? = some h := by simp
      rw [there]
      exact after h (by simp)
  unfold insertHole
  simp only [position]
  rw [check_bind increasing, List.take_left, List.drop_left]

/-- The holes split at the place of a validator that is not taken. -/
theorem Laid.holes_split (laid : Laid c vs) (found : vs[k]? = some v)
    (free : b + k ∉ chosen) :
    ∃ front back, holesOf chosen b vs = front ++ back ∧
      holesOf (chosen ++ [b + k]) b vs = front ++ (v.cumWeight, v.weight.val) :: back ∧
      (∀ h ∈ front, h.1 < v.cumWeight) ∧ ∀ h ∈ back, v.cumWeight < h.1 := by
  induction vs generalizing c b k with
  | nil => cases found
  | cons head vs ih =>
    cases k with
    | zero =>
      cases found
      have same : holesOf (chosen ++ [b]) (b + 1) vs = holesOf chosen (b + 1) vs := by
        clear ih laid free
        generalize next : b + 1 = start
        have above : b < start := by omega
        clear next
        induction vs generalizing start with
        | nil => rfl
        | cons w vs ih =>
          have other : start ≠ b := by omega
          simp [holesOf, ih (start + 1) (by omega), other]
      refine ⟨[], holesOf chosen (b + 1) vs, ?_, ?_, ?_, ?_⟩
      · rw [holesOf, if_neg (by simpa using free), List.nil_append]
      · rw [Nat.add_zero, holesOf, if_pos (by simp), same, List.nil_append]
      · nofun
      · intro h member
        have ahead := laid.2.2.holes_ge h member
        have positive := laid.2.1
        rw [laid.1]
        omega
    | succ k =>
      have shift : b + (k + 1) = b + 1 + k := by omega
      rw [shift] at free ⊢
      obtain ⟨front, back, without, with_, before, behind⟩ := ih laid.2.2 found free
      have start := laid.2.2.cum_ge v (List.mem_of_getElem? found)
      have positive := laid.2.1
      have other : b ≠ b + 1 + k := by omega
      by_cases taken : b ∈ chosen
      · refine ⟨(head.cumWeight, head.weight.val) :: front, back, ?_, ?_, ?_, behind⟩
        · rw [holesOf, if_pos taken, without, List.cons_append]
        · rw [holesOf, if_pos (by simp [taken]), with_, List.cons_append]
        · intro h member
          cases member with
          | head =>
            rw [laid.1]
            omega
          | tail _ there => exact before h there
      · refine ⟨front, back, ?_, ?_, before, behind⟩
        · rw [holesOf, if_neg taken, without]
        · rw [holesOf, if_neg (by simp [taken, other]), with_]

/-- The hole of a validator that is not taken finds its place. -/
theorem Laid.insertHole_eq (laid : Laid c vs) (found : vs[k]? = some v)
    (free : b + k ∉ chosen) :
    insertHole (holesOf chosen b vs) (v.cumWeight, v.weight.val) = .ok (holesOf (chosen ++ [b + k]) b vs) := by
  obtain ⟨front, back, without, with_, before, behind⟩ := laid.holes_split found free
  rw [without, with_]
  apply insertHole_between
  · intro h member
    have lower := before h member
    simp [Hole.before, lower]
  · intro h member
    have upper := behind h member
    simp [Hole.before, upper]

variable {vset : ValidatorSet}

/-- The invariant of the loop that reads the validators. -/
structure ReadSoFar (i : Nat) (vset : ValidatorSet) : Prop where
  count : vset.list.length = i
  laid : Laid 0 vset.list
  sum : vset.totalWeight = laidEnd 0 vset.list
  bounded : vset.totalWeight < 2 ^ 64

/-- What `unpack_validator_set` ensures. -/
abbrev WellFormed (vset : ValidatorSet) : Prop := ReadSoFar vset.total vset

theorem weightsFrom (list : List ValidatorDescr) : WeightsFrom (weightAt list) 0 list := by
  intro j v found
  rw [Nat.zero_add, weightAt, found]
  rfl

theorem WellFormed.weight_pos (wf : WellFormed vset) : ∀ i < vset.total, 0 < weightAt vset.list i := by
  intro i inside
  rw [← wf.count] at inside
  rw [weightAt, List.getElem?_eq_getElem inside]
  exact wf.laid.weight_pos _ (List.getElem_mem inside)

theorem remaining_eq_range' (n : Nat) (chosen : List Nat) :
    remaining n chosen = (List.range' 0 n).filter fun i => decide (i ∉ chosen) := by
  rw [remaining, List.range_eq_range']

/-- The state of the loop when the given places are taken. -/
def drawState (vset : ValidatorSet) (chosen : List Nat) : Draw where
  holes := holesOf chosen 0 vset.list
  totalWt := weightSum (weightAt vset.list) (remaining vset.total chosen)

theorem nextRanged_lt {range : Nat} (positive : 0 < range) (word : Uint 64) : nextRanged range word < range := by
  unfold nextRanged
  rw [Nat.div_lt_iff_lt_mul (by decide)]
  exact Nat.mul_lt_mul_of_pos_left word.isLt positive

theorem drawOne_ok {s : Draw} {word place : Nat} {entry : ValidatorDescr} (positive : 0 < s.totalWt)
    (looked : atWeight vset (skipHoles s.holes (nextRanged s.totalWt word)) = .ok (place, entry))
    (enough : entry.weight.val ≤ s.totalWt)
    (hole : insertHole s.holes (entry.cumWeight, entry.weight.val) = .ok holes) :
    drawOne vset s word = .ok ((place, entry), { holes, totalWt := s.totalWt - entry.weight }) := by
  unfold drawOne
  rw [check_bind positive]
  simp only [looked]
  show (check _ _ >>= fun _ => insertHole s.holes _ >>= _) = _
  rw [check_bind enough, hole]
  rfl

/-- One round takes the holder of the drawn position. -/
theorem drawOne_eq (wf : WellFormed vset) (chosen : List Nat) (few : chosen.length < vset.total) (word : Uint 64) :
    ∃ k v, vset.list[k]? = some v ∧ k ∉ chosen ∧
      holder (weightAt vset.list) (remaining vset.total chosen)
        (weightSum (weightAt vset.list) (remaining vset.total chosen) * word / 2 ^ 64) = some k ∧
      drawOne vset (drawState vset chosen) word = .ok ((k, v), drawState vset (chosen ++ [k])) := by
  have positive := weightSum_remaining_pos wf.weight_pos few
  have inside := nextRanged_lt positive word
  rw [remaining_eq_range', ← wf.count] at inside
  have limit : laidEnd 0 vset.list < 2 ^ 64 := wf.sum ▸ wf.bounded
  obtain ⟨k, v, r, holds, free, found, within, moved⟩ :=
    wf.laid.skipHoles_holder (weightsFrom vset.list) limit inside
  rw [Nat.zero_add] at holds free moved
  rw [wf.count, ← remaining_eq_range'] at holds moved
  have place : k < vset.total := by
    rw [← wf.count]
    exact (List.getElem?_eq_some_iff.mp found).1
  have entry : weightAt vset.list k = v.weight.val := by
    rw [weightAt, found]
    rfl
  have taken := weightSum_remaining_snoc (weightAt vset.list) (mem_remaining.mpr ⟨place, free⟩)
  have position : v.cumWeight + r < vset.totalWeight := by
    have ends := wf.laid.cum_lt_end found
    rw [wf.sum]
    omega
  have looked : atWeight vset (v.cumWeight + r) = .ok (k, v) := by
    unfold atWeight
    rw [check_bind position, wf.laid.upperBound_eq found within]
    simp [found]
  have hole : insertHole (holesOf chosen 0 vset.list) (v.cumWeight, v.weight.val) =
      .ok (holesOf (chosen ++ [0 + k]) 0 vset.list) := wf.laid.insertHole_eq found (by rwa [Nat.zero_add])
  rw [Nat.zero_add] at hole
  have enough : v.weight.val ≤ weightSum (weightAt vset.list) (remaining vset.total chosen) := by omega
  refine ⟨k, v, found, free, holds, ?_⟩
  have round := drawOne_ok (s := drawState vset chosen) positive (by rw [← looked]; exact congrArg _ moved) enough hole
  rw [round]
  congr 2
  congr 1
  show weightSum (weightAt vset.list) (remaining vset.total chosen) - v.weight.val = _
  omega

/-- All rounds together take a proper sample of the places that are left. -/
theorem drawAll_eq (wf : WellFormed vset) (words : Nat → Uint 64) {count : Nat} (few : chosen.length + count ≤ vset.total) (i : Nat) :
    ∃ more, drawAll vset words count i (drawState vset chosen) = .ok more ∧ more.length = count ∧
      (∀ e ∈ more, vset.list[e.1]? = some e.2 ∧ e.1 ∉ chosen) ∧ (more.map Prod.fst).Nodup ∧
      ∀ j < count, (more.map Prod.fst)[j]? =
        holder (weightAt vset.list) (remaining vset.total (chosen ++ (more.map Prod.fst).take j))
          (weightSum (weightAt vset.list) (remaining vset.total (chosen ++ (more.map Prod.fst).take j)) *
            words (i + j) / 2 ^ 64) := by
  induction count generalizing chosen i with
  | zero => exact ⟨[], rfl, rfl, by simp, List.nodup_nil, by simp⟩
  | succ count ih =>
    obtain ⟨k, v, found, free, holds, round⟩ := drawOne_eq wf chosen (by omega) (words i)
    have fewer : (chosen ++ [k]).length + count ≤ vset.total := by
      rw [List.length_append, List.length_singleton]
      omega
    obtain ⟨more, rest, size, entries, distinct, drawn⟩ := ih fewer (i + 1)
    refine ⟨(k, v) :: more, ?_, by rw [List.length_cons, size], ?_, ?_, ?_⟩
    · rw [drawAll, round]
      show (drawAll vset words count (i + 1) (drawState vset (chosen ++ [k])) >>= _) = _
      rw [rest]
      rfl
    · intro e member
      cases member with
      | head => exact ⟨found, free⟩
      | tail _ later =>
        obtain ⟨there, unused⟩ := entries e later
        exact ⟨there, fun old => unused (List.mem_append_left _ old)⟩
    · rw [List.map_cons, List.nodup_cons]
      refine ⟨?_, distinct⟩
      intro again
      obtain ⟨e, member, same⟩ := List.mem_map.mp again
      exact (entries e member).2 (by simp [same])
    · intro j inside
      cases j with
      | zero => simpa using holds.symm
      | succ j =>
        have later := drawn j (by omega)
        rw [List.append_assoc, List.singleton_append, Nat.add_assoc i 1 j, Nat.add_comm 1 j] at later
        exact later

theorem filterMap_places {drawn : List (Nat × ValidatorDescr)}
    (entries : ∀ e ∈ drawn, vset.list[e.1]? = some e.2) :
    (drawn.map Prod.fst).filterMap (fun i => (vset.list[i]?).map shardNode) = drawn.map fun e => shardNode e.2 := by
  induction drawn with
  | nil => rfl
  | cons e drawn ih =>
    have here := entries e (List.mem_cons_self ..)
    rw [List.map_cons, List.filterMap_cons, here, ih fun e member => entries e (List.mem_cons_of_mem _ member)]
    rfl

/-- A shard's group is a proper sample. -/
theorem WellFormed.sampled (wf : WellFormed vset) (shardValNum : Uint 32) {shard : ShardIdFull}
    (workchain : shard.workchain ≠ masterchainId) (words : Nat → Uint 64) :
    ∃ group, doComputeValidatorSet shardValNum shard vset words = .ok group ∧
      SampledGroup vset (min shardValNum vset.total) words group := by
  unfold doComputeValidatorSet
  rw [check_bind wf.count.symm]
  simp only [decide_eq_true_eq, if_neg workchain]
  by_cases none : min shardValNum.val vset.total = 0
  · rw [if_pos none]
    refine ⟨[], rfl, [], ⟨none.symm, List.nodup_nil, ?_⟩, rfl⟩
    intro i inside
    rw [none] at inside
    exact absurd inside (Nat.not_lt_zero i)
  rw [if_neg none]
  have few : ([] : List Nat).length + min shardValNum.val vset.total ≤ vset.total := by
    rw [List.length_nil, Nat.zero_add]
    exact Nat.min_le_right _ _
  obtain ⟨drawn, rounds, size, entries, distinct, positions⟩ := drawAll_eq wf words few 0
  have start : drawState vset [] = { holes := [], totalWt := vset.totalWeight } := by
    have noHoles : holesOf [] 0 vset.list = [] := by
      generalize 0 = b
      induction vset.list generalizing b with
      | nil => rfl
      | cons _ _ ih => exact ih (b + 1)
    have all : weightSum (weightAt vset.list) (remaining vset.total []) = vset.totalWeight := by
      have whole := (weightsFrom vset.list).sum_eq 0
      rw [Nat.zero_add, wf.count, ← wf.sum, ← List.range_eq_range'] at whole
      rw [← whole, remaining]
      simp
    rw [drawState, noHoles, all]
  rw [start] at rounds
  refine ⟨drawn.map fun e => shardNode e.2, ?_, drawn.map Prod.fst, ⟨by rw [List.length_map, size], distinct, ?_⟩, ?_⟩
  · show (drawAll vset words _ 0 _ >>= _) = _
    rw [rounds]
    rfl
  · intro i inside
    have drawnAt := positions i inside
    rwa [List.nil_append, Nat.zero_add] at drawnAt
  · rw [filterMap_places fun e member => (entries e member).1]

variable {ε α β : Type} {dict : Cell} {ptr after : ValidatorSet}

theorem addValidator_read (read : ReadSoFar i ptr) (h : addValidator dict i ptr = .ok after) :
    ReadSoFar (i + 1) after ∧ after.total = ptr.total ∧ after.main = ptr.main := by
  obtain ⟨found, -, h⟩ := of_bind h
  cases found with
  | none => cases h
  | some descrCs =>
    obtain ⟨⟨publicKey, weight, adnlAddr⟩, -, h⟩ := of_bind h
    obtain ⟨pubkey, -, h⟩ := of_bind h
    split at h
    · cases h
    rename_i nonzero
    split at h
    · cases h
    rename_i fits
    cases h
    have sum : (ptr.totalWeight + weight.val) % 2 ^ 64 = ptr.totalWeight + weight.val :=
      Nat.mod_eq_of_lt (by omega)
    refine ⟨⟨by simp [read.count], ?_, ?_, Nat.mod_lt _ (by decide)⟩, rfl, rfl⟩
    · exact read.laid.append read.sum (Nat.pos_of_ne_zero nonzero)
    · show (ptr.totalWeight + weight.val) % 2 ^ 64 = _
      rw [sum, laidEnd_append, read.sum]

theorem addValidators_read {left : Nat} (read : ReadSoFar i ptr) (h : addValidators dict left i ptr = .ok after) :
    ReadSoFar (i + left) after ∧ after.total = ptr.total ∧ after.main = ptr.main := by
  induction left generalizing i ptr with
  | zero =>
    cases h
    exact ⟨read, rfl, rfl⟩
  | succ left ih =>
    rw [addValidators, bind_success] at h
    obtain ⟨next, one, h⟩ := h
    obtain ⟨read, total, main⟩ := addValidator_read read one
    obtain ⟨read, total', main'⟩ := ih read h
    rw [Nat.add_right_comm] at read
    exact ⟨read, total'.trans total, main'.trans main⟩

theorem unpackRecord_wellFormed {rec : Record} (h : unpackRecord rec = .ok vset) :
    WellFormed vset ∧ vset.total = rec.total ∧ vset.main = if 0 < rec.main.val then rec.main.val else rec.total := by
  unfold unpackRecord at h
  split at h
  · cases h
  obtain ⟨⟨last, value⟩, -, h⟩ := of_bind h
  dsimp only at h
  split at h
  · cases h
  obtain ⟨ptr, loop, h⟩ := of_bind h
  have start : ReadSoFar 0 (.new rec.utimeSince rec.utimeUntil rec.total rec.main) :=
    ⟨rfl, trivial, rfl, Nat.two_pow_pos 64⟩
  obtain ⟨read, total, main⟩ := addValidators_read start loop
  split at h
  · cases h
  cases h
  rw [Nat.zero_add] at read
  exact ⟨⟨read.count.trans total.symm, read.laid, read.sum, read.bounded⟩, total, main⟩

/-- An accepted validator set is well formed. -/
theorem unpack_wellFormed {root : Option Cell} (h : unpackValidatorSet root = .ok vset) : WellFormed vset := by
  unfold unpackValidatorSet at h
  split at h
  · cases h
  split at h
  · split at h
    · cases h
    · exact (unpackRecord_wellFormed h).1
  · obtain ⟨rec, -, h⟩ := of_bind h
    exact (unpackRecord_wellFormed h).1

end Weights

/-- The group of every shard outside of the masterchain is a proper sample of `min(shard_val_num, total)`
validators, and the group of the masterchain is the head of the list with `min(main, total)` validators;
no `CHECK` fails. -/
theorem groups_sampled (root : Option Cell) (vset : ValidatorSet) (unpacked : unpackValidatorSet root = .ok vset)
    (shardValNum : Uint 32) (shard : ShardIdFull) (words : Nat → Uint 64) :
    ∃ group, doComputeValidatorSet shardValNum shard vset words = .ok group ∧
      if shard.workchain = masterchainId then
        group = (vset.list.take (min vset.main vset.total)).map mainNode
      else SampledGroup vset (min shardValNum vset.total) words group := by
  have wf := unpack_wellFormed unpacked
  by_cases mc : shard.workchain = masterchainId
  · simp only [if_pos mc]
    unfold doComputeValidatorSet
    rw [check_bind wf.count.symm]
    simp only [mc, decide_true, if_true]
    by_cases none : min vset.main vset.total = 0
    · rw [if_pos none, none]
      exact ⟨[], rfl, rfl⟩
    · rw [if_neg none]
      exact ⟨_, rfl, rfl⟩
  · simp only [if_neg mc]
    exact wf.sampled shardValNum mc words

/-- `validator#53` with a key and a weight. -/
def sampleDescr (key weight : Nat) : Slice :=
  ⟨bitsOf 8 0x53 ++ bitsOf 32 0x8e81278a ++ bitsOf 256 key ++ bitsOf 64 weight, []⟩

/-- Two validators with weights 3 and 5, both for the masterchain. -/
def sampleRoot : Option Cell :=
  match Hashmap.udictSet 16 none 0 (sampleDescr 7 3) with
  | .ok one =>
    match Hashmap.udictSet 16 one 1 (sampleDescr 9 5) with
    | .ok (some two) => some (.mk (bitsOf 8 0x12 ++ bitsOf 32 100 ++ bitsOf 32 200 ++ bitsOf 16 2 ++ bitsOf 16 2 ++
        bitsOf 64 8 ++ [true]) [two])
    | _ => none
  | _ => none

def sampleSet : ValidatorSet where
  utimeSince := 100
  utimeUntil := 200
  total := 2
  main := 2
  totalWeight := 8
  list := [⟨7, 0, 3, 0⟩, ⟨9, 0, 5, 3⟩]

theorem sample_unpacked : unpackValidatorSet sampleRoot = .ok sampleSet := by
  decide +kernel

/-- The masterchain does not look at `shard_val_num`. -/
theorem masterchain_group_size :
    unpackValidatorSet sampleRoot = .ok sampleSet ∧
      ¬ ∃ group, doComputeValidatorSet 1 ⟨masterchainId, shardIdAll⟩ sampleSet (fun _ => 0) = .ok group ∧
        group.length = min 1 sampleSet.total := by
  refine ⟨sample_unpacked, ?_⟩
  rintro ⟨group, computed, size⟩
  cases computed
  cases size

/-- A group of the basic workchain. -/
theorem groups_sampled_basic :
    unpackValidatorSet sampleRoot = .ok sampleSet ∧
      ∃ group, doComputeValidatorSet 7 ⟨0, shardIdAll⟩ sampleSet (fun i => Fin.ofNat _ (2 ^ 63 + i)) = .ok group ∧
        if (0 : WorkchainId) = masterchainId then
          group = (sampleSet.list.take (min sampleSet.main sampleSet.total)).map mainNode
        else SampledGroup sampleSet (min (7 : Uint 32).val sampleSet.total) (fun i => Fin.ofNat _ (2 ^ 63 + i)) group :=
  ⟨sample_unpacked, groups_sampled sampleRoot sampleSet sample_unpacked 7 ⟨0, shardIdAll⟩ _⟩

end TonStaking.Guarantees.ValidatorGroups
