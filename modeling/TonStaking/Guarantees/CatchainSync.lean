import Mathlib.Algebra.Order.BigOperators.Group.Finset
import TonStaking.Source.Catchain.Receiver

/-!
# What a synchronisation asks for and sends

`synchronize_with` repeats the height of the asked source for every source, and the
answer sends up to `r` blocks of a source, where `r` may be too many.
-/
namespace TonStaking.Guarantees.CatchainSync
open Source.Catchain

variable {H B : Type} {n : Nat}

theorem narrow_cases (sum : Nat → Nat) (l r : Nat) : narrow sum l r = r ∨ maxSend < sum (narrow sum l r) := by
  fun_induction narrow sum l r with
  | case1 l r _ beyond ih =>
    refine .inr (ih.elim (fun last => ?_) id)
    rw [last]
    exact beyond
  | case2 _ _ _ _ ih => exact ih
  | case3 _ r => exact .inl rfl

/-- The answer stays within `maxSend` only if it holds nothing back. -/
theorem sum_sendCount (r : Receiver H B n) (vt : Fin n → Int) :
    ∑ i, sendCount r vt i ≤ maxSend ↔ ∑ i, gap (vt i) (r i) ≤ maxSend := by
  have bound : ∑ i, sendCount r vt i ≤ ∑ i, gap (vt i) (r i) :=
    Finset.sum_le_sum fun i _ => min_le_left _ _
  refine ⟨fun small => ?_, bound.trans⟩
  rcases narrow_cases (sumUpTo r vt) 0 (maxSend + 1) with last | beyond
  · refine (Finset.sum_le_sum fun i _ => ?_).trans small
    have single := Finset.single_le_sum (fun j _ => Nat.zero_le (sendCount r vt j)) (Finset.mem_univ i)
    rw [sendCount, last] at single ⊢
    omega
  · exact absurd small (Nat.not_le.mpr beyond)

theorem sendCount_pos {r : Receiver H B n} {vt : Fin n → Int} {i : Fin n} (missing : 0 < gap (vt i) (r i)) :
    0 < sendCount r vt i := by
  refine lt_min missing (Nat.pos_of_ne_zero fun zero => ?_)
  rcases narrow_cases (sumUpTo r vt) 0 (maxSend + 1) with last | beyond
  · omega
  · simp [zero, sumUpTo] at beyond

theorem mapM_range' {f : Nat → Option B} (t s : Nat) (known : ∀ h, s ≤ h → h < s + t → (f h).isSome) :
    ∃ l, (List.range' s t).mapM f = some l ∧ l.length = t := by
  induction t generalizing s with
  | zero => exact ⟨[], rfl, rfl⟩
  | succ t ih =>
    obtain ⟨b, first⟩ := Option.isSome_iff_exists.mp (known s le_rfl (by omega))
    obtain ⟨l, later, len⟩ := ih (s + 1) fun h above below => known h (by omega) (by omega)
    exact ⟨b :: l, by simp [List.range'_succ, first, later], by simp [len]⟩

theorem run_some {S : SourceState H B} (unblamed : S.blamed = false) (v t : Nat) (le : t ≤ gap v S) :
    ∃ l, S.run v t = some l ∧ l.length = t := by
  refine mapM_range' t _ fun h above below => S.holds unblamed h (by omega) ?_
  simp [gap] at le below
  omega

/-- Without blamed sources the answer sends the next blocks of each source. -/
theorem processQuery_sends (r : Receiver H B n) (unblamed : ∀ i, (r i).blamed = false) (own : Fin n → Nat) :
    ∃ sent, processQuery r (List.ofFn fun i => (own i : Int)) =
        .ok (.difference sent fun i => own i + (sent i).length) ∧
      ∀ i, (sent i).length = sendCount r (fun i => own i) i ∧ (r i).run (own i) (sent i).length = some (sent i) := by
  have runs i := run_some (unblamed i) (own i) (sendCount r (fun i => own i) i) (min_le_left _ _)
  choose sent run len using runs
  have noFork : knownFork r (fun i => own i) = none := by
    refine List.findSome?_eq_none_iff.mpr fun i _ => ?_
    have proof := (r i).blames
    simp_all
  refine ⟨sent, ?_, fun i => ⟨len i, by rw [len, run]⟩⟩
  simp [processQuery, noFork, run, len]

/-- The request names the requester's heights; the answer is a run of blocks for each source
that starts right above them, and the heights these reach. -/
structure Synchronises (requester responder : Receiver H B n) (peer : Fin n) : Prop where
  asks : synchronizeWith requester peer = List.ofFn fun i => ((requester i).deliveredHeight : Int)
  answers : ∃ sent, processQuery responder (synchronizeWith requester peer) =
        .ok (.difference sent fun i => (requester i).deliveredHeight + (sent i).length) ∧
      (∀ i, (responder i).run (requester i).deliveredHeight (sent i).length = some (sent i)) ∧
      ∑ i, (sent i).length ≤ maxSend ∧
      ((∃ i, (requester i).deliveredHeight < (responder i).deliveredHeight) → ∃ i, sent i ≠ [])

theorem synchronises_iff (requester responder : Receiver H B n) (peer : Fin n)
    (unblamed : ∀ i, (requester i).blamed = false ∧ (responder i).blamed = false) :
    Synchronises requester responder peer ↔
      (∀ i, (requester i).deliveredHeight = (requester peer).deliveredHeight) ∧
      ∑ i, ((responder i).deliveredHeight - (requester i).deliveredHeight) ≤ maxSend := by
  obtain ⟨sent, answer, spec⟩ :=
    processQuery_sends responder (fun i => (unblamed i).2) fun i => (requester i).deliveredHeight
  have total : ∑ i, (sent i).length ≤ maxSend ↔
      ∑ i, ((responder i).deliveredHeight - (requester i).deliveredHeight) ≤ maxSend := by
    simp [spec, sum_sendCount, gap]
  have request : synchronizeWith requester peer =
      List.ofFn fun _ : Fin n => ((requester peer).deliveredHeight : Int) := by
    simp [synchronizeWith, unblamed]
  constructor
  · rintro ⟨asks, sent', answer', -, small, -⟩
    rw [asks, answer] at answer'
    simp at answer'
    obtain ⟨rfl, -⟩ := answer'
    refine ⟨fun i => ?_, total.mp small⟩
    have same := congrFun (List.ofFn_injective (request.symm.trans asks)) i
    exact_mod_cast same.symm
  · rintro ⟨same, small⟩
    have asks : synchronizeWith requester peer =
        List.ofFn fun i => ((requester i).deliveredHeight : Int) := by
      rw [request]
      simp [same]
    refine ⟨asks, sent, by rw [asks, answer], fun i => (spec i).2, total.mpr small, ?_⟩
    rintro ⟨i, missing⟩
    refine ⟨i, List.ne_nil_of_length_pos ?_⟩
    rw [(spec i).1]
    exact sendCount_pos (by simp [gap]; omega)

/-- A source whose blocks are their heights. -/
def sampleSource (height : Fin 1000) : SourceState Unit Nat where
  blamed := false
  forkProof := none
  deliveredHeight := height
  blocks := some
  fits := by omega
  blames := by simp
  holds := by simp

theorem synchronises_level : (sampleSource 4).blamed = false ∧
    Synchronises (fun _ : Fin 2 => sampleSource 4) (fun _ => sampleSource 6) 0 :=
  ⟨rfl, (synchronises_iff _ _ 0 fun _ => ⟨rfl, rfl⟩).mpr ⟨fun _ => rfl, by decide⟩⟩

/-- The asked source is one block ahead of another, whose next block is not asked for; and 150
missing blocks of one source are answered with more than `maxSend`. -/
theorem block_not_asked :
    synchronizeWith ![sampleSource 1, sampleSource 0] 0 = [1, 1] ∧
      maxSend < ∑ i : Fin 1, sendCount (fun _ => sampleSource 150) (fun _ => 0) i := by
  refine ⟨by decide, ?_⟩
  rw [← not_le, sum_sendCount]
  decide

end TonStaking.Guarantees.CatchainSync
