import Mathlib.Data.Set.Disjoint
import TonStaking.Source.Shard.Encoding

/-!
# Shard identifiers and sets of accounts

The functions on shard identifiers agree with the sets of accounts, except that
the test whether one shard contains another takes the second one for an account:
a proper ancestor whose identifier begins with the prefix of the first shard
passes it. In block data, a shard built from a prefix and its length is never the
one built from its identifier, and the end marker may be stored or not.
-/
namespace TonStaking.Guarantees.ShardTree

open BitVec TonStaking.Word TonStaking.Source.Shard

/-- The identifiers in use: prefixes of at most 60 bits. -/
def ValidShard (s : ShardId) : Prop := s ≠ 0 ∧ shardPrefixLength s ≤ 60

instance (s : ShardId) : Decidable (ValidShard s) := inferInstanceAs (Decidable (_ ∧ _))

/-- The accounts of a shard of a workchain. -/
def accountsOf (x : ShardIdFull) : Set AccountIdPrefixFull :=
  { a | a.workchain = x.workchain ∧ a.accountIdPrefix ∈ accounts x.shard }

/-- The accounts of the last shard are divided between the others. -/
def Halves (l r x : ShardIdFull) : Prop :=
  accountsOf l ∪ accountsOf r = accountsOf x ∧ Disjoint (accountsOf l) (accountsOf r)

/-- The children of a shard are its left and its right half. -/
def ChildrenAgree (x : ShardIdFull) : Prop :=
  ∃ l r, x.child true = some l ∧ x.child false = some r ∧ isLeftChild l.shard = true ∧
    isLeftChild r.shard = false ∧ Halves l r x

/-- A shard and its sibling are the children of its parent. -/
def ParentAgrees (x : ShardIdFull) : Prop :=
  ∃ p, x.parent = some p ∧ p.child (isLeftChild x.shard) = some x ∧
    p.child (!isLeftChild x.shard) = some ⟨x.workchain, shardSibling x.shard⟩ ∧
    Halves x ⟨x.workchain, shardSibling x.shard⟩ p

/-- The functions on identifiers, at two shards and an account, are those on sets of accounts. -/
structure Agrees (x y : ShardIdFull) (a : AccountIdPrefixFull) : Prop where
  ancestor : x.isAncestor y = true ↔ accountsOf y ⊆ accountsOf x
  properAncestor : x.isProperAncestor y = true ↔ accountsOf y ⊂ accountsOf x
  containsAccount : x.contains a = true ↔ a ∈ accountsOf x
  containsShard : x.containsShard y = true ↔ accountsOf y ⊆ accountsOf x
  intersects : x.intersects y = true ↔ (accountsOf x ∩ accountsOf y).Nonempty
  intersection : x.intersects y = true → accountsOf (x.intersection y) = accountsOf x ∩ accountsOf y
  children : ChildrenAgree x
  parent : x.shard ≠ shardIdAll → ParentAgrees x
  shardPrefix : ∀ len ≤ shardPrefixLength x.shard, ∃ p, shardPrefix x.shard len = some p ∧
    shardPrefixLength p = len ∧ accounts x.shard ⊆ accounts p
  accountPrefix : ∀ len ≤ 60, shardPrefixLength (accountShardPrefix a.accountIdPrefix len) = len ∧
    a.accountIdPrefix ∈ accounts (accountShardPrefix a.accountIdPrefix len)

section Sets

variable {x y : ShardIdFull} {s : ShardId} {len : Nat}

theorem accountsOf_subset :
    accountsOf y ⊆ accountsOf x ↔ x.workchain = y.workchain ∧ accounts y.shard ⊆ accounts x.shard := by
  constructor
  · intro subset
    have own : ⟨y.workchain, y.shard⟩ ∈ accountsOf y := ⟨rfl, self_mem_accounts y.shard⟩
    have same : y.workchain = x.workchain := (subset own).1
    refine ⟨same.symm, fun a inside => ?_⟩
    exact (subset (⟨rfl, inside⟩ : ⟨y.workchain, a⟩ ∈ accountsOf y)).2
  · rintro ⟨same, subset⟩ a inside
    exact ⟨inside.1.trans same.symm, subset inside.2⟩

theorem accountsOf_inter_nonempty : (accountsOf x ∩ accountsOf y).Nonempty ↔
    x.workchain = y.workchain ∧ (accounts x.shard ∩ accounts y.shard).Nonempty := by
  constructor
  · rintro ⟨a, inX, inY⟩
    exact ⟨inX.1.symm.trans inY.1, a.accountIdPrefix, inX.2, inY.2⟩
  · rintro ⟨same, a, inX, inY⟩
    exact ⟨⟨x.workchain, a⟩, ⟨rfl, inX⟩, same, inY⟩

/-- Two shards with one end marker that agree above the next position and differ there. -/
theorem accounts_split {l r p : ShardId} (hl : l ≠ 0) (hr : r ≠ 0) (hp : p ≠ 0) (lowL : lowest l + 1 = lowest p)
    (lowR : lowest r + 1 = lowest p) (agreeL : AgreeAbove (lowest p) l p) (agreeR : AgreeAbove (lowest p) r p)
    (differ : r.getLsbD (lowest p) = !l.getLsbD (lowest p)) :
    accounts l ∪ accounts r = accounts p ∧ Disjoint (accounts l) (accounts r) := by
  have position := lowest_lt hp
  constructor
  · ext a
    rw [Set.mem_union, mem_accounts hl, mem_accounts hr, mem_accounts hp]
    constructor
    · rintro (inL | inR)
      · exact agreeL.symm.trans (inL.mono (by omega))
      · exact agreeR.symm.trans (inR.mono (by omega))
    · intro inP
      by_cases same : l.getLsbD (lowest p) = a.getLsbD (lowest p)
      · refine .inl fun i above inside => ?_
        by_cases first : i = lowest p
        · exact first ▸ same
        · exact agreeL.trans inP i (by omega) inside
      · refine .inr fun i above inside => ?_
        by_cases first : i = lowest p
        · subst first
          cases bit : l.getLsbD (lowest p) <;> simp_all
        · exact agreeR.trans inP i (by omega) inside
  · rw [Set.disjoint_left]
    intro a inL inR
    rw [mem_accounts hl] at inL
    rw [mem_accounts hr] at inR
    have clash := (inL _ (by omega) position).trans (inR _ (by omega) position).symm
    cases bit : l.getLsbD (lowest p) <;> simp_all

theorem accountsOf_split {l r p : ShardId} (workchain : WorkchainId)
    (split : accounts l ∪ accounts r = accounts p ∧ Disjoint (accounts l) (accounts r)) :
    Halves ⟨workchain, l⟩ ⟨workchain, r⟩ ⟨workchain, p⟩ := by
  constructor
  · ext a
    have member : a.accountIdPrefix ∈ accounts l ∨ a.accountIdPrefix ∈ accounts r ↔ a.accountIdPrefix ∈ accounts p := by
      rw [← split.1, Set.mem_union]
    change (_ ∧ _) ∨ (_ ∧ _) ↔ (_ ∧ _)
    rw [← member, and_or_left]
  · rw [Set.disjoint_left]
    intro a inL inR
    exact Set.disjoint_left.mp split.2 inL.2 inR.2

section

variable (hx : x.shard ≠ 0)
include hx

theorem isAncestor_agrees (hy : y.shard ≠ 0) : x.isAncestor y = true ↔ accountsOf y ⊆ accountsOf x := by
  rw [ShardIdFull.isAncestor, decide_eq_true_eq, shardIsAncestor_eq hx hy, accountsOf_subset]

theorem isProperAncestor_agrees (hy : y.shard ≠ 0) : x.isProperAncestor y = true ↔ accountsOf y ⊂ accountsOf x := by
  rw [ShardIdFull.isProperAncestor, decide_eq_true_eq, shardIsProperAncestor_eq hx hy, Set.ssubset_def, Set.ssubset_def,
    accountsOf_subset, accountsOf_subset]
  constructor
  · rintro ⟨same, subset, notBack⟩
    exact ⟨⟨same, subset⟩, fun back => notBack back.2⟩
  · rintro ⟨⟨same, subset⟩, notBack⟩
    exact ⟨same, subset, fun back => notBack ⟨same.symm, back⟩⟩

theorem contains_agrees (a : AccountIdPrefixFull) : x.contains a = true ↔ a ∈ accountsOf x := by
  rw [ShardIdFull.contains, decide_eq_true_eq, shardContains_iff hx, eq_comm]
  rfl

theorem intersects_agrees (hy : y.shard ≠ 0) : x.intersects y = true ↔ (accountsOf x ∩ accountsOf y).Nonempty := by
  rw [ShardIdFull.intersects, decide_eq_true_eq, shardIntersects_eq hx hy, accountsOf_inter_nonempty]

theorem intersection_agrees (hy : y.shard ≠ 0) (meet : x.intersects y = true) :
    accountsOf (x.intersection y) = accountsOf x ∩ accountsOf y := by
  rw [ShardIdFull.intersects, decide_eq_true_eq, shardIntersects_iff hx hy] at meet
  obtain ⟨same, agree⟩ := meet
  ext a
  have member : a.accountIdPrefix ∈ accounts (shardIntersection x.shard y.shard) ↔
      a.accountIdPrefix ∈ accounts x.shard ∧ a.accountIdPrefix ∈ accounts y.shard := by
    rw [accounts_shardIntersection hx hy agree, Set.mem_inter_iff]
  change (a.workchain = x.workchain ∧ a.accountIdPrefix ∈ accounts (shardIntersection x.shard y.shard)) ↔
    (_ ∧ _) ∧ (_ ∧ _)
  rw [member, ← same]
  constructor
  · rintro ⟨workchain, inX, inY⟩
    exact ⟨⟨workchain, inX⟩, workchain, inY⟩
  · rintro ⟨⟨workchain, inX⟩, -, inY⟩
    exact ⟨workchain, inX, inY⟩

theorem children_agree (room : 0 < lowest x.shard) : ChildrenAgree x := by
  have position := lowest_lt hx
  obtain ⟨l, childL, hl, lowL, agreeL, bitL⟩ := shardChild_spec hx room true
  obtain ⟨r, childR, hr, lowR, agreeR, bitR⟩ := shardChild_spec hx room false
  have split := accounts_split hl hr hx lowL lowR agreeL agreeR (by rw [bitL, bitR]; rfl)
  refine ⟨⟨x.workchain, l⟩, ⟨x.workchain, r⟩, ?_, ?_, ?_, ?_, accountsOf_split x.workchain split⟩
  · rw [ShardIdFull.child, childL]
    rfl
  · rw [ShardIdFull.child, childR]
    rfl
  · rw [isLeftChild, isRightChild_iff hl (by omega), lowL, bitL]
    rfl
  · rw [isLeftChild, isRightChild_iff hr (by omega), lowR, bitR]
    rfl

end

theorem lowest_lt_of_ne_all (nonzero : s ≠ 0) (proper : s ≠ shardIdAll) : lowest s < 63 := by
  have position := lowest_lt nonzero
  by_contra high
  have last : lowest s = 63 := by omega
  refine proper (eq_of_agree nonzero (twoPow_ne_zero (by decide)) ?_ fun i above inside => by omega)
  exact last.trans (lowest_eq (by decide) (by decide)).symm

theorem parent_agrees (hx : x.shard ≠ 0) (proper : x.shard ≠ shardIdAll) : ParentAgrees x := by
  have short := lowest_lt_of_ne_all hx proper
  obtain ⟨p, parent, hp, lowP, agreeP⟩ := shardParent_spec hx short
  obtain ⟨hs, lowS, agreeS, bitS⟩ := shardSibling_spec hx short
  rw [← lowP] at agreeS bitS
  have side : isLeftChild x.shard = !x.shard.getLsbD (lowest p) := by
    rw [isLeftChild, isRightChild_iff hx short, lowP]
  -- a child of the parent is determined by its bit at the end marker of the parent
  have childIs : ∀ (c : ShardId) (left : Bool), c ≠ 0 → lowest c = lowest x.shard → AgreeAbove (lowest p) c p →
      c.getLsbD (lowest p) = (!left) → shardChild p left = some c := by
    intro c left hc lowC agreeC bitC
    obtain ⟨d, childD, hd, lowD, agreeD, bitD⟩ := shardChild_spec hp (by omega) left
    rw [childD]
    refine congrArg some (eq_of_agree hd hc (by omega) fun i above inside => ?_)
    by_cases atMarker : i = lowest p
    · rw [atMarker, bitD, bitC]
    · exact agreeD.trans agreeC.symm i (by omega) inside
  have split := accounts_split hx hs hp lowP.symm (by rw [lowS, lowP]) agreeP.symm (agreeS.trans agreeP.symm) bitS
  refine ⟨⟨x.workchain, p⟩, ?_, ?_, ?_, accountsOf_split x.workchain split⟩
  · rw [ShardIdFull.parent, parent]
    rfl
  · rw [ShardIdFull.child, childIs x.shard _ hx rfl agreeP.symm (by rw [side, Bool.not_not])]
    rfl
  · rw [ShardIdFull.child, childIs (shardSibling x.shard) _ hs lowS (agreeS.trans agreeP.symm)
      (by rw [side, bitS, Bool.not_not])]
    rfl

theorem shardPrefix_agrees (nonzero : s ≠ 0) (short : len ≤ shardPrefixLength s) :
    ∃ p, shardPrefix s len = some p ∧ shardPrefixLength p = len ∧ accounts s ⊆ accounts p := by
  obtain ⟨p, chosen, hp, lowP, agree⟩ := shardPrefix_spec nonzero short
  have position := lowest_lt nonzero
  rw [shardPrefixLength_eq nonzero] at short
  refine ⟨p, chosen, ?_, (accounts_subset_iff hp nonzero).mpr ⟨by omega, agree⟩⟩
  rw [shardPrefixLength_eq hp, lowP]
  omega

theorem accountShardPrefix_agrees (a : AccountIdPrefix) (short : len ≤ 63) :
    shardPrefixLength (accountShardPrefix a len) = len ∧ a ∈ accounts (accountShardPrefix a len) := by
  obtain ⟨nonzero, low, agree⟩ := accountShardPrefix_spec a len
  refine ⟨?_, (mem_accounts nonzero).mpr (low ▸ agree)⟩
  rw [shardPrefixLength_eq nonzero, low]
  omega

end Sets

/-- For identifiers in use, all functions agree with the sets of accounts exactly unless the second shard is
shorter than the first one and its identifier, taken for an account, lies in the first one. -/
theorem identifiers_agree_iff (x y : ShardIdFull) (a : AccountIdPrefixFull) (validX : ValidShard x.shard)
    (validY : ValidShard y.shard) :
    Agrees x y a ↔ ¬ (x.workchain = y.workchain ∧ shardPrefixLength y.shard < shardPrefixLength x.shard ∧
      y.shard ∈ accounts x.shard) := by
  obtain ⟨hx, shortX⟩ := validX
  obtain ⟨hy, shortY⟩ := validY
  have lowY := lowest_lt hy
  rw [shardPrefixLength_eq hx] at shortX
  constructor
  · rintro agrees ⟨same, shorter, inside⟩
    have passes : x.containsShard y = true := decide_eq_true ⟨same, (shardContains_iff hx).mpr inside⟩
    have subset := (accountsOf_subset.mp (agrees.containsShard.mp passes)).2
    have nested := ((accounts_subset_iff hx hy).mp subset).1
    rw [shardPrefixLength_eq hx, shardPrefixLength_eq hy] at shorter
    omega
  · intro ordinary
    have containsShard : x.containsShard y = true ↔ accountsOf y ⊆ accountsOf x := by
      rw [ShardIdFull.containsShard, decide_eq_true_eq, shardContains_iff hx, accountsOf_subset]
      refine and_congr_right fun same => ⟨fun inside => ?_, fun subset => subset (self_mem_accounts _)⟩
      rw [accounts_subset_iff hx hy]
      refine ⟨?_, (mem_accounts hx).mp inside⟩
      by_contra longer
      refine ordinary ⟨same, ?_, inside⟩
      rw [shardPrefixLength_eq hx, shardPrefixLength_eq hy]
      omega
    exact
      { ancestor := isAncestor_agrees hx hy
        properAncestor := isProperAncestor_agrees hx hy
        containsAccount := contains_agrees hx a
        containsShard
        intersects := intersects_agrees hx hy
        intersection := intersection_agrees hx hy
        children := children_agree hx (by omega)
        parent := parent_agrees hx
        shardPrefix := fun _ short => shardPrefix_agrees hx short
        accountPrefix := fun _ short => accountShardPrefix_agrees _ (by omega) }

/-- The two halves of a workchain, and an account of the second one. -/
theorem halves_agree :
    ValidShard 0x4000000000000000#64 ∧ ValidShard 0xC000000000000000#64 ∧
      Agrees ⟨0, 0x4000000000000000#64⟩ ⟨0, 0xC000000000000000#64⟩ ⟨0, 0xFF00000000000000#64⟩ := by
  have left : ValidShard 0x4000000000000000#64 := by decide +kernel
  have right : ValidShard 0xC000000000000000#64 := by decide +kernel
  exact ⟨left, right, (identifiers_agree_iff ⟨0, 0x4000000000000000#64⟩ ⟨0, 0xC000000000000000#64⟩
    ⟨0, 0xFF00000000000000#64⟩ left right).mpr (by decide +kernel)⟩

/-- The right half of a workchain is said to contain the whole workchain. -/
theorem half_contains_whole :
    ValidShard 0xC000000000000000#64 ∧ ValidShard 0x8000000000000000#64 ∧
      ShardIdFull.containsShard ⟨0, 0xC000000000000000#64⟩ ⟨0, 0x8000000000000000#64⟩ = true ∧
      ¬ accountsOf ⟨0, 0x8000000000000000#64⟩ ⊆ accountsOf ⟨0, 0xC000000000000000#64⟩ ∧
      ∀ a, ¬ Agrees ⟨0, 0xC000000000000000#64⟩ ⟨0, 0x8000000000000000#64⟩ a := by
  have left : ValidShard 0xC000000000000000#64 := by decide +kernel
  have right : ValidShard 0x8000000000000000#64 := by decide +kernel
  have passes : ShardIdFull.containsShard ⟨0, 0xC000000000000000#64⟩ ⟨0, 0x8000000000000000#64⟩ = true := by decide +kernel
  have escapes : ¬ accountsOf ⟨0, 0x8000000000000000#64⟩ ⊆ accountsOf ⟨0, 0xC000000000000000#64⟩ := by
    intro subset
    have nested := (accountsOf_subset.mp subset).2
    have zero : (0 : AccountIdPrefix) ∈ accounts 0xC000000000000000#64 := nested (by decide +kernel)
    exact absurd zero (by decide +kernel)
  exact ⟨left, right, passes, escapes, fun a agrees => escapes (agrees.containsShard.mp passes)⟩

section Identifiers

open Block.ShardId

variable (wcId : WorkchainId) (pfx : AccountIdPrefix) (len : Nat) (cs : Tvm.Slice)

/-- A shard is the same built from its prefix and from its full identifier. -/
def BuiltAlike : Prop := ofPrefix wcId pfx len = ofFull ⟨wcId, accountShardPrefix pfx len⟩

/-- A shard is stored and read back. -/
def ReadBack : Prop :=
  ∃ bits, (ofFull ⟨wcId, accountShardPrefix pfx len⟩).serialize [] = some bits ∧
    ∀ rest, deserialize ⟨bits ++ rest.bits, rest.refs⟩ = some (ofFull ⟨wcId, accountShardPrefix pfx len⟩, rest)

/-- A string is read as a shard only if the shard is stored so. -/
def StoredSo : Prop :=
  ∀ id rest, deserialize cs = some (id, rest) → ∃ bits, id.serialize [] = some bits ∧ cs.bits = bits ++ rest.bits

structure Survives : Prop where
  built : BuiltAlike wcId pfx len
  back : ReadBack wcId pfx len
  canonical : StoredSo cs

/-- No length in range is built alike; every valid workchain is read back; and a string that is read must not have
the marker. -/
theorem shardId_survives_iff :
    (BuiltAlike wcId pfx len ↔ 63 < len) ∧ (ReadBack wcId pfx len ↔ wcId ≠ workchainInvalid) ∧
      (StoredSo cs ↔ ∀ id rest held, deserialize cs = some (id, rest) →
        cs.bits = fields id.shardPfxLen id.workchainId held ++ rest.bits →
        held.getLsbD (63 - id.shardPfxLen.val) = false) := by
  have nonzero := (accountShardPrefix_spec pfx len).1
  refine ⟨ofPrefix_eq_iff wcId pfx len, ⟨?_, fun valid => deserialize_ofFull nonzero valid⟩, ?_, ?_⟩
  · rintro ⟨bits, stored, -⟩ invalid
    rw [ofFull, if_neg nonzero, serialize, if_pos (.inl invalid)] at stored
    cases stored
  · exact fun canonical id rest held read same => (serialize_iff read same).mp (canonical id rest read)
  · intro unmarked id rest read
    obtain ⟨-, held, same, -⟩ := deserialize_iff.mp read
    exact (serialize_iff read (congrArg _ same)).mpr (unmarked id rest held read (congrArg _ same))

/-- The right half of a workchain loses its prefix and its marker. -/
theorem right_half_not_survives :
    ofPrefix 0 0x8000000000000000#64 1 = ⟨0, 1, 0⟩ ∧
      ofFull ⟨0, accountShardPrefix 0x8000000000000000#64 1⟩ = ⟨0, 1, 0xC000000000000000#64⟩ ∧
      ¬ Survives 0 0x8000000000000000#64 1 ⟨[], []⟩ := by
  refine ⟨by decide +kernel, by decide +kernel, fun survives => ?_⟩
  have built : ofPrefix 0 0x8000000000000000#64 1 = _ := survives.built
  exact absurd built (by decide +kernel)

end Identifiers

end TonStaking.Guarantees.ShardTree
