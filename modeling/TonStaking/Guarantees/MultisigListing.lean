import TonStaking.Source.Multisig.Records

/-!
# Listings of the multisig wallet

`get_messages_unsigned_by_id` is to list the open queries that wait for an owner. The
mask selects the records with the bit of the owner instead, so it lists those that the
owner has signed. `get_messages_unsigned` selects all bits, and every open query has
one: that of the owner who brought it.
-/
namespace TonStaking.Guarantees.MultisigListing
open Tvm Source.Multisig

/-- The open queries with such signers are listed, as they are stored. -/
def Lists (s : State) (listing : Outcome (Dict 64 Listed)) (chosen : Nat → Prop) : Prop :=
  ∃ d, listing = .ok d ∧ ∀ key x, d.get? key = some x ↔
    s.pendingQueries.get? key = some (.waiting x.creatorI x.cnt x.cntBits x.msg) ∧ chosen x.cntBits

structure ListsUnsigned (s : State) (id : Uint 8) : Prop where
  byId : Lists s (getMessagesUnsignedById s id) (id ∉ signers ·)
  all : Lists s (getMessagesUnsigned s) fun _ => True

/-- Some owner has signed every open query. -/
def Signed (s : State) : Prop :=
  ∀ (key : Uint 64) creatorI cnt cntBits msg, s.pendingQueries.get? key = some (.waiting creatorI cnt cntBits msg) →
    (signers cntBits).Nonempty

section Listing

variable {crypto : Crypto} {s after : State} {i : Input} {sent : List Sending}

/-- Only the signers of open queries matter. -/
theorem Lists.congr {p q : Nat → Prop} {listing : Outcome (Dict 64 Listed)} (lists : Lists s listing p)
    (same : ∀ key (x : Listed), s.pendingQueries.get? key = some (.waiting x.creatorI x.cnt x.cntBits x.msg) →
      (p x.cntBits ↔ q x.cntBits)) : Lists s listing q := by
  obtain ⟨d, listed, entries⟩ := lists
  exact ⟨d, listed, fun key x => (entries key x).trans (and_congr_right (same key x))⟩

theorem messagesByMask_lists (s : State) (mask : Int) :
    Lists s (messagesByMask s mask) fun cntBits => Int.land cntBits mask ≠ 0 := by
  obtain ⟨d, listed, entries⟩ := Dict.forEach_collect (Query.listed mask) s.pendingQueries
  refine ⟨d, listed, fun key x => ?_⟩
  rw [entries key, Option.bind_eq_some_iff]
  constructor
  · rintro ⟨query, found, passes⟩
    cases query with
    | completed => cases passes
    | waiting creatorI cnt cntBits msg =>
      obtain ⟨meets, same⟩ := Option.ite_none_right_eq_some.mp passes
      cases same
      exact ⟨found, meets⟩
  · rintro ⟨found, meets⟩
    exact ⟨_, found, if_pos meets⟩

theorem effect_signed (effect : Effect crypto s i after sent) (signed : Signed s) : Signed after := by
  cases effect with
  | idle | init => exact signed
  | @counted e owner q cnt cntBits u _ _ _ _ _ _ _ _ opens _ counts ended _ =>
    have root : e.rootI ∈ signers q.cntBits := by
      cases opens with
      | fresh => rw [← Nat.zero_or (mask e.rootI), signers_or_mask]; exact Finset.mem_insert_self _ _
      | known => rw [signers_or_mask]; exact Finset.mem_insert_self _ _
    have counted : e.rootI ∈ signers cntBits := by
      cases counts with
      | root => exact root
      | @all list _ _ _ _ _ total =>
        rw [total, (countAll_signers (attached list) (0, q.cntBits)).1]
        exact Finset.mem_union_left _ root
    intro key creatorI cnt cntBits msg entry
    rcases ended.record with ⟨-, written, -⟩ | ⟨-, -, count, -, written⟩
    · rw [written] at entry
      rcases entry_of_filter_set entry with ⟨-, changed⟩ | before
      · cases changed
      · exact signed key _ _ _ _ before
    · rw [written] at entry
      rcases entry_of_filter_set entry with ⟨-, changed⟩ | before
      · cases changed
        exact ⟨_, counted⟩
      · exact signed key _ _ _ _ before

theorem getMessagesUnsignedById_lists (s : State) (id : Uint 8) :
    Lists s (getMessagesUnsignedById s id) (id ∈ signers ·) := by
  refine (messagesByMask_lists s (mask id)).congr fun key x _ => ?_
  change ((x.cntBits &&& mask id : Nat) : Int) ≠ 0 ↔ _
  rw [Int.natCast_ne_zero, Ne, and_mask_eq_zero, not_not]

theorem getMessagesUnsigned_lists (signed : Signed s) : Lists s (getMessagesUnsigned s) fun _ => True := by
  refine (messagesByMask_lists s (-1)).congr fun key x found => iff_true_intro fun zero => ?_
  obtain ⟨j, member⟩ := signed ⟨key, Dict.lt_of_get? found⟩ _ _ _ _ found
  have set : Int.testBit (x.cntBits : Int) j.val = true := mem_signers.mp member
  have bit := Int.testBit_land x.cntBits (-1) j.val
  rw [zero, set] at bit
  change Nat.testBit 0 j.val = (true && !Nat.testBit 0 j.val) at bit
  simp at bit

/-- For an open query the listing says the opposite of what is asked. -/
theorem ListsUnsigned.completed {id : Uint 8} (lists : ListsUnsigned s id) {key : Nat} {query : Query}
    (found : s.pendingQueries.get? key = some query) : query = .completed := by
  cases query with
  | completed => rfl
  | waiting creatorI cnt cntBits msg =>
    obtain ⟨d, listed, entries⟩ := getMessagesUnsignedById_lists s id
    obtain ⟨d', listed', claimed⟩ := lists.byId
    cases listed.symm.trans listed'
    have same := (entries key ⟨creatorI, cnt, cntBits, msg⟩).symm.trans (claimed key _)
    simp only [found, true_and] at same
    exact (iff_not_self same).elim

end Listing

/-- In the states of a new wallet, the listings are right exactly if no query is open. -/
theorem unsigned_listed_iff (crypto : Crypto) (walletId : Uint 32) (n k : Uint 8) (ownersInfo : Dict 8 OwnerInfo)
    (inputs : List Input) (id : Uint 8) :
    let s := run (receive crypto) (createInitState walletId n k ownersInfo) inputs
    ListsUnsigned s id ↔ ∀ key query, s.pendingQueries.get? key = some query → query = .completed := by
  intro s
  have signed : Signed s :=
    run_preserves (fun _ _ _ _ signed success => effect_signed (receive_effect success) signed) _ inputs
      nofun
  refine ⟨fun lists key query => lists.completed, fun none => ⟨?_, getMessagesUnsigned_lists signed⟩⟩
  refine (getMessagesUnsignedById_lists s id).congr fun key x found => ?_
  cases none key _ found

/-- Owner 0 opens a query: it is listed for owner 0 and not for owner 1. -/
theorem signed_query_listed :
    let s := run (receive sampleCrypto) sampleWallet [sampleMessage 1000 0 [] (sampleQuery 4600 0)]
    ((getMessagesUnsignedById s 0).map Dict.keys = .ok [(sampleQuery 4600 0).val] ∧
      (getMessagesUnsignedById s 1).map Dict.keys = .ok []) ∧ ¬ ListsUnsigned s 0 ∧ ¬ ListsUnsigned s 1 := by
  intro s
  have shown : (getMessagesUnsignedById s 0).map Dict.keys = .ok [(sampleQuery 4600 0).val] ∧
      (getMessagesUnsignedById s 1).map Dict.keys = .ok [] := by decide +kernel
  obtain ⟨d, listed, entries⟩ := getMessagesUnsignedById_lists s 0
  have keys : d.keys = [(sampleQuery 4600 0).val] := by
    rw [listed] at shown
    exact Except.ok.inj shown.1
  obtain ⟨x, there⟩ := Option.isSome_iff_exists.mp ((d.mem_keys_iff _).mp (keys ▸ List.mem_singleton_self _))
  have found := ((entries _ x).mp there).1
  exact ⟨shown, fun lists => (by cases lists.completed found), fun lists => (by cases lists.completed found)⟩

end TonStaking.Guarantees.MultisigListing
