import TonStaking.Source.DnsManual.Contract

/-!
# Messages of the manual DNS contract are charged once

A signed message should reach `accept_message` at most once. The query id is
recorded behind the operations, so that a message whose operations raise an
exception, run out of gas or fail in the action phase leaves no record, and
neither does an upgrade to the same code: it is accepted again as long as its
time limit allows. A message is safe in all later runs exactly if its id was
recorded or the contract got other code.
-/
namespace TonStaking.Guarantees.DnsReplay

open Tvm Source Source.DnsManual

section Statement

variable (crypto : Crypto) (codes : Codes)

/-- The signed contents of the messages that a run accepts. -/
def acceptances (account : Account) : List Input → List Slice
  | [] => []
  | i :: rest => ((accepted crypto codes account i).map Order.signed).toList ++
      acceptances (transact crypto codes account i) rest

/-- The handler of an accepted message comes to its end and its actions are carried out. -/
def Completes (account : Account) (i : Input) (order : Order) : Prop :=
  i.acts = true ∧ ∃ data sent, execute i.now i.gas account.data order = .ok (.stored data sent)

/-- The message installs the code of another contract, which takes over the data. -/
def Replaces (account : Account) (i : Input) (order : Order) : Prop :=
  i.acts = true ∧ ∃ newCode root ops data, execute i.now i.gas account.data order = .ok (.upgraded newCode root ops) ∧
    codes.manual newCode = false ∧ codes.afterCodeUpgrade newCode root ops account.data = .ok data

/-- Every accepted message of a run is handled to the end or installs other code. -/
def AllComplete (account : Account) : List Input → Prop
  | [] => True
  | i :: rest => (∀ order, accepted crypto codes account i = some order →
      Completes account i order ∨ Replaces codes account i order) ∧
      AllComplete (transact crypto codes account i) rest

end Statement

section Step

variable {crypto : Crypto} {codes : Codes} {account : Account} {i : Input} {order : Order}
variable {now : Uint 32} {s : State} {sent : List RawMessage}

theorem accepted_some (h : accepted crypto codes account i = some order) :
    codes.manual account.code = true ∧ loadOrder crypto i.now account.data i.body = .ok order := by
  unfold accepted at h
  split at h
  · next ready =>
    refine ⟨ready.1, ?_⟩
    cases load : loadOrder crypto i.now account.data i.body with
    | error e =>
      rw [load] at h
      cases h
    | ok loaded =>
      rw [load] at h
      cases h
      rfl
  · cases h

/-- The query id as it stands in the signed contents. -/
def queryIdOf (signed : Slice) : Nat := natOf ((signed.bits.drop 32).take 64)

theorem loadOrder_success {inMsg : Slice} (h : loadOrder crypto now s inMsg = .ok order) :
    bound now ≤ order.queryId ∧ (s.oldQueries.get? order.queryId).isSome = false ∧
      queryIdOf order.signed = order.queryId := by
  obtain ⟨⟨signature, body⟩, -, h⟩ := of_bind h
  obtain ⟨⟨queryContract, cs⟩, first, h⟩ := of_bind h
  obtain ⟨⟨queryId, ops⟩, second, h⟩ := of_bind h
  obtain ⟨_, inTime, h⟩ := of_bind h
  obtain ⟨_, unknown, h⟩ := of_bind h
  obtain ⟨_, -, h⟩ := of_bind h
  obtain ⟨_, -, h⟩ := of_bind h
  cases h
  refine ⟨not_lt.mp (throwIf_success.mp inTime), Bool.eq_false_iff.mpr (throwIf_success.mp unknown), ?_⟩
  rw [loadUint_eq second] at first
  have whole := loadUint_eq first
  rw [whole, queryIdOf, List.drop_left' (Uint.bits_length _), List.take_left' (Uint.bits_length _), natOf_uintBits]

theorem finish_stored {ending : Ending} (h : finish now s order sent = .ok ending) :
    ∃ data, ending = .stored data sent ∧
      data.oldQueries = (cleanUp now (s.oldQueries.set order.queryId order.queryId.isLt ()) s.lastCleaned).1 := by
  obtain ⟨lastCleaned, -, h⟩ := of_bind h
  cases h
  exact ⟨_, rfl, rfl⟩

theorem execute_stored {gas : Nat} {data : State} (h : execute now gas s order = .ok (.stored data sent)) :
    data.oldQueries = (cleanUp now (s.oldQueries.set order.queryId order.queryId.isLt ()) s.lastCleaned).1 := by
  obtain ⟨⟨op, body⟩, -, h⟩ := of_bind h
  dsimp only at h
  split at h
  · obtain ⟨⟨publicKey, rest⟩, -, h⟩ := of_bind h
    obtain ⟨stored, same, queries⟩ := finish_stored h
    cases same
    exact queries
  · obtain ⟨done, -, h⟩ := of_bind h
    cases done with
    | next root ops sent =>
      obtain ⟨stored, same, queries⟩ := finish_stored h
      cases same
      exact queries
    | upgrade newCode root ops => cases h

/-- A transaction stores its record, changes nothing the checks look at, or leaves this code. -/
inductive Effect (codes : Codes) (account : Account) (i : Input) (order : Order) : Account → Prop
  | stored {data : State}
      (recorded : data.oldQueries =
        (cleanUp i.now (account.data.oldQueries.set order.queryId order.queryId.isLt ()) account.data.lastCleaned).1) :
      Effect codes account i order { account with data }
  | unchanged {code : Cell} (manual : codes.manual code = true) : Effect codes account i order { account with code }
  | left {after : Account} (foreign : codes.manual after.code = false) : Effect codes account i order after

theorem settle_effect (manual : codes.manual account.code = true) (order : Order) :
    Effect codes account i order (settle codes account i order) := by
  have same : Effect codes account i order account := .unchanged manual
  unfold settle
  cases run : execute i.now i.gas account.data order with
  | error e => exact same
  | ok ending =>
    cases ending with
    | stored data sent =>
      dsimp only
      split
      · exact .stored (execute_stored run)
      · exact same
    | upgraded newCode root ops =>
      dsimp only
      split
      · unfold install
        split
        · next own => exact .unchanged own
        rename_i other
        cases codes.afterCodeUpgrade newCode root ops account.data with
        | error e => exact same
        | ok data => exact .left (Bool.eq_false_iff.mpr other)
      · exact same

theorem settle_replaces (replaces : Replaces codes account i order) :
    codes.manual (settle codes account i order).code = false := by
  obtain ⟨acts, newCode, root, ops, data, run, other, upgrade⟩ := replaces
  simp [settle, run, acts, install, other, upgrade]

/-- A message that neither comes to its end nor installs other code leaves the data, and the code is one of this
contract. -/
theorem settle_incomplete (manual : codes.manual account.code = true) (incomplete : ¬ Completes account i order)
    (stays : ¬ Replaces codes account i order) :
    (settle codes account i order).data = account.data ∧ codes.manual (settle codes account i order).code = true := by
  unfold settle
  cases run : execute i.now i.gas account.data order with
  | error e => exact ⟨rfl, manual⟩
  | ok ending =>
    cases ending with
    | stored data sent =>
      have failed : ¬ i.acts = true := fun acts => incomplete ⟨acts, data, sent, run⟩
      dsimp only
      rw [if_neg failed]
      exact ⟨rfl, manual⟩
    | upgraded newCode root ops =>
      dsimp only
      split
      · next acts =>
        unfold install
        split
        · next own => exact ⟨rfl, own⟩
        rename_i other
        cases upgrade : codes.afterCodeUpgrade newCode root ops account.data with
        | error e => exact ⟨rfl, manual⟩
        | ok data =>
          exact absurd ⟨acts, newCode, root, ops, data, run, Bool.eq_false_iff.mpr other, upgrade⟩ stays
      · exact ⟨rfl, manual⟩

variable {q : Nat} {inputs : List Input}

/-- A query id that no message can use any more. -/
def Spent (codes : Codes) (now : Uint 32) (q : Nat) (account : Account) : Prop :=
  codes.manual account.code = true → (account.data.oldQueries.get? q).isSome ∨ (q : Int) < bound now

section

variable (spent : Spent codes now q account)
include spent

theorem Spent.rejects (later : now ≤ i.now)
    (accept : accepted crypto codes account i = some order) : (order.queryId : Nat) ≠ q := by
  rintro rfl
  obtain ⟨manual, load⟩ := accepted_some accept
  obtain ⟨inTime, unknown, -⟩ := loadOrder_success load
  have mono := bound_mono later
  rcases spent manual with recorded | old
  · rw [unknown] at recorded
    cases recorded
  · omega

theorem Spent.effect (manual : codes.manual account.code = true)
    (later : now ≤ i.now) {after : Account} (effect : Effect codes account i order after) :
    Spent codes i.now q after := by
  have mono := bound_mono later
  have before : (account.data.oldQueries.get? q).isSome ∨ (q : Int) < bound i.now := by
    rcases spent manual with recorded | old
    · exact .inl recorded
    · exact .inr (by omega)
  cases effect with
  | stored recorded =>
    intro _
    rcases before with known | old
    · by_cases kept : bound i.now - 64 * 2 ^ 32 ≤ q
      · refine .inl ?_
        rw [recorded, get?_cleanUp, if_pos kept, Dict.get?_set]
        split
        · rfl
        · exact known
      · exact .inr (by omega)
    · exact .inr old
  | unchanged _ => exact fun _ => before
  | left foreign => exact fun stays => absurd stays (by rw [foreign]; decide)

theorem Spent.step (later : now ≤ i.now) : Spent codes i.now q (transact crypto codes account i) := by
  unfold transact
  cases accept : accepted crypto codes account i with
  | none =>
    intro manual
    have mono := bound_mono later
    rcases spent manual with recorded | old
    · exact .inl recorded
    · exact .inr (by omega)
  | some order =>
    have manual := (accepted_some accept).1
    exact spent.effect manual later (settle_effect manual order)

/-- A spent id never returns in a run. -/
theorem Spent.acceptances (ordered : Ordered Input.now inputs)
    (later : ∀ i ∈ inputs, now ≤ i.now) :
    ∀ signed ∈ acceptances crypto codes account inputs, queryIdOf signed ≠ q := by
  induction inputs generalizing account now with
  | nil => nofun
  | cons i rest ih =>
    have first := later i (List.mem_cons_self ..)
    obtain ⟨fromNow, orderedRest⟩ := List.pairwise_cons.mp ordered
    intro signed member
    rcases List.mem_append.mp member with here | there
    · obtain ⟨order, accept, rfl⟩ := Option.map_eq_some_iff.mp (Option.mem_toList.mp here)
      have id := (loadOrder_success (accepted_some accept).2).2.2
      rw [id]
      exact spent.rejects first accept
    · exact ih (spent.step first) orderedRest fromNow signed there

end

theorem transact_accepted (accept : accepted crypto codes account i = some order) :
    transact crypto codes account i = settle codes account i order := by
  unfold transact
  rw [accept]

/-- A message that came to its end, or replaced the code, has a spent id. -/
theorem spent_of_complete (accept : accepted crypto codes account i = some order)
    (safe : Completes account i order ∨ Replaces codes account i order) :
    Spent codes i.now order.queryId (transact crypto codes account i) := by
  obtain ⟨-, load⟩ := accepted_some accept
  obtain ⟨inTime, -, -⟩ := loadOrder_success load
  rw [transact_accepted accept]
  rcases safe with ⟨acts, data, sent, run⟩ | replaces
  · intro _
    refine .inl ?_
    have after : settle codes account i order = { account with data } := by
      simp [settle, run, acts]
    rw [after, show data.oldQueries = _ from execute_stored run, get?_cleanUp, if_pos (by omega), Dict.get?_set,
      if_pos rfl]
    rfl
  · intro stays
    rw [settle_replaces replaces] at stays
    cases stays

/-- A message that left no record is accepted again at the same time. -/
theorem accepted_again (accept : accepted crypto codes account i = some order)
    (incomplete : ¬ Completes account i order) (stays : ¬ Replaces codes account i order) :
    accepted crypto codes (transact crypto codes account i) i = some order := by
  obtain ⟨manual, load⟩ := accepted_some accept
  have credit : i.credit = true := by
    unfold accepted at accept
    split at accept
    · next ready => exact ready.2
    · cases accept
  obtain ⟨data, own⟩ := settle_incomplete manual incomplete stays
  rw [transact_accepted accept, accepted, if_pos ⟨own, credit⟩, data, load]
  rfl

/-- If every accepted message comes to its end, none is accepted twice. -/
theorem acceptances_nodup (ordered : Ordered Input.now inputs) (complete : AllComplete crypto codes account inputs) :
    (acceptances crypto codes account inputs).Nodup := by
  induction inputs generalizing account with
  | nil => exact List.nodup_nil
  | cons i rest ih =>
    obtain ⟨fromNow, orderedRest⟩ := List.pairwise_cons.mp ordered
    have tail := ih orderedRest complete.2
    unfold acceptances
    cases accept : accepted crypto codes account i with
    | none => exact tail
    | some order =>
      have spent := spent_of_complete accept (complete.1 order accept)
      refine List.nodup_cons.mpr ⟨?_, tail⟩
      intro again
      exact spent.acceptances orderedRest fromNow _ again (loadOrder_success (accepted_some accept).2).2.2

end Step

/-- Along every run with an ordered clock in which all accepted messages come to their end no message is
accepted twice; and an accepted message is never accepted again exactly if it came to its end or installed
other code. -/
theorem accepted_once_iff (crypto : Crypto) (codes : Codes) (account : Account) :
    (∀ inputs, Ordered Input.now inputs → AllComplete crypto codes account inputs →
      (acceptances crypto codes account inputs).Nodup) ∧
    ∀ i order, accepted crypto codes account i = some order →
      ((∀ later, Ordered Input.now (i :: later) →
          order.signed ∉ acceptances crypto codes (transact crypto codes account i) later) ↔
        Completes account i order ∨ Replaces codes account i order) := by
  refine ⟨fun inputs ordered complete => acceptances_nodup ordered complete, ?_⟩
  intro i order accept
  constructor
  · intro never
    by_contra exposed
    rw [not_or] at exposed
    have again := accepted_again accept exposed.1 exposed.2
    have ordered : Ordered Input.now [i, i] := by
      simp [Ordered]
    apply never [i] ordered
    simp [acceptances, again]
  · intro safe later ordered again
    obtain ⟨fromNow, orderedLater⟩ := List.pairwise_cons.mp ordered
    exact (spent_of_complete accept safe).acceptances orderedLater fromNow _ again
      (loadOrder_success (accepted_some accept).2).2.2

/-- This contract's code is the empty cell, and other code refuses the data. -/
def sampleCodes : Codes where
  manual c := c.bits.isEmpty
  afterCodeUpgrade _ _ _ _ := .error (.code 9)

def sampleAccount : Account := ⟨.mk [] [], createInitData 77 5⟩

/-- A query that may be executed until time 1000, with one operation. -/
def sampleSigned (op : Nat) (refs : List Cell) : Slice :=
  ⟨bitsOf 32 5 ++ bitsOf 64 (1000 * 2 ^ 32 + 1) ++ bitsOf 6 op, refs⟩

def sampleInput (now : Uint 32) (op : Nat) (refs : List Cell) : Input where
  now := now
  body := ⟨sampleSign 77 (sampleSigned op refs) ++ (sampleSigned op refs).bits, refs⟩
  credit := true
  gas := 10
  acts := true

/-- An unknown operation, and an upgrade to the same code, are charged each time they come. -/
theorem charged_three_times :
    ((acceptances sampleCrypto sampleCodes sampleAccount
        [sampleInput 900 2 [], sampleInput 950 2 [], sampleInput 1000 2 []]).map queryIdOf) =
      List.replicate 3 (1000 * 2 ^ 32 + 1) ∧
    ((acceptances sampleCrypto sampleCodes sampleAccount
        [sampleInput 900 9 [.mk [] []], sampleInput 950 9 [.mk [] []]]).map queryIdOf) =
      List.replicate 2 (1000 * 2 ^ 32 + 1) := by
  decide +kernel

example : (acceptances sampleCrypto sampleCodes sampleAccount [sampleInput 900 32 [], sampleInput 950 32 []]).length = 1 := by
  decide +kernel

end TonStaking.Guarantees.DnsReplay
