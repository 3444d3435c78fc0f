import TonStaking.Source.QueryIds
import TonStaking.Tvm.HashmapOrder
import TonStaking.Tvm.Transaction

/-!
# The highload wallet, version 2

`crypto/smartcont/highload-wallet-v2-code.fc` 1-65. An external message brings
an order: a query id, which also is a time limit in its upper half, and a
dictionary of messages with signed 16-bit keys. The wallet sends the messages,
remembers the query id, and forgets the ids whose time has passed for more than
64 seconds. Internal messages do nothing.

The gas of the machine and the outcome of the action phase are inputs: in a
transaction that fails in either phase the state stays and nothing is sent.
-/
namespace TonStaking.Source.HighloadWallet

open Tvm Tvm.Hashmap

structure State where
  storedSubwallet : Uint 32
  lastCleaned : Uint 64
  publicKey : Uint 256
  oldQueries : Dict 64 Unit

def getInitData (publicKey : Uint 256) (walletId : Uint 32) : State where
  storedSubwallet := walletId
  lastCleaned := 0
  publicKey := publicKey
  oldQueries := Dict.empty

/-- An action of `send_raw_message`. -/
structure RawMessage where
  mode : Uint 8
  message : Cell

/-- An order that has passed all checks. -/
structure Order where
  signature : List Bool
  signed : Slice
  queryId : Uint 64
  dict : Option Cell

/-- An order with the messages that were sent for it. -/
structure Sending where
  order : Order
  messages : List RawMessage

section Handler

variable (crypto : Crypto)

/-- Lines 11-24. -/
def loadOrder (now : Uint 32) (s : State) (inMsg : Slice) : Outcome Order := do
  let (signature, inMsg) ← loadBits 512 inMsg
  let (subwalletId, cs) ← loadUint 32 inMsg
  let (queryId, cs) ← loadUint 64 cs
  throwIf 35 ((queryId : Int) < bound now)
  throwIf 32 ((s.oldQueries.get? queryId).isSome = true)
  throwUnless 34 (subwalletId = s.storedSubwallet)
  throwUnless 35 (crypto.checkSignature (crypto.sliceHash inMsg) signature s.publicKey = true)
  let (dict, cs) ← loadDict cs
  endParse cs
  .ok { signature, signed := inMsg, queryId, dict }

/-- Lines 30-31. -/
def loadMessage (cs : Slice) : Outcome RawMessage := do
  let (mode, cs) ← loadUint 8 cs
  let (message, _) ← loadRef cs
  .ok { mode, message }

/-- Lines 27-33. Every round goes to a greater key, so that `2 ^ 15 + 1` rounds from `-1` are enough. -/
def sendMessages (dict : Option Cell) : Nat → Int → Outcome (List RawMessage)
  | 0, _ => .error .outOfGas
  | fuel + 1, i => do
    let next ← idictGetNext? 16 dict i
    match next with
    | none => .ok []
    | some (i, cs) => do
      let message ← loadMessage cs
      let rest ← sendMessages dict fuel i
      .ok (message :: rest)

def recvExternal (now : Uint 32) (s : State) (inMsg : Slice) : Outcome (State × List Sending) := do
  let order ← loadOrder crypto now s inMsg
  let messages ← sendMessages order.dict (2 ^ 15 + 1) (-1)
  let cleaned := cleanUp now (s.oldQueries.set order.queryId order.queryId.isLt ()) s.lastCleaned
  let lastCleaned ← storeUint 64 cleaned.2
  .ok ({ s with lastCleaned, oldQueries := cleaned.1 }, [{ order, messages }])

/-- `processed?`; `-(query_id <= last_cleaned)` is 1 or 0. -/
def processed (s : State) (queryId : Int) : Int :=
  if (s.oldQueries.udictGet? queryId).isSome then -1
  else if queryId ≤ s.lastCleaned then 1 else 0

/-- An external message; `gas`: the gas suffices; `acts`: the action phase succeeds. -/
structure Input where
  now : Uint 32
  body : Slice
  gas : Bool
  acts : Bool

def receive (s : State) (i : Input) : Outcome (State × List Sending) :=
  if i.gas then do
    let (after, sent) ← recvExternal crypto i.now s i.body
    if i.acts then .ok (after, sent) else .ok (s, [])
  else .error .outOfGas

end Handler

section Sending

variable {dict : Option Cell}

/-- The entry of an order under a signed 16-bit key. -/
def entryAt (dict : Option Cell) (k : Sint 16) : Option Slice := idictAt 16 dict k

/-- The messages of the given keys, in their order. -/
def MessagesOf (dict : Option Cell) (keys : List (Sint 16)) (messages : List RawMessage) : Prop :=
  List.Forall₂ (fun k m => ∃ v, entryAt dict k = some v ∧ loadMessage v = .ok m) keys messages

/-- The next key with an entry, or there is none. -/
theorem next_entry {i : Int} (low : -2 ^ 15 ≤ i) (high : i < 2 ^ 15) {out : Option (Int × Slice)}
    (h : idictGetNext? 16 dict i = .ok out) :
    match out with
    | none => ∀ k : Sint 16, (entryAt dict k).isSome → (k : Int) ≤ i
    | some (j, v) => ∃ k : Sint 16, (k : Int) = j ∧ entryAt dict k = some v ∧ i < k ∧
      ∀ k' : Sint 16, (entryAt dict k').isSome → i < k' → (k : Int) ≤ k' := by
  have sound := idictGetNext?_sound (n := 15) low high h
  cases out with
  | none => exact sound
  | some e =>
    obtain ⟨range, value, above, least⟩ := sound
    exact ⟨⟨e.1, range⟩, rfl, value, above, least⟩

/-- The loop sends the messages of all keys above its start, once each. -/
theorem sendMessages_keys {fuel : Nat} {i : Int} (low : -2 ^ 15 ≤ i) (high : i < 2 ^ 15)
    {messages : List RawMessage} (h : sendMessages dict fuel i = .ok messages) :
    ∃ keys : List (Sint 16), keys.Nodup ∧ (∀ k, k ∈ keys ↔ i < k ∧ (entryAt dict k).isSome) ∧
      MessagesOf dict keys messages := by
  induction fuel generalizing i messages with
  | zero => cases h
  | succ fuel ih =>
    obtain ⟨next, found, h⟩ := of_bind h
    have entry := next_entry low high found
    cases next with
    | none =>
      cases h
      refine ⟨[], List.nodup_nil, fun k => ?_, .nil⟩
      simp only [List.not_mem_nil, false_iff, not_and]
      intro above present
      exact absurd (entry k present) (by omega)
    | some e =>
      obtain ⟨j, v⟩ := e
      obtain ⟨key, rfl, value, above, least⟩ := entry
      obtain ⟨message, loaded, h⟩ := of_bind h
      obtain ⟨rest, sent, h⟩ := of_bind h
      cases h
      obtain ⟨keys, distinct, all, matched⟩ := ih key.2.1 key.2.2 sent
      refine ⟨key :: keys, List.nodup_cons.mpr ⟨fun again => ?_, distinct⟩, fun k => ?_,
        .cons ⟨v, value, loaded⟩ matched⟩
      · exact lt_irrefl _ ((all key).mp again).1
      · rw [List.mem_cons, all]
        constructor
        · rintro (rfl | ⟨later, present⟩)
          · exact ⟨above, by rw [value]; rfl⟩
          · exact ⟨above.trans later, present⟩
        · rintro ⟨behind, present⟩
          rcases lt_or_eq_of_le (least k present behind) with later | same
          · exact .inr ⟨later, present⟩
          · exact .inl (Subtype.ext same.symm)

end Sending

section Effects

variable {crypto : Crypto} {s after : State} {i : Input} {sent : List Sending}

theorem loadOrder_success {now : Uint 32} {inMsg : Slice} {order : Order}
    (h : loadOrder crypto now s inMsg = .ok order) :
    bound now ≤ order.queryId ∧ (s.oldQueries.get? order.queryId).isSome = false ∧
      crypto.checkSignature (crypto.sliceHash order.signed) order.signature s.publicKey = true := by
  obtain ⟨⟨signature, body⟩, -, h⟩ := of_bind h
  obtain ⟨⟨subwalletId, cs⟩, -, h⟩ := of_bind h
  obtain ⟨⟨queryId, cs⟩, -, h⟩ := of_bind h
  obtain ⟨_, inTime, h⟩ := of_bind h
  obtain ⟨_, unknown, h⟩ := of_bind h
  obtain ⟨_, -, h⟩ := of_bind h
  obtain ⟨_, signed, h⟩ := of_bind h
  obtain ⟨⟨dict, cs⟩, -, h⟩ := of_bind h
  obtain ⟨_, -, h⟩ := of_bind h
  cases h
  exact ⟨not_lt.mp (throwIf_success.mp inTime), Bool.eq_false_iff.mpr (throwIf_success.mp unknown),
    throwUnless_success.mp signed⟩

/-- A transaction executes one order, or it changes nothing. -/
inductive Effect (crypto : Crypto) (s : State) (i : Input) : State → List Sending → Prop
  | executed {order : Order} {messages : List RawMessage} {lastCleaned : Uint 64} {queries : Dict 64 Unit}
      (inTime : bound i.now ≤ order.queryId)
      (unknown : (s.oldQueries.get? order.queryId).isSome = false)
      (signed : crypto.checkSignature (crypto.sliceHash order.signed) order.signature s.publicKey = true)
      (loop : sendMessages order.dict (2 ^ 15 + 1) (-1) = .ok messages)
      (recorded : queries = s.oldQueries.set order.queryId order.queryId.isLt ())
      (noted : (lastCleaned : Nat) = (cleanUp i.now queries s.lastCleaned).2) :
      Effect crypto s i { s with lastCleaned, oldQueries := (cleanUp i.now queries s.lastCleaned).1 }
        [{ order, messages }]
  | unchanged : Effect crypto s i s []

theorem receive_effect (h : receive crypto s i = .ok (after, sent)) : Effect crypto s i after sent := by
  unfold receive at h
  split at h
  · obtain ⟨⟨new, out⟩, done, h⟩ := of_bind h
    dsimp only at h
    split at h
    · cases h
      obtain ⟨order, loaded, done⟩ := of_bind done
      obtain ⟨messages, loop, done⟩ := of_bind done
      obtain ⟨lastCleaned, stored, done⟩ := of_bind done
      cases done
      obtain ⟨inTime, unknown, signed⟩ := loadOrder_success loaded
      have noted := storeUint_success stored
      exact .executed inTime unknown signed loop rfl (by omega)
    · cases h
      exact .unchanged
  · cases h

theorem commit_effect (crypto : Crypto) (s : State) (i : Input) :
    ∃ after sent, commit (receive crypto) s i = (after, sent) ∧ Effect crypto s i after sent := by
  cases outcome : receive crypto s i with
  | error e => exact ⟨s, [], commit_of_error outcome, .unchanged⟩
  | ok result => exact ⟨result.1, result.2, commit_of_success outcome, receive_effect outcome⟩

end Effects

end TonStaking.Source.HighloadWallet
