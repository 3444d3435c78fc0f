import Mathlib.Logic.Function.Basic
import TonStaking.Source.NominatorContract.Effects
import TonStaking.Source.StakingPool.RequestEffect

/-!
# The pool, its nominators and the messages between them

The pool sits in workchain 0, the nominators in the masterchain. A message that
one of them queues for another is in flight until it is delivered; any message
in flight may be delivered next, so runs are all interleavings. Delivery goes to
the account that the address fields of the message name. The value that arrives
and the balance of the receiving account are part of the event.

A message in flight carries the number of the fetch order that caused it. No
contract sees this number.
-/
namespace TonStaking.Source.Network
open Tvm

def poolAccount (poolAddress : Uint 256) : MsgAddress := accountAddress ⟨0, base_fits⟩ poolAddress

def nominatorAccount (address : Uint 256) : MsgAddress := accountAddress ⟨-1, master_fits⟩ address

structure Flight where
  fetch : Nat
  nominator : Uint 256
  message : OutMsg

structure State where
  pool : StakingPool.State
  nominators : Uint 256 → Option NominatorContract.State
  requests : List Flight
  answers : List Flight
  fetches : Nat

/-- A network right after the pool is initialised, with nominators in any state. -/
def initial (pool : StakingPool.State) (nominators : Uint 256 → Option NominatorContract.State) :
    State where
  pool := pool
  nominators := nominators
  requests := []
  answers := []
  fetches := 0

inductive Event where
  /-- A message from outside the network reaches the pool. -/
  | pool (i : StakingPool.Input)
  /-- The `k`-th message to a nominator arrives. -/
  | request (k : Nat) (value balance : Grams)
  /-- The `k`-th message to the pool arrives. -/
  | answer (k : Nat) (value balance : Grams)
  /-- A message from outside the network reaches a nominator. -/
  | nominator (address : Uint 256) (i : NominatorContract.Input)

/-- Queued messages for accounts of the masterchain. -/
def toNominators (fetch : Nat) (out : List OutMsg) : List Flight :=
  out.filterMap fun message =>
    match message.dest.account with
    | some (workchain, address) => if workchain.val = -1 then some ⟨fetch, address, message⟩ else none
    | none => none

theorem toNominators_base {fetch : Nat} {out : List OutMsg}
    (base : ∀ message ∈ out, ∀ workchain address,
      message.dest.account = some (workchain, address) → workchain.val ≠ -1) :
    toNominators fetch out = [] := by
  apply List.filterMap_eq_nil_iff.mpr
  intro message sent
  cases named : message.dest.account with
  | none => rfl
  | some account =>
    obtain ⟨workchain, address⟩ := account
    exact if_neg (base message sent workchain address named)

/-- Queued messages of a nominator for the pool. -/
def toPool (poolAddress : Uint 256) (fetch : Nat) (nominator : Uint 256) (out : List OutMsg) :
    List Flight :=
  out.filterMap fun message =>
    match message.dest.account with
    | some (workchain, address) =>
      if workchain.val = 0 ∧ address = poolAddress then some ⟨fetch, nominator, message⟩ else none
    | none => none

/-- Balances are reported by nominators only. -/
def fromOutside (i : StakingPool.Input) : Bool :=
  match i.request with
  | some (.gotBalance _ _) => false
  | _ => true

def fromPoolAccount (poolAddress : Uint 256) : NominatorContract.Input → Bool
  | .internal m =>
    match parseStdAddr m.src with
    | .ok (srcWc, srcAddr) => srcWc = 0 ∧ srcAddr = poolAddress
    | .error _ => false
  | _ => false

section Step

variable (cellHash : Cell → Uint 256) (elector poolAddress : Uint 256)

/-- Number of fetch orders carried out once the pool has processed the input. -/
def fetchesAfter (net : State) (i : StakingPool.Input) : Nat :=
  match i.request with
  | some .fetchBalances => net.fetches + 1
  | _ => net.fetches

def poolReceives (net : State) (i : StakingPool.Input) : State × List OutMsg :=
  match StakingPool.receive cellHash net.pool i with
  | .ok (pool, out) =>
    ({ net with
        pool
        fetches := fetchesAfter net i
        requests := net.requests ++ toNominators (fetchesAfter net i) out }, out)
  | .error _ => (net, [])

variable {cellHash} in
/-- A message that is no fetch order and makes the pool write to no nominator. -/
theorem poolReceives_success (net : State) {i : StakingPool.Input} {pool : StakingPool.State}
    {out : List OutMsg} (success : StakingPool.receive cellHash net.pool i = .ok (pool, out))
    (other : i.request ≠ some .fetchBalances) (silent : toNominators net.fetches out = []) :
    (poolReceives cellHash net i).1 = { net with pool } := by
  have count : fetchesAfter net i = net.fetches := by
    unfold fetchesAfter
    split
    · next asked => exact (other asked).elim
    · rfl
  rw [poolReceives, success]
  dsimp only
  rw [count, silent, List.append_nil]

/-- What a nominator makes of a message of the pool. -/
def nominatorAnswers (net : State) (f : Flight) (value balance : Grams) :
    Option (NominatorContract.State × List OutMsg) :=
  (net.nominators f.nominator).map fun n =>
    commit (NominatorContract.receive elector) n
      (.internal (f.message.deliver (poolAccount poolAddress) value balance))

def deliverRequest (net : State) (k : Nat) (value balance : Grams) : State × List OutMsg :=
  match net.requests[k]? with
  | none => (net, [])
  | some f =>
    match nominatorAnswers elector poolAddress net f value balance with
    | none => ({ net with requests := net.requests.eraseIdx k }, [])
    | some (n, out) =>
      ({ net with
          nominators := Function.update net.nominators f.nominator (some n)
          requests := net.requests.eraseIdx k
          answers := net.answers ++ toPool poolAddress f.fetch f.nominator out }, [])

def deliverAnswer (net : State) (k : Nat) (value balance : Grams) : State × List OutMsg :=
  match net.answers[k]? with
  | none => (net, [])
  | some f =>
    poolReceives cellHash { net with answers := net.answers.eraseIdx k }
      (.internal (f.message.deliver (nominatorAccount f.nominator) value balance))

def nominatorReceives (net : State) (address : Uint 256) (i : NominatorContract.Input) :
    State × List OutMsg :=
  match net.nominators address with
  | none => (net, [])
  | some n =>
    let (n, out) := commit (NominatorContract.receive elector) n i
    ({ net with
        nominators := Function.update net.nominators address (some n)
        answers := net.answers ++ toPool poolAddress 0 address out }, [])

/-- One event, with the messages that leave the pool. -/
def next (net : State) : Event → State × List OutMsg
  | .pool i => if fromOutside i then poolReceives cellHash net i else (net, [])
  | .request k value balance => deliverRequest elector poolAddress net k value balance
  | .answer k value balance => deliverAnswer cellHash net k value balance
  | .nominator address i =>
    if fromPoolAccount poolAddress i then (net, []) else nominatorReceives elector poolAddress net address i

def receive (net : State) (e : Event) : Outcome (State × List OutMsg) :=
  .ok (next cellHash elector poolAddress net e)

end Step

section Answers

theorem eraseIdx_perm {α : Type} {l : List α} {k : Nat} {x : α} (arrived : l[k]? = some x) :
    (x :: l.eraseIdx k).Perm l := by
  obtain ⟨small, rfl⟩ := List.getElem?_eq_some_iff.mp arrived
  exact List.getElem_cons_eraseIdx_perm small

theorem deliver_request {message : OutMsg} {request : StakingPool.Request}
    (content : StakingPool.parseRequest message.body = .ok request) (src : MsgAddress)
    (value balance : Grams) :
    (StakingPool.Input.internal (message.deliver src value balance)).request = some request := by
  have direct : (message.deliver src value balance).bounced = false :=
    show (6 : Nat).testBit 0 = false by decide
  have body : (message.deliver src value balance).body = message.body := rfl
  simp [StakingPool.Input.request, direct, body, content, Except.toOption]

variable {n : NominatorContract.State} {m : InMsg} {queryId : Uint 64} {answer : OutMsg}

/-- The pool reads back the balance and the stake that the nominator has written. -/
theorem answer_request (answered : NominatorContract.BalanceAnswer n m queryId answer) :
    StakingPool.parseRequest answer.body = .ok (.gotBalance m.balance n.stake) := by
  have op : (0x4c425447 : Uint 32).val = 0x4c425447 := by decide
  have operation : StakingPool.parseOperation 0x4c425447 queryId
      ⟨gramsBits m.balance ++ gramsBits n.stake, []⟩ = .ok (.gotBalance m.balance n.stake) := by
    rw [StakingPool.parseOperation, op]
    simp
  have nonempty : (⟨Uint.bits (0x4c425447 : Uint 32) ++ (Uint.bits queryId ++
      (gramsBits m.balance ++ gramsBits n.stake)), []⟩ : Slice).isEmpty = false := rfl
  rw [answered.body, StakingPool.parseRequest, nonempty, loadUint_bits]
  simp [operation]

variable {elector poolAddress : Uint 256}

/-- A nominator makes nothing of a message of the pool or sends its balance and stake back. -/
theorem nominatorAnswers_out {net : State} {f : Flight} {value balance : Grams} {out : List OutMsg}
    (h : nominatorAnswers elector poolAddress net f value balance = some (n, out)) :
    out = [] ∨ ∃ answer, out = [answer] ∧
      StakingPool.parseRequest answer.body = .ok (.gotBalance n.balance n.stake) ∧
      toPool poolAddress f.fetch f.nominator out = [⟨f.fetch, f.nominator, answer⟩] := by
  obtain ⟨before, -, committed⟩ := Option.map_eq_some_iff.mp h
  cases outcome : NominatorContract.receive elector before
      (.internal (f.message.deliver (poolAccount poolAddress) value balance)) with
  | error e =>
    rw [commit_of_error outcome] at committed
    cases committed
    exact .inl rfl
  | ok result =>
    rw [commit_of_success outcome] at committed
    rw [committed] at outcome
    rcases NominatorContract.receive_answers outcome with
      silent | ⟨m, queryId, answer, source, -, rfl, answered, rfl⟩
    · exact .inl silent
    cases source
    have content := answer_request answered
    have back : answer.dest = poolAccount poolAddress := answered.dest
    refine .inr ⟨answer, rfl, content, ?_⟩
    simp [toPool, back, poolAccount, accountAddress, MsgAddress.account]

theorem outside_silent {i : NominatorContract.Input} (outside : fromPoolAccount poolAddress i = false)
    (fetch : Nat) (address : Uint 256) :
    toPool poolAddress fetch address (commit (NominatorContract.receive elector) n i).2 = [] := by
  cases outcome : NominatorContract.receive elector n i with
  | error e =>
    rw [commit_of_error outcome]
    rfl
  | ok result =>
    rw [commit_of_success outcome]
    obtain ⟨after, out⟩ := result
    rcases NominatorContract.receive_answers outcome with
      rfl | ⟨m, queryId, answer, rfl, sender, rfl, answered, -⟩
    · rfl
    apply List.filterMap_eq_nil_iff.mpr
    intro message sent
    rw [List.mem_singleton] at sent
    rw [sent, answered.dest]
    cases named : m.src.account with
    | none => rfl
    | some account =>
      apply if_neg
      rintro ⟨base, rfl⟩
      -- the sender would be the pool itself
      obtain ⟨⟨srcWc, srcAddr⟩, parsed, -⟩ := of_bind sender
      obtain ⟨rfl, rfl⟩ := account_parse named parsed
      simp [fromPoolAccount, parsed, base] at outside

end Answers

end TonStaking.Source.Network
