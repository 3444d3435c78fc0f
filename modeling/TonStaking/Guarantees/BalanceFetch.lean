import TonStaking.Guarantees.NominatorRegistry
import TonStaking.Guarantees.Solvency
import TonStaking.Source.Network

/-!
# Balances of the nominators are counted once

A fetch order sets the aum of the current period to the balance of the pool, and
every answer of a nominator adds to it. Nothing in an answer tells which order it
belongs to, so the answers of an earlier order are added once more when they
arrive after a later one. If an order is only carried out while nothing of an
earlier one is in flight, every nominator that answers is counted exactly once.
-/
namespace TonStaking.Guarantees.BalanceFetch
open Tvm Source Source.StakingPool Source.Network
open NominatorRegistry PerformanceHistory Solvency
open NominatorContract (sampleElector)

section Definitions

/-- The last fetch order: the balance the pool read, the changes made since, and what
each nominator reported that has answered it. -/
structure Fetch where
  poolBalance : Grams
  changes : Int
  answered : List (Uint 256 × Int)
  deriving DecidableEq

def Fetch.change (f : Fetch) (amount : Int) : Fetch := { f with changes := f.changes + amount }

def Fetch.report (f : Fetch) (nominator : Uint 256) (amount : Int) : Fetch :=
  { f with answered := f.answered ++ [(nominator, amount)] }

def paid (out : List OutMsg) : Int := (out.map fun message => (message.value : Int)).sum

/-- A deposit brings the value of its message and a redemption costs what it pays. A
transfer of the owner is not a deposit. -/
def change (s : StakingPool.State) (m : InMsg) (out : List OutMsg) : Request → Int
  | .newSubscription =>
    match parseStdAddr m.src with
    | .ok (srcWc, srcAddr) => if srcWc = 0 ∧ srcAddr = s.poolConfig.owner then 0 else m.value
    | .error _ => 0
  | .redeem _ _ => -paid out
  | _ => 0

variable (cellHash : Cell → Uint 256) (elector poolAddress : Uint 256)
  (net start : Network.State) (last : Option Fetch) (events : List Event)

def notePool (s : StakingPool.State) (last : Option Fetch) (i : StakingPool.Input) : Option Fetch :=
  match i, i.request, StakingPool.receive cellHash s i with
  | .internal m, some .fetchBalances, .ok _ => some ⟨m.balance, 0, []⟩
  | .internal m, some request, .ok (_, out) => last.map (Fetch.change · (change s m out request))
  | _, _, _ => last

/-- An answer to the last order is added to its record. -/
def noteRequest (k : Nat) (value balance : Grams) : Option Fetch :=
  match net.requests[k]? with
  | none => last
  | some f =>
    match nominatorAnswers elector poolAddress net f value balance with
    | some (n, _ :: _) =>
      if f.fetch = net.fetches then last.map (Fetch.report · f.nominator (n.balance + n.stake)) else last
    | _ => last

/-- Keeps the record of the last fetch order along a run. -/
def note : Event → Option Fetch
  | .pool i => if fromOutside i then notePool cellHash net.pool last i else last
  | .request k value balance => noteRequest elector poolAddress net last k value balance
  | _ => last

def lastFetch : Option Fetch :=
  track (Network.receive cellHash elector poolAddress) (note cellHash elector poolAddress) start none events

/-- With no answer in flight, the aum is the balance read by the last order, plus the
changes since, plus the reports of the nominators that answered it, each once. -/
def CountedOnce : Prop :=
  net.answers = [] → ∀ f, last = some f →
    aumOf net.pool = f.poolBalance + f.changes + (f.answered.map Prod.snd).sum ∧
      (f.answered.map Prod.fst).Nodup

def AlwaysCountedOnce : Prop :=
  ∀ before after, events = before ++ after →
    CountedOnce (run (Network.receive cellHash elector poolAddress) start before)
      (lastFetch cellHash elector poolAddress start before)

end Definitions

/-- A fetch order of the owner arrives only while nothing is in flight, and an answer only
while the aum has room for it. -/
def Separate (net : Network.State) : Event → Prop
  | .pool (.internal m) => (Input.internal m).request = some .fetchBalances →
      parseStdAddr m.src = .ok (0, (net.pool.poolConfig.owner : Int)) →
      net.pool.poolConfig.transactionFee.val ≤ m.value.val → net.requests = [] ∧ net.answers = []
  | .answer k _ _ => ∀ (f : Flight) (balance stake : Grams), net.answers[k]? = some f →
      parseRequest f.message.body = .ok (.gotBalance balance stake) →
      aumOf net.pool + balance + stake < 2 ^ 120
  | _ => True

section Pool

variable {cellHash : Cell → Uint 256} {s after : StakingPool.State} {m : InMsg} {request : Request}
  {out : List OutMsg}

theorem aumOf_updated (s : StakingPool.State) (updated : Performance) (poolConfig : PoolConfig)
    (subscriptions : Dict 32 Subscription) (subscribers : Dict 256 Subscriber) :
    aumOf { s with
      poolConfig, subscriptions, subscribers
      performance := s.recorded updated } = updated.aum := by
  simp [aumOf]

/-- Deposits and redemptions change the aum by their amount; other messages from outside
leave it as it is, the close of a period included. -/
theorem effect_aum (effect : Effect cellHash s m request after out)
    (noFetch : request ≠ .fetchBalances) (noReport : ∀ balance stake, request ≠ .gotBalance balance stake) :
    aumOf after = aumOf s + change s m out request := by
  cases effect with
  | ignored => simp [change]
  | ownersTransfer owner => simp [change, owner]
  | activate effect =>
    rw [effect.state]
    simp [change, aumOf]
  | setConfig parsed effect => simp [change, aumOf]
  | fetch effect => exact (noFetch rfl).elim
  | gotBalance effect => exact (noReport _ _ rfl).elim
  | deposit effect =>
    rw [effect.state, aumOf_updated, effect.holds.aum, aumOf_of_get? effect.period]
    simp [change, effect.parsed, effect.stranger]
  | redeem effect =>
    rw [effect.state, aumOf_updated, aumOf_of_get? effect.period]
    rcases effect.branch with now | ⟨start, last, earlier⟩
    · obtain ⟨back, fine, rfl, -, -, sum, -⟩ := now.sent
      have aum := now.holds.aum
      simp only [change, paid, List.map_cons, List.map_nil, List.sum_cons, List.sum_nil]
      omega
    · obtain ⟨back, rfl, -, amount⟩ := earlier.sent
      have aum := earlier.holds.aum
      simp only [change, paid, List.map_cons, List.map_nil, List.sum_cons, List.sum_nil]
      omega
  | newPeriod effect =>
    rw [closing_aum effect, aumOf_of_get? effect.period]
    simp [change]

theorem effect_entries (effect : Effect cellHash s m request after out) {k : Nat}
    (known : (nominatorAt s.poolConfig.nominators k).isSome) :
    (nominatorAt after.poolConfig.nominators k).isSome := by
  cases effect with
  | ignored | ownersTransfer owner => exact known
  | deposit effect | redeem effect | fetch effect =>
    rw [effect.state]
    exact known
  | newPeriod effect =>
    rw [effect.poolConfig]
    exact known
  | setConfig parsed effect =>
    rw [effect.nominators]
    exact known
  | activate effect | gotBalance effect =>
    rw [effect.state, nominatorAt_set]
    split
    · rfl
    · exact known

theorem reachable_workchain {s : StakingPool.State} (reachable : Reachable cellHash s) (id : Nat)
    (sub : Subscription) (found : s.subscriptions.get? id = some sub) : 0 ≤ sub.subscriberWc.val := by
  revert id sub
  refine reachable.invariant_effect
    (P := fun s => ∀ id sub, s.subscriptions.get? id = some sub → 0 ≤ sub.subscriberWc.val) ?_ ?_
  · intro poolConfig init balance s initialised id sub found
    obtain ⟨first, opened, owners, hash, effect⟩ := tryInit_effects initialised
    rw [effect.subscriptions, Dict.get?_set] at found
    split at found
    · cases found
      exact le_of_eq effect.workchain.symm
    · cases found
  · intro s m request after out before effect id sub found
    cases effect.origin found with
    | kept found => exact before id sub found
    | opened start status workchain => exact workchain
    | redeemed found start status workchain =>
      rw [workchain]
      exact before id _ found

theorem effect_silent (reachable : Reachable cellHash s) (effect : Effect cellHash s m request after out)
    (noFetch : request ≠ .fetchBalances) (fetch : Nat) : toNominators fetch out = [] := by
  cases effect with
  | ignored | ownersTransfer owner | deposit effect | activate effect | gotBalance effect | newPeriod effect
  | setConfig parsed effect =>
    rfl
  | fetch effect => exact (noFetch rfl).elim
  | redeem effect =>
    have base := reachable_workchain reachable _ _ effect.found
    apply toNominators_base
    intro message sent workchain address named
    rcases effect.branch with now | ⟨start, last, earlier⟩
    · obtain ⟨back, fine, rfl, backDest, fineDest, -⟩ := now.sent
      simp only [List.mem_cons, List.not_mem_nil, or_false] at sent
      rcases sent with rfl | rfl
      · rw [backDest] at named
        have same := (account_parse named effect.owned).1
        omega
      · rw [fineDest] at named
        cases named
        decide
    · obtain ⟨back, rfl, backDest, -⟩ := earlier.sent
      rw [List.mem_singleton] at sent
      rw [sent, backDest] at named
      have same := (account_parse named effect.owned).1
      omega

end Pool

theorem toNominators_targets (fetch : Nat) {out : List OutMsg} {targets : List (Uint 256)}
    (dests : out.map OutMsg.dest = targets.map (.tag6 ⟨-1, by decide⟩)) :
    (toNominators fetch out).map Flight.nominator = targets ∧ ∀ f ∈ toNominators fetch out, f.fetch = fetch := by
  induction out generalizing targets with
  | nil =>
    cases List.map_eq_nil_iff.mp dests.symm
    simp [toNominators]
  | cons m out ih =>
    obtain ⟨target, targets, rfl, here, later⟩ := List.map_eq_cons_iff.mp dests.symm
    obtain ⟨names, tags⟩ := ih later.symm
    simp only [toNominators, List.filterMap_cons, ← here, MsgAddress.account, if_true]
    exact ⟨congrArg (target :: ·) names, List.forall_mem_cons.mpr ⟨rfl, tags⟩⟩

section Answers

variable {cellHash : Cell → Uint 256}

/-- The pool accepts the report of a nominator with a readable entry as long as the aum
has room for it. -/
theorem gotBalance_accepted {s : StakingPool.State} (history : History s) {address : Uint 256}
    (known : (nominatorAt s.poolConfig.nominators address).isSome) {m : InMsg} {balance stake : Grams}
    (sender : m.src = nominatorAccount address)
    (asked : (Input.internal m).request = some (.gotBalance balance stake))
    (room : aumOf s + balance + stake < 2 ^ 120) :
    ∃ after, StakingPool.receive cellHash s (.internal m) = .ok (after, []) ∧
      aumOf after = aumOf s + balance + stake := by
  obtain ⟨x, decoded⟩ := Option.isSome_iff_exists.mp known
  obtain ⟨raw, found, unpacked⟩ := nominatorAt_decoded decoded
  obtain ⟨current, period⟩ := Option.isSome_iff_exists.mp ((history.keys s.currentPeriod).mpr le_rfl)
  rw [aumOf_of_get? period] at room ⊢
  obtain ⟨aum, -, aum_eq⟩ := storeUint_of_fits (n := 120)
    (x := (current.aum : Int) + balance + stake) (by omega) room
  have accepted := processGotBalance_succeeds found unpacked period aum_eq
  rw [receive_request asked]
  change ∃ after, processGotBalance s m.src balance stake = .ok (after, []) ∧ _
  rw [sender, nominatorAccount, accepted]
  refine ⟨_, rfl, ?_⟩
  rw [aumOf_updated]
  exact aum_eq

/-- What an answer in flight will add to the aum. -/
def reported (f : Flight) : Int :=
  match parseRequest f.message.body with
  | .ok (.gotBalance balance stake) => balance + stake
  | _ => 0

/-- The pool can read the entry of the nominator. -/
def Known (s : StakingPool.State) (f : Flight) : Prop :=
  (nominatorAt s.poolConfig.nominators f.nominator).isSome

/-- All requests in flight belong to the last order, no nominator is asked twice by it, and
the aum lacks exactly the answers in flight. -/
structure Accounted (cellHash : Cell → Uint 256) (net : Network.State) (last : Option Fetch) : Prop where
  reachable : Reachable cellHash net.pool
  quiet : last = none → net.requests = [] ∧ net.answers = []
  requests : ∀ f ∈ net.requests, f.fetch = net.fetches ∧ Known net.pool f
  answers : ∀ f ∈ net.answers, Known net.pool f ∧
    ∃ balance stake, parseRequest f.message.body = .ok (.gotBalance balance stake)
  distinct : ∀ g, last = some g →
    (net.requests.map (fun f => f.nominator) ++ g.answered.map Prod.fst).Nodup
  total : ∀ g, last = some g → aumOf net.pool + (net.answers.map reported).sum =
    g.poolBalance + g.changes + (g.answered.map Prod.snd).sum

variable {elector poolAddress : Uint 256} {net : Network.State} {last : Option Fetch}
variable {s pool after : StakingPool.State} {m : InMsg} {request : Request} {out : List OutMsg} {k : Nat} {f : Flight}

theorem Accounted.countedOnce (accounted : Accounted cellHash net last) : CountedOnce net last := by
  intro empty f known
  have total := accounted.total f known
  rw [empty] at total
  constructor
  · simpa using total
  · exact (List.nodup_append.mp (accounted.distinct f known)).2.1

theorem initial_accounted (reachable : Reachable cellHash s) (nominators : Uint 256 → Option NominatorContract.State) :
    Accounted cellHash (initial s nominators) none where
  reachable := reachable
  quiet := fun _ => ⟨rfl, rfl⟩
  requests := fun f member => by cases member
  answers := fun f member => by cases member
  distinct := nofun
  total := nofun

/-- The pool goes on while answers arrive. -/
theorem Accounted.update (accounted : Accounted cellHash net last) (reachable : Reachable cellHash pool)
    (entries : ∀ f, Known net.pool f → Known pool f) {answers : List Flight} {amount : Int}
    (arrived : answers ⊆ net.answers) (aum : aumOf pool + (answers.map reported).sum =
      aumOf net.pool + (net.answers.map reported).sum + amount) :
    Accounted cellHash { net with pool, answers } (last.map (Fetch.change · amount)) := by
  constructor
  case reachable => exact reachable
  case quiet =>
    intro none
    obtain ⟨noRequest, noAnswer⟩ := accounted.quiet (Option.map_eq_none_iff.mp none)
    rw [noAnswer] at arrived
    exact ⟨noRequest, List.subset_nil.mp arrived⟩
  case requests =>
    intro f member
    obtain ⟨tag, known⟩ := accounted.requests f member
    exact ⟨tag, entries f known⟩
  case answers =>
    intro f member
    obtain ⟨known, decoded⟩ := accounted.answers f (arrived member)
    exact ⟨entries f known, decoded⟩
  case distinct =>
    intro g known
    obtain ⟨old, was, rfl⟩ := Option.map_eq_some_iff.mp known
    exact accounted.distinct old was
  case total =>
    intro g known
    obtain ⟨old, was, rfl⟩ := Option.map_eq_some_iff.mp known
    have total := accounted.total old was
    change _ = (old.poolBalance : Int) + (old.changes + amount) + (old.answered.map Prod.snd).sum
    linarith

variable (accounted : Accounted cellHash net last)

include accounted

/-- A message from outside that is not a fetch order. -/
theorem accounted_change (asked : (Input.internal m).request = some request)
    (success : StakingPool.receive cellHash net.pool (.internal m) = .ok (after, out))
    (effect : Effect cellHash net.pool m request after out) (noFetch : request ≠ .fetchBalances)
    (noReport : ∀ balance stake, request ≠ .gotBalance balance stake) :
    Accounted cellHash (poolReceives cellHash net (.internal m)).1
      (notePool cellHash net.pool last (.internal m)) := by
  have other : (Input.internal m).request ≠ some .fetchBalances := by
    rw [asked]
    exact fun same => noFetch (Option.some.inj same)
  have noted : notePool cellHash net.pool last (.internal m) =
      last.map (Fetch.change · (change net.pool m out request)) := by
    unfold notePool
    rw [asked, success]
    cases request with
    | fetchBalances => exact (noFetch rfl).elim
    | _ => rfl
  rw [noted, poolReceives_success net success other (effect_silent accounted.reachable effect noFetch _)]
  refine accounted.update (accounted.reachable.success success) (fun f => effect_entries effect)
    (List.Subset.refl _) ?_
  rw [effect_aum effect noFetch noReport]
  ring

/-- A fetch order that is carried out while nothing is in flight. -/
theorem accounted_fetch {current : Performance} (asked : (Input.internal m).request = some .fetchBalances)
    (success : StakingPool.receive cellHash net.pool (.internal m) = .ok (after, out))
    (effect : FetchEffect net.pool m.src m.value m.balance current after out) (noRequest : net.requests = [])
    (noAnswer : net.answers = []) :
    Accounted cellHash (poolReceives cellHash net (.internal m)).1
      (notePool cellHash net.pool last (.internal m)) := by
  have count : fetchesAfter net (.internal m) = net.fetches + 1 := by
    unfold fetchesAfter
    rw [asked]
  have noted : notePool cellHash net.pool last (.internal m) = some ⟨m.balance, 0, []⟩ := by
    unfold notePool
    rw [asked, success]
  obtain ⟨targets, dests, sorted, asked⟩ := requestBalances_targets
    (Nat.lt_succ_of_le (Dict.remaining_le net.pool.poolConfig.nominators 0)) effect.sent
  obtain ⟨names, tags⟩ := toNominators_targets (net.fetches + 1) dests
  rw [noted, poolReceives, success]
  dsimp only
  rw [count, noRequest, List.nil_append]
  constructor
  case reachable => exact accounted.reachable.success success
  case quiet =>
    intro none
    cases none
  case requests =>
    intro f member
    have target : f.nominator.val ∈ targets.map Fin.val :=
      List.mem_map_of_mem (names ▸ List.mem_map_of_mem member)
    obtain ⟨-, x, entry, -⟩ := (asked _).mp target
    refine ⟨tags f member, ?_⟩
    rw [effect.state, Known, entry]
    rfl
  case answers =>
    intro f member
    rw [noAnswer] at member
    cases member
  case distinct =>
    intro g known
    cases known
    rw [List.map_nil, List.append_nil, names]
    exact sorted.imp fun less => Fin.ne_of_lt less
  case total =>
    intro g known
    cases known
    rw [noAnswer, effect.state, aumOf_updated]
    simp

/-- A request that arrives and is not answered. -/
theorem Accounted.unanswered (nominators : Uint 256 → Option NominatorContract.State) (k : Nat) :
    Accounted cellHash { net with nominators, requests := net.requests.eraseIdx k } last where
  reachable := accounted.reachable
  quiet := by
    intro none
    obtain ⟨noRequest, noAnswer⟩ := accounted.quiet none
    refine ⟨?_, noAnswer⟩
    simp [noRequest]
  requests := fun f member => accounted.requests f (List.mem_of_mem_eraseIdx member)
  answers := accounted.answers
  distinct := by
    intro g known
    refine (accounted.distinct g known).sublist (List.Sublist.append ?_ (List.Sublist.refl _))
    exact (List.eraseIdx_sublist _ _).map _
  total := accounted.total

/-- A request that a nominator answers moves from the requests to the answers. -/
theorem Accounted.answered (nominators : Uint 256 → Option NominatorContract.State)
    (arrived : net.requests[k]? = some f) {answer : OutMsg} {balance stake : Grams}
    (content : parseRequest answer.body = .ok (.gotBalance balance stake)) :
    Accounted cellHash
      { net with
        nominators
        requests := net.requests.eraseIdx k
        answers := net.answers ++ [⟨f.fetch, f.nominator, answer⟩] }
      (last.map (Fetch.report · f.nominator (balance + stake))) := by
  have member := List.mem_of_getElem? arrived
  have perm := eraseIdx_perm arrived
  have amount : reported ⟨f.fetch, f.nominator, answer⟩ = balance + stake := by
    unfold reported
    rw [content]
  constructor
  case reachable => exact accounted.reachable
  case quiet =>
    intro none
    rw [(accounted.quiet (Option.map_eq_none_iff.mp none)).1] at member
    cases member
  case requests => exact fun g inside => accounted.requests g (List.mem_of_mem_eraseIdx inside)
  case answers =>
    intro g inside
    rcases List.mem_append.mp inside with old | new
    · exact accounted.answers g old
    rw [List.mem_singleton] at new
    rw [new]
    exact ⟨(accounted.requests f member).2, balance, stake, content⟩
  case distinct =>
    intro g known
    obtain ⟨old, was, rfl⟩ := Option.map_eq_some_iff.mp known
    -- the nominator leaves the requests and enters the list of those that answered
    have distinct := accounted.distinct old was
    have moved : (net.requests.map (fun f => f.nominator) ++ old.answered.map Prod.fst).Perm
        ((net.requests.eraseIdx k).map (fun f => f.nominator) ++
          (old.answered ++ [(f.nominator, (balance : Int) + stake)]).map Prod.fst) := by
      rw [List.map_append, ← List.append_assoc]
      refine List.Perm.trans ?_ (List.perm_append_singleton _ _).symm
      exact (perm.symm.map _).append_right _
    exact moved.nodup_iff.mp distinct
  case total =>
    intro g known
    obtain ⟨old, was, rfl⟩ := Option.map_eq_some_iff.mp known
    have total := accounted.total old was
    change aumOf net.pool + ((net.answers ++ [_]).map reported).sum =
      (old.poolBalance : Int) + old.changes + ((old.answered ++ [_]).map Prod.snd).sum
    rw [List.map_append, List.map_append, List.sum_append, List.sum_append]
    simp only [List.map_cons, List.map_nil, List.sum_cons, List.sum_nil, amount]
    linarith

/-- An answer that arrives while the aum has room for it. -/
theorem accounted_answer {value balance : Grams} (room : Separate net (.answer k value balance)) :
    Accounted cellHash (deliverAnswer cellHash net k value balance).1 last := by
  unfold deliverAnswer
  split
  · exact accounted
  rename_i f arrived
  obtain ⟨known, b, stake, content⟩ := accounted.answers f (List.mem_of_getElem? arrived)
  have asked := deliver_request content (nominatorAccount f.nominator) value balance
  have other : (Input.internal (f.message.deliver (nominatorAccount f.nominator) value balance)).request ≠
      some .fetchBalances := by
    rw [asked]
    exact nofun
  obtain ⟨after, success, aum⟩ := gotBalance_accepted (reachable_history accounted.reachable) known rfl
    asked (room f b stake arrived content)
  have entries : ∀ g, Known net.pool g → Known after g := by
    rcases receive_effect accounted.reachable.indexed success with ⟨same, -, -⟩ | ⟨m, request, -, -, effect⟩
    · intro g
      rw [same]
      exact id
    · exact fun g => effect_entries effect
  have amount : aumOf after + ((net.answers.eraseIdx k).map reported).sum =
      aumOf net.pool + (net.answers.map reported).sum + 0 := by
    rw [aum, ← ((eraseIdx_perm arrived).map reported).sum_eq, List.map_cons, List.sum_cons, reported, content]
    ring
  rw [poolReceives_success { net with answers := net.answers.eraseIdx k } success other rfl]
  have counted := accounted.update (accounted.reachable.success success) entries (List.eraseIdx_subset ..) amount
  simpa [Fetch.change] using counted

theorem accounted_request (k : Nat) (value balance : Grams) :
    Accounted cellHash (deliverRequest elector poolAddress net k value balance).1
      (noteRequest elector poolAddress net last k value balance) := by
  unfold deliverRequest noteRequest
  cases arrived : net.requests[k]? with
  | none => exact accounted
  | some f =>
    dsimp only
    cases outcome : nominatorAnswers elector poolAddress net f value balance with
    | none => exact accounted.unanswered net.nominators k
    | some result =>
      obtain ⟨n, out⟩ := result
      rcases nominatorAnswers_out outcome with rfl | ⟨answer, rfl, content, flight⟩
      · simpa [toPool] using
          accounted.unanswered (Function.update net.nominators f.nominator (some n)) k
      · have tag := (accounted.requests f (List.mem_of_getElem? arrived)).1
        dsimp only
        rw [flight, if_pos tag]
        exact accounted.answered _ arrived content

theorem accounted_nominator (address : Uint 256) {i : NominatorContract.Input}
    (outside : fromPoolAccount poolAddress i = false) :
    Accounted cellHash (nominatorReceives elector poolAddress net address i).1 last := by
  unfold nominatorReceives
  split
  · exact accounted
  dsimp only
  rw [outside_silent outside, List.append_nil]
  exact ⟨accounted.reachable, accounted.quiet, accounted.requests, accounted.answers,
    accounted.distinct, accounted.total⟩

theorem accounted_pool {i : StakingPool.Input} (separate : Separate net (.pool i)) (outside : fromOutside i = true) :
    Accounted cellHash (poolReceives cellHash net i).1 (notePool cellHash net.pool last i) := by
  cases outcome : StakingPool.receive cellHash net.pool i with
  | error e =>
    have unnoted : notePool cellHash net.pool last i = last := by
      unfold notePool
      rw [outcome]
      split <;> simp_all
    rw [unnoted, poolReceives, outcome]
    exact accounted
  | ok result =>
    obtain ⟨after, out⟩ := result
    rcases receive_effect accounted.reachable.indexed outcome with
      ⟨rfl, rfl, idle⟩ | ⟨m, request, rfl, asked, effect⟩
    · have unnoted : notePool cellHash net.pool last i = last := by
        unfold notePool
        rw [idle]
        split <;> simp_all
      have other : i.request ≠ some .fetchBalances := by
        rw [idle]
        simp
      rw [unnoted, poolReceives_success net outcome other rfl]
      exact accounted
    · by_cases fetch : request = .fetchBalances
      · subst fetch
        cases effect with
        | fetch effect =>
          obtain ⟨noRequest, noAnswer⟩ := separate asked effect.owner (by exact_mod_cast effect.feePaid)
          exact accounted_fetch accounted asked outcome effect noRequest noAnswer
      · apply accounted_change accounted asked outcome effect fetch
        rintro balance stake rfl
        simp [fromOutside, asked] at outside

/-- One event keeps the books as long as fetch orders are separate. -/
theorem accounted_step {e : Event} (separate : Separate net e) :
    Accounted cellHash (commit (Network.receive cellHash elector poolAddress) net e).1
      (note cellHash elector poolAddress net last e) := by
  change Accounted cellHash (next cellHash elector poolAddress net e).1 _
  cases e with
  | pool i =>
    unfold next note
    dsimp only
    by_cases outside : fromOutside i
    · rw [if_pos outside, if_pos outside]
      exact accounted_pool accounted separate outside
    · rw [if_neg outside, if_neg outside]
      exact accounted
  | request k value balance => exact accounted_request accounted k value balance
  | answer k value balance => exact accounted_answer accounted separate
  | nominator address i =>
    unfold next
    dsimp only
    by_cases own : fromPoolAccount poolAddress i
    · rw [if_pos own]
      exact accounted
    · rw [if_neg own]
      exact accounted_nominator accounted address (Bool.eq_false_iff.mpr own)

end Answers

/-- In every interleaving in which fetch orders are carried out one after the other, the
funds of every nominator that answered the last order are counted exactly once. -/
theorem counted_once_when_separate {cellHash : Cell → Uint 256} (elector poolAddress : Uint 256)
    {poolConfig : PoolConfig} {init : InitMessage} {balance : Grams} {start : StakingPool.State}
    (initialised : tryInit cellHash 0 poolConfig init balance = .ok start)
    (nominators : Uint 256 → Option NominatorContract.State) (events : List Event)
    (separate : Meets (Network.receive cellHash elector poolAddress) Separate (initial start nominators)
      events) :
    AlwaysCountedOnce cellHash elector poolAddress (initial start nominators) events := by
  intro before after split
  rw [split] at separate
  have reachable : Reachable cellHash start :=
    ⟨poolConfig, init, balance, start, [], initialised, (run_nil _).symm⟩
  have accounted := track_preserves_of_meets (R := Accounted cellHash)
    (fun _ _ _ now books => accounted_step books now) (initial start nominators) none before
    separate.before (initial_accounted reachable nominators)
  exact accounted.countedOnce

def sampleNetwork : Network.State :=
  initial sampleState fun address =>
    if address = sampleNominator then some (NominatorContract.deployed 5 0) else none

/-- `UPDB` from the owner; its address and id are not read. -/
def sampleFetch (balance : Grams) : Input :=
  sampleMessage (sampleSender 7) 100000000 balance
    (sampleOperation 0x42445055 (Uint.bits (0 : Uint 256) ++ Uint.bits (0 : Uint 8)))

/-- Two fetch orders one after the other, with a deposit in between. -/
def consecutive : List Event :=
  [.pool (sampleFetch 100010000), .request 0 1000000 5000000000, .pool (sampleDeposit 8 2000000000),
    .answer 0 1000000 2100010000, .pool (sampleFetch 2200010000), .request 0 1000000 5000000000,
    .answer 0 1000000 2200010000]

/-- What the answer in flight says bounds the room it needs. -/
theorem room_of_reported {net : Network.State} {k : Nat} {value balance : Grams} (aum amount : Int)
    (current : aumOf net.pool = aum) (content : net.answers[k]?.map reported = some amount)
    (room : aum + amount < 2 ^ 120) : Separate net (.answer k value balance) := by
  intro f b stake arrived decoded
  rw [arrived, Option.map_some, Option.some.injEq, reported, decoded] at content
  rw [current, add_assoc]
  rwa [show (b : Int) + stake = amount from content]

theorem separate_deposit (net : Network.State) (sender : Uint 256) (value : Grams) :
    Separate net (.pool (sampleDeposit sender value)) := by
  intro asked
  rw [← sampleDeposit, sampleDeposit_request] at asked
  cases asked

theorem sample_counted_once :
    aumOf (run (Network.receive sampleHash sampleElector 5) sampleNetwork consecutive).pool = 2200010000 + 5000000000 ∧
      AlwaysCountedOnce sampleHash sampleElector 5 sampleNetwork consecutive := by
  refine ⟨by decide +kernel, counted_once_when_separate _ _ sample_initialised _ _ ?_⟩
  refine ⟨fun _ _ _ => ⟨rfl, rfl⟩, trivial, separate_deposit _ _ _, ?_, fun _ _ _ => ⟨?_, ?_⟩, trivial, ?_,
    trivial⟩
  · exact room_of_reported 2100010000 5000000000 (by decide +kernel) (by decide +kernel)
      (by norm_num)
  · exact List.eq_nil_of_length_eq_zero (by decide +kernel)
  · exact List.eq_nil_of_length_eq_zero (by decide +kernel)
  · exact room_of_reported 2200010000 5000000000 (by decide +kernel) (by decide +kernel)
      (by norm_num)

/-- A second fetch order before the first one is answered. -/
def overlapping : List Event :=
  [.pool (sampleFetch 100010000), .pool (sampleFetch 200010000),
    .request 0 1000000 5000000000, .request 0 1000000 5000000000,
    .answer 0 1000000 200010000, .answer 0 1000000 200010000]

/-- The funds of the nominator are counted twice. -/
theorem overlapping_fetches_count_twice :
    aumOf (run (Network.receive sampleHash sampleElector 5) sampleNetwork overlapping).pool =
        200010000 + 2 * 5000000000 ∧
      lastFetch sampleHash sampleElector 5 sampleNetwork overlapping =
        some ⟨200010000, 0, [(sampleNominator, 5000000000)]⟩ ∧
      ¬ AlwaysCountedOnce sampleHash sampleElector 5 sampleNetwork overlapping := by
  have aum : aumOf (run (Network.receive sampleHash sampleElector 5) sampleNetwork overlapping).pool =
      200010000 + 2 * 5000000000 := by decide +kernel
  have record : lastFetch sampleHash sampleElector 5 sampleNetwork overlapping =
      some ⟨200010000, 0, [(sampleNominator, 5000000000)]⟩ := by decide +kernel
  refine ⟨aum, record, ?_⟩
  intro always
  have arrived : (run (Network.receive sampleHash sampleElector 5) sampleNetwork overlapping).answers = [] :=
    List.eq_nil_of_length_eq_zero (by decide +kernel)
  obtain ⟨once, -⟩ := always overlapping [] (List.append_nil _).symm arrived _ record
  rw [aum] at once
  revert once
  decide

end TonStaking.Guarantees.BalanceFetch
