import TonStaking.Source.DnsAuto.Effects

/-!
# Registrations of the automatic DNS contract are not protected

An entry that has not expired should be safe: nobody registers its domain again,
its owner can update and prolong it, and no message of another sender changes
it. The contract looks at a variable that is null after every walk over the
names of a domain. So every update and every prolongation is refused, and a
registration by its owner replaces a live entry. Nobody else can register it: a
table without an owner record is refused with an exception. Besides, an old record in the list for the
housekeeping lets a stranger remove an entry in the second in which it expires.

The protection holds in a step exactly if none of this happens in it. What is
promised for expired domains holds, up to the width of the expiration field.
-/
namespace TonStaking.Guarantees.DomainProtection

open Tvm TonStaking.Source.DnsAuto

section Statement

variable (stringHash : List Bool → Uint 256) (s : State) (i : Input)

/-- An entry that has not expired. -/
def Live (now : Uint 32) (k : Nat) (e : Entry) : Prop := s.domdata.get? k = some e ∧ now ≤ e.exp

/-- The account of the owner record of a category table. -/
def owner (catTable : Cell) : Option (Int × Int) :=
  match idictGetRef? 16 catTable (-2) with
  | .ok info => parseOwner info
  | .error _ => none

def sender : Option (Int × Int) :=
  match i.message with
  | .external => none
  | .internal m =>
    match loadQuery m with
    | .ok (some q) => some (q.srcWc, q.srcAddr)
    | _ => none

/-- The message does not come from the owner of the entry. -/
def Stranger (e : Entry) : Prop := ∀ o, owner e.catTable = some o → sender i ≠ some o

abbrev key (r : Request) : Nat := domainKey stringHash r.domain

/-- The entry under `k` after the transaction. -/
def entryAfter (k : Nat) : Option Entry :=
  (commit (receive stringHash) s i).1.domdata.get? k

def answers : List Answer := (commit (receive stringHash) s i).2

/-- A request that the owner of a live entry may make, with the data that the entry should have after it. -/
structure Entitled (r : Request) (e : Entry) (data : Cell) (price : Int) : Prop where
  runs : Runs i
  asks : Asks i r
  live : Live s i.now (key stringHash r) e
  owned : owner e.catTable = some r.sender
  complete : Complete s r data price
  kind : match r.kind with
    | .register => False
    | .update => True
    | .prolong => data = e.catTable ∧ (e.exp : Nat) ≤ i.now + s.prices.stdper ∧
      (e.exp : Nat) + s.prices.stdper < 2 ^ 32

/-- The time of expiration after a request of the owner. -/
def expAfter (r : Request) (e : Entry) : Nat :=
  match r.kind with
  | .prolong => e.exp + s.prices.stdper
  | _ => e.exp

/-- A registration of a domain without a live entry, by somebody whom no owner of a live parent blocks. -/
structure Reopens (r : Request) (data : Cell) (price : Int) : Prop where
  runs : Runs i
  asks : Asks i r
  kind : r.kind = .register
  free : ∀ e, ¬ Live s i.now (key stringHash r) e
  unblocked : ∀ parents, names r.domain = parents ++ [r.domain] → ∀ name ∈ parents, ∀ e,
    Live s i.now (domainKey stringHash name) e → ∀ o, owner e.catTable = some o → o = r.sender
  complete : Complete s r data price

/-- The registrations are protected in the step `i` from `s`. -/
structure Protected : Prop where
  once : ∀ r e, Asks i r → r.kind = .register → Live s i.now (key stringHash r) e →
    entryAfter stringHash s i (key stringHash r) = some e ∧ ∀ price, answers stringHash s i ≠ sendOk r.q price
  served : ∀ r e data price, Entitled stringHash s i r e data price →
    answers stringHash s i = sendOk r.q price ∧
      ∃ e', entryAfter stringHash s i (key stringHash r) = some e' ∧ e'.catTable = data ∧ (e'.exp : Nat) = expAfter s r e
  unchanged : ∀ k e, Live s i.now k e → Stranger i e → entryAfter stringHash s i k = some e
  reopened : ∀ r data price, Reopens stringHash s i r data price →
    answers stringHash s i = sendOk r.q price ∧
      ∃ e', entryAfter stringHash s i (key stringHash r) = some e' ∧ e'.catTable = data ∧
        (e'.exp : Nat) = i.now + s.prices.stdper

/-- The housekeeping of the step looks at the entry under a key. -/
inductive Sweeps (k : Nat) : Prop
  | forced {steps : Int} (runs : Runs i) (forces : Forces s i steps)
      (member : k ∈ looked i.now { s with lhk := 1 } steps)
  | granted {r : Request} {data : Cell} {price : Int} (runs : Runs i) (asks : Asks i r)
      (g : Granted stringHash i.now s r data price)
      (member : k ∈ looked i.now g.recorded 1)

/-- The step does none of the things that break the protection. -/
structure Harmless : Prop where
  registration : ∀ r e data price, Runs i → Asks i r → Live s i.now (key stringHash r) e →
    ¬ Granted stringHash i.now s r data price
  owners : ∀ r e data price, ¬ Entitled stringHash s i r e data price
  collection : ∀ k e, Live s i.now k e → e.exp = i.now → Stranger i e → ¬ Sweeps stringHash s i k
  time : ∀ r data price, Reopens stringHash s i r data price → (i.now : Nat) + s.prices.stdper < 2 ^ 32

end Statement

section Step

variable {stringHash : List Bool → Uint 256} {s : State} {i : Input} {r : Request} {e : Entry} {data : Cell}
  {price : Int} {k n : Nat} {keys : List Nat}

theorem refused (asks : Asks i r) (ungranted : ∀ data price, Runs i → ¬ Granted stringHash i.now s r data price) :
    (commit (receive stringHash) s i).1 = s ∧ ∀ price, answers stringHash s i ≠ sendOk r.q price := by
  by_cases runs : Runs i
  · have performed : receive stringHash s i = _ := receive_asks runs asks
    cases outcome : receive stringHash s i with
    | error exc =>
      rw [answers, commit_of_error outcome]
      exact ⟨rfl, nofun⟩
    | ok result =>
      rw [answers, commit_of_success outcome]
      rw [performed] at outcome
      rcases perform_success asks.terminated outcome with ⟨same, code, other, out⟩ | ⟨data, price, g⟩
      · refine ⟨same, fun price equal => ?_⟩
        rw [out] at equal
        cases equal
      · exact absurd g (ungranted data price runs)
  · rw [answers, commit_fails runs]
    exact ⟨rfl, nofun⟩

theorem not_granted_of_entitled (h : Entitled stringHash s i r e data price) {data' : Cell} {price' : Int} :
    ¬ Granted stringHash i.now s r data' price' := by
  intro g
  have kind := h.kind
  rw [g.kind] at kind
  exact kind

theorem kept_swept (member : k ∈ keys) (due : e.exp ≤ n) :
    kept n keys k (some e) = none := if_pos ⟨member, due⟩

theorem kept_unswept (alive : k ∈ keys → ¬ e.exp ≤ n) :
    kept n keys k (some e) = some e := if_neg fun both => alive both.1 both.2

theorem granted_entry (runs : Runs i) (asks : Asks i r) (g : Granted stringHash i.now s r data price) :
    entryAfter stringHash s i (key stringHash r) = some ⟨⟨i.now + s.prices.stdper, g.fits⟩, data⟩ := by
  have entry := (commit_granted runs asks g).2 (key stringHash r)
  rw [if_pos rfl] at entry
  have enabled := g.complete.enabled
  refine entry.trans (kept_unswept fun _ due => ?_)
  dsimp only at due
  omega

/-- Nobody stands in the way of a registration that reopens a domain. -/
theorem Reopens.granted (sound : Sound s) (h : Reopens stringHash s i r data price)
    (fits : (i.now : Nat) + s.prices.stdper < 2 ^ 32) : Granted stringHash i.now s r data price := by
  refine ⟨h.kind, h.complete, ?_, fits⟩
  obtain ⟨parents, last⟩ := names_last h.asks.terminated
  refine walk_clear r.sender h.asks.terminated fun name member e found live => ?_
  rw [last] at member
  rcases List.mem_append.mp member with parent | self
  · obtain ⟨info, read, readable⟩ := sound _ e found
    obtain ⟨o, parsed⟩ := Option.isSome_iff_exists.mp readable
    have owned : owner e.catTable = some o := by
      rw [owner, read]
      exact parsed
    rw [h.unblocked parents last name parent e ⟨found, live⟩ o owned] at parsed
    exact ⟨info, read, parsed⟩
  · rw [List.mem_singleton.mp self] at found
    exact absurd ⟨found, live⟩ (h.free e)

theorem Harmless.protected (sound : Sound s) (h : Harmless stringHash s i) : Protected stringHash s i where
  once r e asks kind live := by
    have outcome := refused asks fun data price runs => h.registration r e data price runs asks live
    refine ⟨?_, outcome.2⟩
    rw [entryAfter, outcome.1]
    exact live.1
  served r e data price entitled := absurd entitled (h.owners r e data price)
  unchanged k e live stranger := by
    have late (swept : Sweeps stringHash s i k) : ¬ (e.exp : Nat) ≤ i.now := by
      intro due
      have equal : e.exp = i.now := Fin.ext (Nat.le_antisymm due live.2)
      exact h.collection k e live equal stranger swept
    rcases commit_cases stringHash s i with ⟨runs, r, data, price, asks, g⟩ | ⟨runs, steps, forces⟩ | same
    · have entry := (commit_granted runs asks g).2 k
      have other : k ≠ domainKey stringHash r.domain := by
        intro equal
        rw [equal] at live
        exact h.registration r e data price runs asks live g
      rw [if_neg other, live.1] at entry
      exact entry.trans (kept_unswept fun member => late (.granted runs asks g member))
    · have entry : entryAfter stringHash s i k = _ := commit_forced runs forces k
      rw [live.1] at entry
      exact entry.trans (kept_unswept fun member => late (.forced runs forces member))
    · rw [entryAfter, same]
      exact live.1
  reopened r data price reopens := by
    have g := reopens.granted sound (h.time r data price reopens)
    exact ⟨(commit_granted reopens.runs reopens.asks g).1, _, granted_entry reopens.runs reopens.asks g, rfl, rfl⟩

/-- The housekeeping removes a live entry in its last second. -/
theorem swept_gone (live : Live s i.now k e) (last : e.exp = i.now) (swept : Sweeps stringHash s i k)
    (ungranted : ∀ r data price, Runs i → Asks i r → k = key stringHash r → ¬ Granted stringHash i.now s r data price) :
    entryAfter stringHash s i k = none := by
  have due : (e.exp : Nat) ≤ i.now := by rw [last]
  cases swept with
  | forced runs forces member =>
    have entry : entryAfter stringHash s i k = _ := commit_forced runs forces k
    rw [live.1] at entry
    exact entry.trans (kept_swept member due)
  | @granted r data price runs asks g member =>
    have entry := (commit_granted runs asks g).2 k
    have other : k ≠ domainKey stringHash r.domain := fun equal => ungranted r data price runs asks equal g
    rw [if_neg other, live.1] at entry
    exact entry.trans (kept_swept member due)

theorem Protected.harmless (h : Protected stringHash s i) : Harmless stringHash s i := by
  have registration : ∀ r e data price, Runs i → Asks i r → Live s i.now (key stringHash r) e →
      ¬ Granted stringHash i.now s r data price := by
    intro r e data price runs asks live g
    exact (h.once r e asks g.kind live).2 price (commit_granted runs asks g).1
  refine ⟨registration, ?_, ?_, ?_⟩
  · intro r e data price entitled
    have outcome := refused entitled.asks fun _ _ _ => not_granted_of_entitled entitled
    exact outcome.2 price (h.served r e data price entitled).1
  · intro k e live last stranger swept
    have gone := swept_gone live last swept fun r data price runs asks equal g => by
      rw [equal] at live
      exact registration r e data price runs asks live g
    rw [h.unchanged k e live stranger] at gone
    cases gone
  · intro r data price reopens
    obtain ⟨-, e', -, -, exp⟩ := h.reopened r data price reopens
    rw [← exp]
    exact e'.exp.isLt

end Step

/-- In every run the registrations are protected in all steps exactly if no step does harm. -/
theorem registrations_protected_iff (stringHash : List Bool → Uint 256) (ctl : Cell) (prices : Prices)
    (inputs : List Input) :
    (∀ before i after, inputs = before ++ i :: after →
      Protected stringHash (run (receive stringHash) (initialData ctl prices) before) i) ↔
      Meets (receive stringHash) (Harmless stringHash) (initialData ctl prices) inputs := by
  have start : Sound (initialData ctl prices) := nofun
  have sound (before : List Input) : Sound (run (receive stringHash) (initialData ctl prices) before) := by
    induction before using List.reverseRecOn with
    | nil => exact start
    | append_singleton before i ih =>
      rw [run_snoc]
      exact commit_sound ih
  rw [meets_iff]
  constructor
  · intro always before i after split
    exact (always before i after split).harmless
  · intro meets before i after split
    exact (meets before i after split).protected (sound before)

def sampleHash (name : List Bool) : Uint 256 := Fin.ofNat _ (natOf name * 2 ^ 32)

/-- Domains for a thousand seconds, free of charge. -/
def samplePrices : Prices := { stdper := 1000, ppr := 0, ppc := 0, ppb := 0 }

variable (now : Uint 32) (address : Uint 256) (kind : Kind) (data : Cell)

/-- The owner record of an account of the basechain. -/
def sampleOwner : Cell :=
  .mk (bitsOf 19 (0x9fd3 * 8 + 4) ++ bitsOf 8 0 ++ Uint.bits address) []

/-- A category table with nothing but an owner record. -/
def sampleTable : Cell :=
  .mk (Hashmap.appendLabel (Hashmap.intBits 16 (-2)) 16) [sampleOwner address]

/-- The domain `a`. -/
def sampleDomain : List Bool := bitsOf 16 0x6100

def sampleQuery : Query where
  addr := accountAddress ⟨0, base_fits⟩ address
  srcWc := 0
  srcAddr := address.val
  op := Fin.ofNat _ kind.op
  queryId := 7
  rest := ⟨false :: bitsOf 6 2 ++ sampleDomain ++ bitsOf 32 0, [data]⟩

def sampleMessage : InMsg where
  flags := 6
  src := accountAddress ⟨0, base_fits⟩ address
  value := Fin.ofNat _ (2 ^ 31)
  body := ⟨bitsOf 32 kind.op ++ bitsOf 64 7 ++ (sampleQuery address kind data).rest.bits, [data]⟩
  balance := Fin.ofNat _ (2 ^ 40)

def sampleInput : Input where
  now := now
  message := .internal (sampleMessage address kind data)
  gas := true
  acts := true

def sampleRequest : Request where
  q := sampleQuery address kind data
  value := Fin.ofNat _ (2 ^ 31)
  kind := kind
  domain := sampleDomain
  inMsg := ⟨bitsOf 32 0, [data]⟩

/-- The state after a registration of the domain at time 100. -/
def sampleState : State :=
  run (receive sampleHash) (initialData (.mk [] []) samplePrices) [sampleInput 100 1 .register (sampleTable 1)]

set_option maxRecDepth 20000 in
/-- The owner of a live entry registers its domain again, and cannot update it. -/
theorem live_entry_replaced :
    ¬ Protected sampleHash sampleState (sampleInput 200 1 .register (sampleTable 2)) ∧
      ¬ Protected sampleHash sampleState (sampleInput 200 1 .update (sampleTable 2)) := by
  have asks (kind : Kind) : Asks (sampleInput 200 1 kind (sampleTable 2)) (sampleRequest 1 kind (sampleTable 2)) := by
    cases kind <;> exact ⟨_, rfl, rfl, rfl, rfl, rfl⟩
  have live : Live sampleState 200 (natOf sampleDomain) ⟨1100, sampleTable 1⟩ := ⟨rfl, by decide⟩
  constructor
  · intro protects
    have accepted : answers sampleHash sampleState (sampleInput 200 1 .register (sampleTable 2)) =
        sendOk (sampleQuery 1 .register (sampleTable 2)) 0 := rfl
    exact (protects.once _ _ (asks .register) rfl live).2 0 accepted
  · intro protects
    have prices : sampleState.prices = samplePrices := rfl
    have complete : Complete sampleState (sampleRequest 1 .update (sampleTable 2)) (sampleTable 2) 0 := by
      refine ⟨by decide, ⟨_, _, rfl, rfl⟩, ?_, ?_, show (0 : Int) ≤ 2 ^ 31 - 2 ^ 30 by decide⟩
      · rw [prices]
        decide
      · rw [prices]
        rfl
    have entitled : Entitled sampleHash sampleState (sampleInput 200 1 .update (sampleTable 2))
        (sampleRequest 1 .update (sampleTable 2)) ⟨1100, sampleTable 1⟩ (sampleTable 2) 0 :=
      ⟨⟨rfl, rfl⟩, asks .update, live, rfl, complete, trivial⟩
    have answered := (protects.served _ _ _ _ entitled).1
    cases answered

end TonStaking.Guarantees.DomainProtection
