import TonStaking.Source.DnsAuto.Contract

/-!
# Effects of a message on the domains

What the housekeeping removes, what the walk over the names of a domain finds,
and when a request is granted. A walk leaves the table that the owner check and
the registration look at null, so that prolongations and updates are never
granted and a registration does not see the entry that it replaces.
-/
namespace TonStaking.Source.DnsAuto

open Tvm Tvm.Hashmap

section Housekeeping

/-- The keys of the records that the housekeeping takes from the list. -/
def overdue (n : Nat) : List (Nat × Unit) → Int → List Nat
  | [], _ => []
  | (mkey, _) :: rest, steps =>
    if steps = 0 then []
    else if mkey / 2 ^ 224 < n then mkey % 2 ^ 224 :: overdue n rest (steps - 1) else []

/-- The keys that the housekeeping of the data `s` looks at. -/
def looked (now : Uint 32) (s : State) (maxSteps : Int) : List Nat :=
  if (now : Nat) < max (s.nhk : Nat) (s.lhk + 60) then [] else overdue now s.gc.entries maxSteps

/-- The entry under `k` after a look at the given keys. -/
def kept (n : Nat) (keys : List Nat) (k : Nat) : Option Entry → Option Entry
  | some e => if k ∈ keys ∧ e.exp ≤ n then none else some e
  | none => none

variable {n : Nat} {keys : List Nat} {k : Nat}

theorem kept_none (found : Option Entry) : kept n [] k found = found := by
  cases found with
  | none => rfl
  | some e => simp [kept]

theorem get?_dropExpired (dd : Dict 224 Entry) (key : Nat) :
    (dropExpired n dd key).get? k = kept n [key] k (dd.get? k) := by
  unfold dropExpired
  by_cases here : k = key
  · subst here
    cases found : dd.get? k with
    | none => exact found
    | some e =>
      dsimp only [kept]
      split
      · next due => rw [Dict.get?_erase, if_pos rfl, if_pos ⟨List.mem_cons_self .., due⟩]
      · next later => rw [found, if_neg fun both => later both.2]
  · have other : kept n [key] k (dd.get? k) = dd.get? k := by
      cases dd.get? k with
      | none => rfl
      | some e => exact if_neg fun both => here (List.mem_singleton.mp both.1)
    rw [other]
    split
    · split
      · rw [Dict.get?_erase, if_neg here]
      · rfl
    · rfl

theorem kept_cons (key : Nat) (found : Option Entry) :
    kept n keys k (kept n [key] k found) = kept n (key :: keys) k found := by
  cases found with
  | none => rfl
  | some e =>
    by_cases due : e.exp ≤ n
    · by_cases here : k = key
      · simp [kept, here, due]
      · simp [kept, here]
    · simp [kept, due]

theorem get?_collect (fuel : Nat) (dd : Dict 224 Entry) (gc : Dict 256 Unit) (nhk : Nat) (steps : Int)
    (enough : gc.entries.length ≤ fuel) :
    (collect n fuel dd gc nhk steps).1.get? k = kept n (overdue n gc.entries steps) k (dd.get? k) := by
  induction fuel generalizing dd gc nhk steps with
  | zero =>
    have empty := List.length_eq_zero_iff.mp (Nat.le_zero.mp enough)
    rw [collect, empty, overdue, kept_none]
  | succ fuel ih =>
    unfold collect
    split
    · next none =>
      rw [Dict.udictDeleteGetMin?_none none, overdue, kept_none]
    rename_i mkey u rest least
    have entries := Dict.udictDeleteGetMin?_some least
    have fewer : rest.entries.length ≤ fuel := by
      rw [entries] at enough
      simpa using enough
    rw [entries, overdue]
    split
    · exact (kept_none _).symm
    split
    · rw [ih _ _ _ _ fewer, get?_dropExpired, kept_cons]
    · exact (kept_none _).symm

theorem collect_nhk (fuel : Nat) (dd : Dict 224 Entry) (gc : Dict 256 Unit) (nhk : Nat) (steps : Int)
    (fits : nhk < 2 ^ 32) : (collect n fuel dd gc nhk steps).2.2 < 2 ^ 32 := by
  have time {d : Dict 256 Unit} {mkey : Nat} {u : Unit} {rest : Dict 256 Unit}
      (least : d.udictDeleteGetMin? = some (mkey, u, rest)) : mkey / 2 ^ 224 < 2 ^ 32 := by
    have bound := d.bounded (mkey, u) (by rw [Dict.udictDeleteGetMin?_some least]; exact List.mem_cons_self ..)
    omega
  induction fuel generalizing dd gc nhk steps with
  | zero => exact fits
  | succ fuel ih =>
    unfold collect
    split
    · exact fits
    rename_i mkey u rest least
    split
    · exact fits
    split
    · refine ih _ _ _ _ ?_
      split
      · next found => exact time found
      · decide
    · exact time least

/-- The housekeeping always succeeds. -/
theorem housekeeping_effect (now : Uint 32) (s : State) (steps : Int) :
    ∃ after, housekeeping now s steps = .ok after ∧
      ∀ k, after.domdata.get? k = kept now (looked now s steps) k (s.domdata.get? k) := by
  unfold housekeeping looked
  split
  · exact ⟨s, rfl, fun k => (kept_none _).symm⟩
  have fits := collect_nhk (n := now) s.gc.entries.length s.domdata s.gc s.nhk steps s.nhk.isLt
  obtain ⟨nhk, stored, -⟩ := storeUint_of_fits (n := 32) (Int.natCast_nonneg _) (by exact_mod_cast fits)
  dsimp only
  rw [stored]
  exact ⟨_, rfl, fun k => get?_collect _ _ _ _ _ le_rfl⟩

end Housekeeping

section Names

variable (stringHash : List Bool → Uint 256)
variable {domain name : List Bool} {l : List (List Bool)}

/-- The zero-terminated prefixes of a domain, from a front that has been read and the bytes behind it. -/
def namesFrom : List Bool → Nat → List Bool → List (List Bool)
  | _, 0, _ => []
  | front, rounds + 1, tail =>
    let rest := namesFrom (front ++ tail.take 8) rounds (tail.drop 8)
    if natOf (tail.take 8) = 0 then (front ++ tail.take 8) :: rest else rest

/-- The names under which a domain and its parents are stored, the domain itself last. -/
def names (domain : List Bool) : List (List Bool) := namesFrom [] (domain.length / 8) domain

/-- Whole bytes, the last of which is zero. -/
structure Terminated (domain : List Bool) : Prop where
  bytes : domain.length % 8 = 0
  some : 8 ≤ domain.length
  zero : natOf (domain.drop (domain.length - 8)) = 0

theorem loadBits_length {n : Nat} {s rest : Slice} {bits : List Bool} (h : loadBits n s = .ok (bits, rest)) :
    bits.length = n := by
  obtain ⟨front, taken, h⟩ := of_bind h
  obtain ⟨tail, -, h⟩ := of_bind h
  cases h
  unfold preloadBits at taken
  split at taken
  · next enough =>
    cases taken
    exact List.length_take_of_le enough
  · cases taken

theorem loadDomain_terminated {inMsg rest : Slice} (h : loadDomain inMsg = .ok (some domain, rest)) :
    Terminated domain := by
  obtain ⟨⟨domainCell, inMsg⟩, -, h⟩ := of_bind h
  cases domainCell with
  | none =>
    obtain ⟨⟨bytes, inMsg⟩, -, h⟩ := of_bind h
    obtain ⟨⟨bits, inMsg⟩, loaded, h⟩ := of_bind h
    dsimp only at h
    split at h
    · next good =>
      cases h
      have len := loadBits_length loaded
      exact ⟨by omega, by omega, good.2⟩
    · cases h
  | some cell =>
    dsimp only at h
    split at h
    · next good =>
      cases h
      exact ⟨good.2.1, good.2.2.1, good.2.2.2.2⟩
    · cases h

theorem namesFrom_last (rounds : Nat) (front tail : List Bool) (len : tail.length = 8 * (rounds + 1))
    (zero : natOf (tail.drop (tail.length - 8)) = 0) :
    ∃ parents, namesFrom front (rounds + 1) tail = parents ++ [front ++ tail] := by
  induction rounds generalizing front tail with
  | zero =>
    have whole : tail.take 8 = tail := List.take_of_length_le (by omega)
    have last : natOf tail = 0 := by
      rw [len] at zero
      exact zero
    refine ⟨[], ?_⟩
    rw [namesFrom, whole, if_pos last, namesFrom, List.nil_append]
  | succ rounds ih =>
    have shorter : (tail.drop 8).length = 8 * (rounds + 1) := by
      rw [List.length_drop]
      omega
    have last : (tail.drop 8).drop ((tail.drop 8).length - 8) = tail.drop (tail.length - 8) := by
      rw [List.drop_drop, List.length_drop]
      congr 1
      omega
    obtain ⟨parents, found⟩ := ih (front ++ tail.take 8) (tail.drop 8) shorter (by rw [last]; exact zero)
    rw [List.append_assoc, List.take_append_drop] at found
    rw [namesFrom, found]
    split
    · exact ⟨(front ++ tail.take 8) :: parents, rfl⟩
    · exact ⟨parents, rfl⟩

theorem names_last (h : Terminated domain) : ∃ parents, names domain = parents ++ [domain] := by
  have bytes := h.bytes
  have some := h.some
  obtain ⟨rounds, count⟩ : ∃ rounds, domain.length / 8 = rounds + 1 := ⟨domain.length / 8 - 1, by omega⟩
  rw [names, count]
  exact namesFrom_last rounds [] domain (by omega) h.zero

variable {stringHash} {now : Uint 32} {domdata : Dict 224 Entry} {w w' : Walk} {sender : Int × Int}

theorem visit_success (h : visit stringHash now domdata w name = .ok w') :
    w'.catTable = w.catTable ∧ w'.key = domainKey stringHash name ∧ w'.zeros = w.zeros + 1 := by
  unfold visit at h
  dsimp only at h
  split at h
  · cases h
    exact ⟨rfl, rfl, rfl⟩
  split at h
  · obtain ⟨cown, -, h⟩ := of_bind h
    cases h
    exact ⟨rfl, rfl, rfl⟩
  · cases h
    exact ⟨rfl, rfl, rfl⟩

theorem walk_eq_fold (rounds : Nat) (front tail : List Bool) (len : tail.length = 8 * rounds) (w : Walk)
    (null : w.catTable = none) :
    walk stringHash now domdata (front ++ tail) rounds tail w =
      (namesFrom front rounds tail).foldlM (visit stringHash now domdata) w := by
  induction rounds generalizing front tail w with
  | zero => rfl
  | succ rounds ih =>
    have enough : 8 ≤ tail.length := by omega
    have shorter : (tail.drop 8).length = 8 * rounds := by
      rw [List.length_drop]
      omega
    have whole : front ++ tail = (front ++ tail.take 8) ++ tail.drop 8 := by
      rw [List.append_assoc, List.take_append_drop]
    have name : (front ++ tail).take ((front ++ tail).length - (tail.drop 8).length) = front ++ tail.take 8 := by
      rw [whole, List.length_append, Nat.add_sub_cancel]
      exact List.take_left' rfl
    have same : { w with catTable := none } = w := by
      rw [← null]
    have rest := ih (front ++ tail.take 8) (tail.drop 8) shorter
    rw [← whole] at rest
    rw [walk, same, preloadBits, if_pos enough, ok_bind, namesFrom]
    dsimp only
    rw [name]
    split
    · rw [List.foldlM_cons]
      cases visited : visit stringHash now domdata w (front ++ tail.take 8) with
      | error e => rfl
      | ok next => exact rest next ((visit_success visited).1.trans null)
    · exact rest w null

theorem walk_names (terminated : Terminated domain) :
    walk stringHash now domdata domain (domain.length / 8) domain .start =
      (names domain).foldlM (visit stringHash now domdata) .start := by
  have bytes := terminated.bytes
  exact walk_eq_fold (domain.length / 8) [] domain (by omega) .start rfl

theorem fold_success (h : l.foldlM (visit stringHash now domdata) w = .ok w') :
    w'.catTable = w.catTable ∧ w'.zeros = w.zeros + l.length ∧
      ∀ parents last, l = parents ++ [last] → w'.key = domainKey stringHash last := by
  induction l generalizing w with
  | nil =>
    cases h
    exact ⟨rfl, rfl, fun parents last split => by simp at split⟩
  | cons name l ih =>
    obtain ⟨next, visited, h⟩ := of_bind h
    have first := visit_success visited
    have rest := ih h
    refine ⟨rest.1.trans first.1, ?_, fun parents last split => ?_⟩
    · rw [rest.2.1, first.2.2, List.length_cons]
      omega
    · cases parents with
      | nil =>
        obtain ⟨rfl, rfl⟩ := List.cons.inj split
        cases h
        exact first.2.1
      | cons p parents => exact rest.2.2 parents last (List.cons.inj split).2

/-- After the loop the table is null and the key is the key of the whole domain. -/
theorem walk_success (terminated : Terminated domain)
    (h : walk stringHash now domdata domain (domain.length / 8) domain .start = .ok w) :
    w.catTable = none ∧ w.zeros = (names domain).length ∧ w.key = domainKey stringHash domain := by
  rw [walk_names terminated] at h
  obtain ⟨parents, last⟩ := names_last terminated
  have found := fold_success h
  exact ⟨found.1, by rw [found.2.1]; exact Nat.zero_add _, found.2.2 parents domain last⟩

/-- The entry of a name does not stand in the way of the account `sender`. -/
def Clear (stringHash : List Bool → Uint 256) (now : Uint 32) (domdata : Dict 224 Entry) (sender : Int × Int)
    (name : List Bool) : Prop :=
  ∀ e, domdata.get? (domainKey stringHash name) = some e → now ≤ e.exp →
    ∃ info, idictGetRef? 16 e.catTable (-2) = .ok info ∧ parseOwner info = some sender

/-- The walk has found no other owner than `sender`. -/
def Walk.Finds (w : Walk) (sender : Int × Int) : Prop := ∀ c, w.ownerInfo = some c → parseOwner c = some sender

theorem visit_clear (clear : Clear stringHash now domdata sender name) (own : w.Finds sender) :
    ∃ w', visit stringHash now domdata w name = .ok w' ∧ w'.Finds sender := by
  unfold visit
  dsimp only
  cases found : domdata.get? (domainKey stringHash name) with
  | none => exact ⟨_, rfl, own⟩
  | some e =>
    dsimp only
    split
    · next live =>
      obtain ⟨info, read, owned⟩ := clear e found live
      rw [read, ok_bind]
      refine ⟨_, rfl, fun c same => ?_⟩
      cases same
      exact owned
    · exact ⟨_, rfl, own⟩

theorem fold_clear (clear : ∀ name ∈ l, Clear stringHash now domdata sender name) (own : w.Finds sender) :
    ∃ w', l.foldlM (visit stringHash now domdata) w = .ok w' ∧ w'.Finds sender := by
  induction l generalizing w with
  | nil => exact ⟨w, rfl, own⟩
  | cons name l ih =>
    obtain ⟨next, visited, owned⟩ := visit_clear (clear name (List.mem_cons_self ..)) own
    rw [List.foldlM_cons, visited]
    exact ih (fun name member => clear name (List.mem_cons_of_mem _ member)) owned

/-- The walk over names that are all clear finds nobody but the sender. -/
theorem walk_clear (sender : Int × Int) (terminated : Terminated domain)
    (clear : ∀ name ∈ names domain, Clear stringHash now domdata sender name) :
    ∃ w, walk stringHash now domdata domain (domain.length / 8) domain .start = .ok w ∧
      checkOwner none w.ownerInfo sender.1 sender.2 false = 0 := by
  have start : Walk.start.Finds sender := by rintro c ⟨⟩
  obtain ⟨w, found, owned⟩ := fold_clear clear start
  refine ⟨w, (walk_names terminated).trans found, ?_⟩
  unfold checkOwner
  cases info : w.ownerInfo with
  | none => rfl
  | some c => simp [owned c info]

end Names

section Requests

/-- A request on a domain, as the handler has read it. -/
structure Request where
  q : Query
  value : Grams
  kind : Kind
  domain : List Bool
  inMsg : Slice

def Request.sender (r : Request) : Int × Int := (r.q.srcWc, r.q.srcAddr)

/-- A request with few enough labels, with its data and with its price, to a contract that is enabled. -/
structure Complete (s : State) (r : Request) (data : Cell) (price : Int) : Prop where
  labels : (names r.domain).length ≤ 4
  loaded : ∃ rest field, requestedData r.kind (some data) r.inMsg = .ok (some data, rest) ∧
    loadUint 32 rest = .ok field
  enabled : s.prices.stdper.val ≠ 0
  priced : requestPrice s.prices r.kind r.domain (some data) = .ok price
  paid : price ≤ (r.value : Int) - 2 ^ 30

variable (stringHash : List Bool → Uint 256)

/-- A registration that passes all checks. -/
structure Granted (now : Uint 32) (s : State) (r : Request) (data : Cell) (price : Int) : Prop where
  kind : r.kind = .register
  complete : Complete s r data price
  passes : ∃ w, walk stringHash now s.domdata r.domain (r.domain.length / 8) r.domain .start = .ok w ∧
    checkOwner none w.ownerInfo r.q.srcWc r.q.srcAddr false = 0
  fits : (now : Nat) + s.prices.stdper < 2 ^ 32

/-- The data with a new entry and its record, as the housekeeping gets it. -/
def recorded (s : State) (key : Uint 224) (expiresAt : Uint 32) (data : Cell) : State :=
  { s with
    domdata := s.domdata.set key key.isLt { exp := expiresAt, catTable := data }
    gc := s.gc.set (expiresAt * 2 ^ 224 + key) (by have := expiresAt.isLt; have := key.isLt; omega) ()
    nhk := if s.nhk ≤ expiresAt then s.nhk else expiresAt }

variable {stringHash} {now : Uint 32} {s after : State} {r : Request} {data : Cell} {price : Int}
  {out : List Answer}

abbrev Granted.recorded (g : Granted stringHash now s r data price) : State :=
  DnsAuto.recorded s (domainKey stringHash r.domain) ⟨now + s.prices.stdper, g.fits⟩ data

theorem register_null {q : Query} {w : Walk} (null : w.catTable = none) :
    register now s q w data price =
      if fits : (now : Nat) + s.prices.stdper < 2 ^ 32 then do
        let after ← housekeeping now (recorded s w.key ⟨now + s.prices.stdper, fits⟩ data) 1
        .ok (after, sendOk q price)
      else .error .rangeChk := by
  have seen : ¬ w.catTable.isSome = true := by simp [null]
  rw [register, if_neg seen]
  split
  · next fits =>
    have record : (now + s.prices.stdper : Nat) * 2 ^ 224 + (w.key : Nat) < 2 ^ 256 := by
      omega
    have stored := storeUint_val (n := 32) ⟨now + s.prices.stdper, fits⟩
    rw [stored, ok_bind, Dict.udictSet_natCast s.gc _ record]
    rfl
  · next large =>
    have refused : storeUint 32 ((now + s.prices.stdper : Nat) : Int) = .error .rangeChk :=
      dif_neg fun fits => large (by exact_mod_cast fits.2)
    rw [refused]
    rfl

theorem perform_granted (terminated : Terminated r.domain) (g : Granted stringHash now s r data price) :
    perform stringHash now s r.q r.value r.kind r.domain r.inMsg = (do
      let after ← housekeeping now g.recorded 1
      .ok (after, sendOk r.q price)) := by
  obtain ⟨w, walked, unblocked⟩ := g.passes
  obtain ⟨rest, field, loaded, expires⟩ := g.complete.loaded
  have found := walk_success terminated walked
  have labels : ¬ 4 < w.zeros := by
    rw [found.2.1]
    exact not_lt.mpr g.complete.labels
  have priced := g.complete.priced
  rw [g.kind] at priced loaded
  have own : requestedData .register none r.inMsg = .ok (some data, rest) := loaded
  rw [perform, walked, ok_bind, if_neg labels, found.1, g.kind]
  dsimp only [Kind.strict]
  rw [unblocked, if_neg (by simp), own, ok_bind, if_neg g.complete.enabled]
  rw [priced, ok_bind, if_neg (not_lt.mpr g.complete.paid), expires, ok_bind]
  dsimp only [orNull]
  rw [ok_bind, register_null found.1, dif_pos g.fits, found.2.2]

/-- A request ends in a refusal that leaves the data as it is, or it is a registration that passes all
checks. -/
theorem perform_success (terminated : Terminated r.domain)
    (h : perform stringHash now s r.q r.value r.kind r.domain r.inMsg = .ok (after, out)) :
    (after = s ∧ ∃ code, code ≠ okTag ∧ out = sendError r.q code) ∨
      ∃ data price, Granted stringHash now s r data price := by
  obtain ⟨w, walked, h⟩ := of_bind h
  have found := walk_success terminated walked
  have refused {code : Nat} {granted : Prop} (other : code ≠ okTag)
      (h : (Except.ok (s, sendError r.q code) : Outcome _) = .ok (after, out)) :
      (after = s ∧ ∃ code, code ≠ okTag ∧ out = sendError r.q code) ∨ granted := by
    cases h
    exact .inl ⟨rfl, code, other, rfl⟩
  dsimp only at h
  split at h
  · exact refused (by decide) h
  next labels =>
  split at h
  · refine refused ?_ h
    unfold checkOwner
    split
    · decide
    split
    · split <;> decide
    split
    · decide
    · split <;> decide
  next passed =>
  have passed := not_not.mp passed
  rw [found.1] at passed h
  -- the table is null, so that a strict check fails
  cases kind : r.kind with
  | prolong | update =>
    rw [kind] at passed
    cases passed
  | register =>
    rw [kind] at passed h
    obtain ⟨⟨found?, rest⟩, loaded, h⟩ := of_bind h
    dsimp only at h
    split at h
    · exact refused (by decide) h
    next enabled =>
    obtain ⟨price, priced, h⟩ := of_bind h
    split at h
    · exact refused (by decide) h
    next paid =>
    obtain ⟨field, expires, h⟩ := of_bind h
    obtain ⟨data, present, h⟩ := of_bind h
    rw [orNull_success.mp present] at loaded priced
    rw [register_null found.1] at h
    split at h
    · next fits =>
      refine .inr ⟨data, price, kind, ⟨?_, ⟨rest, field, ?_, expires⟩, enabled, ?_, not_lt.mp paid⟩,
        ⟨w, walked, passed⟩, fits⟩
      · rw [← found.2.1]
        exact not_lt.mp labels
      · rw [kind]
        exact loaded
      · rw [kind]
        exact priced
    · cases h

end Requests

section Messages

/-- The gas suffices and the action phase succeeds. -/
def Runs (i : Input) : Prop := i.gas = true ∧ i.acts = true

/-- The message is the request `r`. -/
def Asks (i : Input) (r : Request) : Prop :=
  ∃ m, i.message = .internal m ∧ loadQuery m = .ok (some r.q) ∧ r.q.op.val = r.kind.op ∧
    loadDomain r.q.rest = .ok (some r.domain, r.inMsg) ∧ r.value = m.value

/-- The message makes the contract collect garbage in so many steps: `gogc`, or `CDel` of the owner of the
contract. -/
def Forces (s : State) (i : Input) (steps : Int) : Prop :=
  ∃ m q, i.message = .internal m ∧ loadQuery m = .ok (some q) ∧
    ((q.op.val = collectOp ∧ ∃ rest, loadInt 32 q.rest = .ok (steps, rest)) ∨
      (q.op.val = 0x4344656c ∧ steps = -1 ∧
        ∃ cs addr rest, loadInt 8 s.ctl.beginParse = .ok (q.srcWc, cs) ∧ loadUint 256 cs = .ok (addr, rest) ∧
          (addr : Int) = q.srcAddr))

variable {stringHash : List Bool → Uint 256} {s after : State} {i : Input} {r : Request} {out : List Answer}
  {steps : Int} {m : InMsg} {data : Cell}

theorem Asks.terminated (asks : Asks i r) : Terminated r.domain := by
  obtain ⟨m, -, -, -, loaded, -⟩ := asks
  exact loadDomain_terminated loaded

theorem receive_runs (runs : Runs i) : receive stringHash s i = handle stringHash s i := by
  rw [receive, if_pos runs.1]
  cases handle stringHash s i with
  | error e => rfl
  | ok result =>
    exact if_pos runs.2

theorem handle_internal (message : i.message = .internal m) :
    handle stringHash s i = recvInternal stringHash i.now s m := by
  rw [handle, message]

theorem commit_fails (fails : ¬ Runs i) : commit (receive stringHash) s i = (s, []) := by
  cases outcome : receive stringHash s i with
  | error e => exact commit_of_error outcome
  | ok result =>
    rw [commit_of_success outcome]
    unfold receive at outcome
    split at outcome
    · next gas =>
      obtain ⟨_, -, outcome⟩ := of_bind outcome
      dsimp only at outcome
      split at outcome
      · next acts => exact absurd ⟨gas, acts⟩ fails
      · cases outcome
        rfl
    · cases outcome

theorem receive_asks (runs : Runs i) (asks : Asks i r) :
    receive stringHash s i = perform stringHash i.now s r.q r.value r.kind r.domain r.inMsg := by
  obtain ⟨m, message, query, op, name, value⟩ := asks
  rw [receive_runs runs, handle_internal message, recvInternal, query, ok_bind]
  dsimp only
  rw [op, name, value]
  cases r.kind with
  | register | prolong | update => rfl

/-- A granted registration writes the entry, and the housekeeping follows. -/
theorem commit_granted (runs : Runs i) (asks : Asks i r) {price : Int}
    (g : Granted stringHash i.now s r data price) :
    (commit (receive stringHash) s i).2 = sendOk r.q price ∧
      ∀ k, (commit (receive stringHash) s i).1.domdata.get? k =
        kept i.now (looked i.now g.recorded 1) k
          (if k = domainKey stringHash r.domain then some ⟨⟨i.now + s.prices.stdper, g.fits⟩, data⟩
            else s.domdata.get? k) := by
  obtain ⟨after, done, entries⟩ := housekeeping_effect i.now g.recorded 1
  have performed := perform_granted asks.terminated g
  rw [done, ok_bind] at performed
  rw [commit_of_success ((receive_asks runs asks).trans performed)]
  refine ⟨rfl, fun k => ?_⟩
  rw [entries k, Granted.recorded, DnsAuto.recorded, Dict.get?_set]

theorem commit_forced (runs : Runs i) (forces : Forces s i steps) (k : Nat) :
    (commit (receive stringHash) s i).1.domdata.get? k =
      kept i.now (looked i.now { s with lhk := 1 } steps) k (s.domdata.get? k) := by
  obtain ⟨m, q, message, query, collects | destroys⟩ := forces
  · obtain ⟨op, rest, loaded⟩ := collects
    obtain ⟨after, done, entries⟩ := housekeeping_effect i.now { s with lhk := 1 } steps
    have received : receive stringHash s i = .ok (after, sendError q okTag) := by
      rw [receive_runs runs, handle_internal message, recvInternal, query, ok_bind]
      dsimp only
      rw [op, if_neg (by decide), if_neg (by decide), if_pos rfl, loaded, ok_bind]
      rw [done, ok_bind]
    rw [commit_of_success received]
    exact entries k
  · obtain ⟨op, rfl, cs, addr, rest, wc, address, owner⟩ := destroys
    have controlled : receive stringHash s i = performCtlOp i.now s q := by
      rw [receive_runs runs, handle_internal message, recvInternal, query, ok_bind]
      dsimp only
      rw [op, if_neg (by decide), if_pos (by decide)]
    rw [performCtlOp, wc, ok_bind] at controlled
    dsimp only at controlled
    rw [address, ok_bind] at controlled
    rw [if_neg (by simp [owner]), op, if_neg (by decide), if_pos rfl] at controlled
    by_cases empty : s.domdata.entries.isEmpty = true
    · rw [if_pos empty, ok_bind, if_pos empty] at controlled
      have absent : s.domdata.get? k = none := by
        rw [Dict.get?, List.isEmpty_iff.mp empty]
        rfl
      rw [commit_of_success controlled, absent]
      rfl
    · obtain ⟨after, done, entries⟩ := housekeeping_effect i.now { s with lhk := 1 } (-1)
      rw [if_neg empty, done, ok_bind] at controlled
      have same : (commit (receive stringHash) s i).1 = after := by
        split at controlled
        · rw [commit_of_success controlled]
        · rw [commit_of_success controlled]
      rw [same]
      exact entries k

theorem performCtlOp_cases {q : Query} (message : i.message = .internal m)
    (query : loadQuery m = .ok (some q)) (h : performCtlOp i.now s q = .ok (after, out)) :
    (∃ steps, Forces s i steps) ∨ after.domdata = s.domdata := by
  obtain ⟨⟨wc, cs⟩, loadedWc, h⟩ := of_bind h
  obtain ⟨⟨addr, rest⟩, loadedAddr, h⟩ := of_bind h
  dsimp only at h
  split at h
  · cases h
    exact .inr rfl
  next owner =>
  split at h
  · obtain ⟨⟨stdper, _⟩, -, h⟩ := of_bind h
    obtain ⟨⟨ppr, _⟩, -, h⟩ := of_bind h
    obtain ⟨⟨ppc, _⟩, -, h⟩ := of_bind h
    obtain ⟨⟨ppb, _⟩, -, h⟩ := of_bind h
    obtain ⟨_, -, h⟩ := of_bind h
    obtain ⟨stored, -, h⟩ := of_bind h
    cases h
    exact .inr rfl
  split at h
  · next op =>
    simp only [not_or, not_not] at owner
    rw [owner.1] at loadedWc
    exact .inl ⟨-1, m, q, message, query, .inr ⟨op, rfl, cs, addr, rest, loadedWc, loadedAddr, owner.2⟩⟩
  · cases h
    exact .inr rfl

theorem kindOf_some {op : Nat} {kind : Kind} (h : kindOf op = some kind) : op = kind.op := by
  unfold kindOf at h
  split at h
  · next same =>
    cases h
    exact same
  split at h
  · next same =>
    cases h
    exact same
  · split at h
    · next same =>
      cases h
      exact same
    · cases h

theorem recvInternal_cases (message : i.message = .internal m)
    (h : recvInternal stringHash i.now s m = .ok (after, out)) :
    (∃ r data price, Asks i r ∧ Granted stringHash i.now s r data price) ∨ (∃ steps, Forces s i steps) ∨
      after.domdata = s.domdata := by
  obtain ⟨query, loaded, h⟩ := of_bind h
  cases query with
  | none =>
    cases h
    exact .inr (.inr rfl)
  | some q =>
    dsimp only at h
    split at h
    · cases h
      exact .inr (.inr rfl)
    split at h
    · exact .inr (performCtlOp_cases message loaded h)
    split at h
    · next op =>
      obtain ⟨⟨steps, rest⟩, read, h⟩ := of_bind h
      exact .inr (.inl ⟨steps, m, q, message, loaded, .inl ⟨op, rest, read⟩⟩)
    split at h
    · cases h
      exact .inr (.inr rfl)
    next kind known =>
    obtain ⟨⟨name, inMsg⟩, read, h⟩ := of_bind h
    cases name with
    | none =>
      cases h
      exact .inr (.inr rfl)
    | some domain =>
      have asks : Asks i ⟨q, m.value, kind, domain, inMsg⟩ := ⟨m, message, loaded, kindOf_some known, read, rfl⟩
      rcases perform_success (r := ⟨q, m.value, kind, domain, inMsg⟩) asks.terminated h with refused | granted
      · exact .inr (.inr (congrArg State.domdata refused.1))
      · obtain ⟨data, price, g⟩ := granted
        exact .inl ⟨_, data, price, asks, g⟩

/-- A message registers a domain, or it forces a collection, or it leaves the domains as they are. -/
theorem commit_cases (stringHash : List Bool → Uint 256) (s : State) (i : Input) :
    (Runs i ∧ ∃ r data price, Asks i r ∧ Granted stringHash i.now s r data price) ∨
      (Runs i ∧ ∃ steps, Forces s i steps) ∨
      (commit (receive stringHash) s i).1.domdata = s.domdata := by
  by_cases runs : Runs i
  swap
  · rw [commit_fails runs]
    exact .inr (.inr rfl)
  cases outcome : receive stringHash s i with
  | error e =>
    rw [commit_of_error outcome]
    exact .inr (.inr rfl)
  | ok result =>
    rw [commit_of_success outcome]
    rw [receive_runs runs] at outcome
    cases message : i.message with
    | external =>
      rw [handle, message] at outcome
      cases outcome
      refine .inr (.inr ?_)
      rw [recvExternal]
      split <;> rfl
    | internal m =>
      rw [handle_internal message] at outcome
      rcases recvInternal_cases message outcome with granted | forced | same
      · exact .inl ⟨runs, granted⟩
      · exact .inr (.inl ⟨runs, forced⟩)
      · exact .inr (.inr same)

/-- A category table with an owner record that can be read. -/
def Readable (catTable : Cell) : Prop :=
  ∃ info, idictGetRef? 16 catTable (-2) = .ok info ∧ (parseOwner info).isSome

/-- Every stored table can be read. -/
def Sound (s : State) : Prop := ∀ k e, s.domdata.get? k = some e → Readable e.catTable

theorem parseOwner_isSome {c : Cell} (long : 16 + 3 + 8 + 256 ≤ c.bits.length)
    (tag : natOf (c.bits.take 19) = 0x9fd3 * 8 + 4) : (parseOwner c).isSome := by
  have enough : 8 ≤ (c.bits.drop 19).length := by
    rw [List.length_drop]
    omega
  rw [parseOwner, if_neg (not_lt.mpr long), if_neg (not_not.mpr tag), loadInt, loadUint, dif_pos enough]
  rfl

theorem loadData_readable {inMsg rest : Slice} (h : loadData inMsg = .ok (data, rest)) : Readable data := by
  obtain ⟨⟨root, inMsg⟩, -, h⟩ := of_bind h
  obtain ⟨oinfo, read, h⟩ := of_bind h
  obtain ⟨_, checked, h⟩ := of_bind h
  obtain ⟨_, -, h⟩ := of_bind h
  obtain ⟨_, -, h⟩ := of_bind h
  cases h
  obtain ⟨_, long, tag⟩ := of_bind checked
  exact ⟨oinfo, read, parseOwner_isSome (throwUnless_success.mp long) (throwUnless_success.mp tag)⟩

theorem kept_some {n : Nat} {keys : List Nat} {k : Nat} {found : Option Entry} {e : Entry}
    (h : kept n keys k found = some e) : found = some e := by
  cases found with
  | none => cases h
  | some e' =>
    rw [kept] at h
    split at h
    · cases h
    · exact h

theorem commit_sound (sound : Sound s) : Sound (commit (receive stringHash) s i).1 := by
  intro k e found
  rcases commit_cases stringHash s i with ⟨runs, r, data, price, asks, g⟩ | ⟨runs, steps, forces⟩ | same
  · rw [(commit_granted runs asks g).2 k] at found
    have before := kept_some found
    split at before
    · cases before
      obtain ⟨rest, -, loaded, -⟩ := g.complete.loaded
      rw [g.kind] at loaded
      obtain ⟨⟨root, inMsg⟩, read, loaded⟩ := of_bind loaded
      cases loaded
      exact loadData_readable read
    · exact sound k e before
  · rw [commit_forced runs forces k] at found
    exact sound k e (kept_some found)
  · rw [same] at found
    exact sound k e found

end Messages

end TonStaking.Source.DnsAuto
