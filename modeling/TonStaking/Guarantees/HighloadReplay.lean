import TonStaking.Source.HighloadWallet

/-!
# Orders of the highload wallet are executed once and in full

An order should be executed at most once, with all messages of its dictionary,
and the wallet should know of it ever after. Replay protection holds along every
run whose clock does not go back: a forgotten id lies below the time limit of
all later messages. The messages are not all sent, however: the loop looks for
the key after `-1`, so that messages under negative keys are left out while the
id is recorded. Orders are executed in full exactly if they have no such keys.
-/
namespace TonStaking.Guarantees.HighloadReplay

open Tvm Source Source.HighloadWallet

section Statement

variable (crypto : Crypto)

/-- The orders that a run executes. -/
def executions (s : State) : List Input → List Sending
  | [] => []
  | i :: rest => (commit (receive crypto) s i).2 ++ executions (commit (receive crypto) s i).1 rest

/-- Every entry of the dictionary is sent, once each. -/
def InFull (e : Sending) : Prop :=
  ∃ keys : List (Sint 16), keys.Nodup ∧ (∀ k, k ∈ keys ↔ (entryAt e.order.dict k).isSome) ∧
    MessagesOf e.order.dict keys e.messages

def Recorded (s : State) (q : Nat) : Prop := (s.oldQueries.get? q).isSome

/-- What the wallet promises along a run. -/
structure OnceInFull (s : State) (inputs : List Input) : Prop where
  signed : ∀ e ∈ executions crypto s inputs,
    crypto.checkSignature (crypto.sliceHash e.order.signed) e.order.signature s.publicKey = true
  once : ((executions crypto s inputs).map (·.order.queryId)).Nodup
  complete : ∀ e ∈ executions crypto s inputs, InFull e
  dropped : ∀ before i after q, inputs = before ++ i :: after → Recorded (run (receive crypto) s before) q →
    ¬ Recorded (run (receive crypto) s (before ++ [i])) q →
      (q : Int) < (i.now - 64) * 2 ^ 32 ∧
        ∀ e ∈ executions crypto (run (receive crypto) s (before ++ [i])) after, e.order.queryId ≠ q
  known : ∀ before after, inputs = before ++ after → ∀ e ∈ executions crypto s before,
    processed (run (receive crypto) s before) e.order.queryId ≠ 0

end Statement

section Runs

variable {crypto : Crypto} {log : List Sending} {s : State}

theorem executions_append (s : State) (before after : List Input) :
    executions crypto s (before ++ after) =
      executions crypto s before ++ executions crypto (run (receive crypto) s before) after := by
  induction before generalizing s with
  | nil => rfl
  | cons i rest ih =>
    simp [executions, ih]

theorem executions_step {inputs : List Input} {e : Sending} (member : e ∈ executions crypto s inputs) :
    ∃ before i after, inputs = before ++ i :: after ∧
      e ∈ (commit (receive crypto) (run (receive crypto) s before) i).2 := by
  induction inputs generalizing s with
  | nil => cases member
  | cons i rest ih =>
    rcases List.mem_append.mp member with now | later
    · exact ⟨[], i, rest, rfl, now⟩
    · obtain ⟨before, j, after, rfl, there⟩ := ih later
      exact ⟨i :: before, j, after, rfl, there⟩

theorem publicKey_run (s : State) (inputs : List Input) :
    (run (receive crypto) s inputs).publicKey = s.publicKey := by
  refine run_preserves (P := fun t => t.publicKey = s.publicKey) ?_ s inputs rfl
  intro t i after out before success
  cases receive_effect success with
  | executed | unchanged => exact before

/-- An execution in a step. -/
theorem executed_in_time {i : Input} {e : Sending} (member : e ∈ (commit (receive crypto) s i).2) :
    bound i.now ≤ e.order.queryId ∧
      crypto.checkSignature (crypto.sliceHash e.order.signed) e.order.signature s.publicKey = true ∧
      ∃ keys : List (Sint 16), keys.Nodup ∧ (∀ k, k ∈ keys ↔ (-1 : Int) < k ∧ (entryAt e.order.dict k).isSome) ∧
        MessagesOf e.order.dict keys e.messages := by
  obtain ⟨after, sent, done, effect⟩ := commit_effect crypto s i
  rw [done] at member
  cases effect with
  | executed inTime unknown signed loop recorded noted =>
    obtain rfl := List.mem_singleton.mp member
    exact ⟨inTime, signed, sendMessages_keys (by decide) (by decide) loop⟩
  | unchanged => cases member

theorem executions_in_time {now : Uint 32} {inputs : List Input} (later : ∀ i ∈ inputs, now ≤ i.now)
    {e : Sending} (member : e ∈ executions crypto s inputs) : bound now ≤ e.order.queryId := by
  obtain ⟨before, i, after, rfl, there⟩ := executions_step member
  have inTime := (executed_in_time there).1
  have order : now ≤ i.now := later i (by simp)
  have order' : (now : Nat) ≤ i.now := order
  unfold bound at inTime ⊢
  omega

end Runs

section Memory

variable {crypto : Crypto}

/-- What the wallet knows of the orders in `log` when the clock shows `now`. -/
structure Keeps (now : Uint 32) (s : State) (log : List Sending) : Prop where
  origin : ∀ e ∈ log, Recorded s e.order.queryId ∨
    (e.order.queryId ≤ s.lastCleaned ∧ (e.order.queryId : Int) < bound now - 64 * 2 ^ 32)
  above : ∀ q, Recorded s q → (s.lastCleaned : Nat) ≤ q
  mark : s.lastCleaned = 0 ∨ (s.lastCleaned : Int) < bound now - 64 * 2 ^ 32
  distinct : (log.map (·.order.queryId)).Nodup

theorem keeps_start (publicKey : Uint 256) (walletId : Uint 32) :
    Keeps 0 (getInitData publicKey walletId) [] where
  origin := by simp
  above := by
    intro q recorded
    simp [Recorded, getInitData] at recorded
  mark := .inl rfl
  distinct := List.nodup_nil

theorem Keeps.later {now now' : Uint 32} {s : State} (keeps : Keeps now s log)
    (le : now ≤ now') : Keeps now' s log where
  origin e member := by
    have := bound_mono le
    rcases keeps.origin e member with recorded | ⟨cleaned, old⟩
    · exact .inl recorded
    · exact .inr ⟨cleaned, by omega⟩
  above := keeps.above
  mark := by
    have := bound_mono le
    rcases keeps.mark with zero | old
    · exact .inl zero
    · exact .inr (by omega)
  distinct := keeps.distinct

section Execution

variable {now : Uint 32} {s : State} {log : List Sending} {order : Order} {lastCleaned : Uint 64}
  {queries : Dict 64 Unit} (keeps : Keeps now s log) (inTime : bound now ≤ order.queryId)
  (unknown : (s.oldQueries.get? order.queryId).isSome = false)
  (recorded : queries = s.oldQueries.set order.queryId order.queryId.isLt ())
  (noted : (lastCleaned : Nat) = (cleanUp now queries s.lastCleaned).2)

include noted in
theorem mark_origin : (lastCleaned : Nat) = s.lastCleaned ∨
    ((queries.get? lastCleaned).isSome ∧ (lastCleaned : Int) < bound now - 64 * 2 ^ 32) := by
  rcases (Dict.dropBelow_snd (bound now - 64 * 2 ^ 32) _ queries s.lastCleaned le_rfl).2 with
    same | ⟨e, member, same, old⟩
  · exact .inl (noted.trans same)
  have key : e.1 = lastCleaned := same.trans noted.symm
  have found : queries.get? e.1 = some e.2 := (queries.get?_eq_some_iff e.1 e.2).mpr member
  rw [key] at found old
  exact .inr ⟨by rw [found]; rfl, old⟩

include keeps inTime recorded

theorem above_mark {q : Nat} (present : (queries.get? q).isSome) : (s.lastCleaned : Nat) ≤ q := by
  rw [recorded, Dict.get?_set] at present
  by_cases new : q = order.queryId
  · rcases keeps.mark with zero | old
    · rw [zero]
      exact Nat.zero_le q
    · omega
  · rw [if_neg new] at present
    exact keeps.above q present

include noted

theorem mark_mono : (s.lastCleaned : Nat) ≤ lastCleaned := by
  rcases mark_origin noted with same | ⟨present, -⟩
  · exact same.ge
  · exact above_mark keeps inTime recorded present

include unknown

theorem Keeps.executed {messages : List RawMessage} :
    Keeps now { s with lastCleaned, oldQueries := (cleanUp now queries s.lastCleaned).1 }
      (log ++ [Sending.mk order messages]) where
  origin := by
    intro e member
    have present (q : Nat) (here : (queries.get? q).isSome) :
        Recorded { s with lastCleaned, oldQueries := (cleanUp now queries s.lastCleaned).1 } q ∨
          (q ≤ (lastCleaned : Nat) ∧ (q : Int) < bound now - 64 * 2 ^ 32) := by
      unfold Recorded
      rw [get?_cleanUp]
      by_cases old : bound now - 64 * 2 ^ 32 ≤ q
      · exact .inl (by rwa [if_pos old])
      obtain ⟨v, found⟩ := Option.isSome_iff_exists.mp here
      have dropped := (Dict.dropBelow_snd (bound now - 64 * 2 ^ 32) _ queries s.lastCleaned le_rfl).1 (q, v)
        ((queries.get?_eq_some_iff q v).mp found) (not_le.mp old)
      exact .inr ⟨by rw [noted]; exact dropped, by omega⟩
    rcases List.mem_append.mp member with before | new
    · rcases keeps.origin e before with here | ⟨cleaned, old⟩
      · refine present _ ?_
        rw [recorded, Dict.get?_set]
        split
        · rfl
        · exact here
      · have mono := mark_mono keeps inTime recorded noted
        have cleaned' : (e.order.queryId : Nat) ≤ s.lastCleaned := cleaned
        exact .inr ⟨by show (e.order.queryId : Nat) ≤ lastCleaned; omega, old⟩
    · obtain rfl := List.mem_singleton.mp new
      refine present _ ?_
      rw [recorded, Dict.get?_set, if_pos rfl]
      rfl
  above := by
    intro q here
    unfold Recorded at here
    rw [get?_cleanUp] at here
    split at here
    · next kept =>
      rcases mark_origin noted with same | ⟨-, old⟩
      · rw [same]
        exact above_mark keeps inTime recorded here
      · show (lastCleaned : Nat) ≤ q
        omega
    · cases here
  mark := by
    rcases mark_origin noted with same | ⟨-, old⟩
    · rcases keeps.mark with zero | old
      · exact .inl (Fin.ext (same.trans (congrArg Fin.val zero)))
      · exact .inr (by show (lastCleaned : Int) < _; omega)
    · exact .inr old
  distinct := by
    rw [List.map_append, List.map_singleton]
    refine List.nodup_append.mpr ⟨keeps.distinct, by simp, ?_⟩
    intro q old q' new same
    obtain rfl := List.mem_singleton.mp new
    obtain ⟨e, member, rfl⟩ := List.mem_map.mp old
    rcases keeps.origin e member with here | ⟨-, past⟩
    · unfold Recorded at here
      rw [same, unknown] at here
      cases here
    · rw [same] at past
      dsimp only at past
      omega

end Execution

theorem keeps_run {inputs : List Input} (ordered : Ordered Input.now inputs) {now : Uint 32}
    (late : ∀ i ∈ inputs, i.now ≤ now) (publicKey : Uint 256) (walletId : Uint 32) :
    Keeps now (run (receive crypto) (getInitData publicKey walletId) inputs)
      (executions crypto (getInitData publicKey walletId) inputs) := by
  induction inputs using List.reverseRecOn generalizing now with
  | nil => exact (keeps_start publicKey walletId).later (Fin.zero_le now)
  | append_singleton before i ih =>
    have parts := List.pairwise_append.mp ordered
    have earlier := ih parts.1 (fun j member => parts.2.2 j member i (by simp))
    rw [run_snoc, executions_append]
    simp only [executions, List.append_nil]
    obtain ⟨after, sent, done, effect⟩ := commit_effect crypto _ i
    rw [done]
    have now' : i.now ≤ now := late i (by simp)
    cases effect with
    | executed inTime unknown signed loop recorded noted =>
      exact (earlier.executed inTime unknown recorded noted).later now'
    | unchanged =>
      rw [List.append_nil]
      exact earlier.later now'

theorem recorded_executed {publicKey : Uint 256} {walletId : Uint 32} {inputs : List Input} {q : Nat}
    (recorded : Recorded (run (receive crypto) (getInitData publicKey walletId) inputs) q) :
    ∃ e ∈ executions crypto (getInitData publicKey walletId) inputs, e.order.queryId = q := by
  induction inputs using List.reverseRecOn with
  | nil => simp [Recorded, getInitData] at recorded
  | append_singleton before i ih =>
    rw [run_snoc] at recorded
    simp only [executions_append, executions, List.append_nil, List.mem_append]
    obtain ⟨after, sent, done, effect⟩ := commit_effect crypto _ i
    rw [done] at recorded ⊢
    cases effect with
    | executed inTime unknown signed loop added noted =>
      rw [Recorded, get?_cleanUp, added, Dict.get?_set] at recorded
      split at recorded
      · split at recorded
        · next new => exact ⟨_, .inr (List.mem_singleton_self _), new.symm⟩
        · exact (ih recorded).imp fun e there => ⟨.inl there.1, there.2⟩
      · cases recorded
    | unchanged => exact (ih recorded).imp fun e there => ⟨.inl there.1, there.2⟩

theorem processed_ne_zero {now : Uint 32} {s : State} (keeps : Keeps now s log)
    {e : Sending} (member : e ∈ log) : processed s e.order.queryId ≠ 0 := by
  unfold processed
  rw [Dict.udictGet?_natCast]
  rcases keeps.origin e member with recorded | ⟨cleaned, -⟩
  · rw [if_pos (show (s.oldQueries.get? e.order.queryId).isSome from recorded)]
    decide
  · have le : ((e.order.queryId : Nat) : Int) ≤ s.lastCleaned := by exact_mod_cast cleaned
    split <;> decide

theorem dropped_in_step {s : State} {i : Input} {q : Nat} (before : Recorded s q)
    (gone : ¬ Recorded (commit (receive crypto) s i).1 q) : (q : Int) < bound i.now - 64 * 2 ^ 32 := by
  obtain ⟨after, sent, done, effect⟩ := commit_effect crypto s i
  rw [done] at gone
  cases effect with
  | executed inTime unknown signed loop recorded noted =>
    by_contra kept
    apply gone
    unfold Recorded
    rw [get?_cleanUp, if_pos (not_lt.mp kept), recorded, Dict.get?_set]
    split
    · rfl
    · exact before
  | unchanged => exact absurd before gone

end Memory

theorem inFull_iff {crypto : Crypto} {s : State} {i : Input} {e : Sending}
    (member : e ∈ (commit (receive crypto) s i).2) :
    InFull e ↔ ∀ k : Sint 16, (entryAt e.order.dict k).isSome → (0 : Int) ≤ k := by
  obtain ⟨-, -, sent, distinct, all, matched⟩ := executed_in_time member
  constructor
  · rintro ⟨keys, -, complete, messages⟩ k present
    by_contra negative
    -- the keys that were sent are a proper part of the keys with an entry
    have missing : k ∉ sent := by
      intro there
      have := ((all k).mp there).1
      omega
    have part : (k :: sent) ⊆ keys := by
      intro j there
      rcases List.mem_cons.mp there with rfl | there
      · exact (complete j).mpr present
      · exact (complete j).mpr ((all j).mp there).2
    have count := (List.subperm_of_subset (List.nodup_cons.mpr ⟨missing, distinct⟩) part).length_le
    rw [List.length_cons, matched.length_eq, messages.length_eq] at count
    omega
  · intro nonnegative
    refine ⟨sent, distinct, fun k => ?_, matched⟩
    rw [all]
    exact ⟨fun both => both.2, fun present => ⟨by have := nonnegative k present; omega, present⟩⟩

/-- The promise holds along a run exactly if no executed order has a negative key. -/
theorem once_in_full_iff (crypto : Crypto) (publicKey : Uint 256) (walletId : Uint 32) (inputs : List Input)
    (ordered : Ordered Input.now inputs) :
    OnceInFull crypto (getInitData publicKey walletId) inputs ↔
      ∀ e ∈ executions crypto (getInitData publicKey walletId) inputs,
        ∀ k : Sint 16, (entryAt e.order.dict k).isSome → (0 : Int) ≤ k := by
  constructor
  · intro promise e member
    obtain ⟨before, i, after, rfl, there⟩ := executions_step member
    exact (inFull_iff there).mp (promise.complete e member)
  · intro nonnegative
    refine ⟨?_, (keeps_run ordered (fun i _ => Fin.le_last _) publicKey walletId).distinct, ?_, ?_, ?_⟩
    · intro e member
      obtain ⟨before, i, after, rfl, there⟩ := executions_step member
      have signed := (executed_in_time there).2.1
      rwa [publicKey_run] at signed
    · intro e member
      obtain ⟨before, i, after, rfl, there⟩ := executions_step member
      exact (inFull_iff there).mpr (nonnegative e member)
    · intro before i after q split recorded gone
      rw [run_snoc] at gone
      have past := dropped_in_step recorded gone
      refine ⟨by unfold bound at past; linarith, ?_⟩
      rintro e member rfl
      rw [split] at ordered
      have later := (List.pairwise_cons.mp (List.pairwise_append.mp ordered).2.1).1
      have inTime := executions_in_time later member
      omega
    · intro before after split e member
      rw [split] at ordered
      have earlier := (List.pairwise_append.mp ordered).1
      exact processed_ne_zero (keeps_run earlier (fun i _ => Fin.le_last _) publicKey walletId) member

/-- A dictionary with one message, under the given key. -/
def sampleDict (key : Int) : Option Cell :=
  some ((Hashmap.Trie.leaf (Hashmap.intBits 16 key) ⟨bitsOf 8 3, [.mk [] []]⟩).toCell 16)

/-- A query that may be executed until time 1000. -/
def sampleSigned (key : Int) : Slice :=
  ⟨bitsOf 32 5 ++ bitsOf 64 (1000 * 2 ^ 32 + 1) ++ [true], (sampleDict key).toList⟩

def sampleInput (now : Uint 32) (key : Int) : Input where
  now := now
  body := ⟨sampleSign 77 (sampleSigned key) ++ (sampleSigned key).bits, (sampleSigned key).refs⟩
  gas := true
  acts := true

theorem sample_negative_key :
    ((executions sampleCrypto (getInitData 77 5) [sampleInput 900 (-1)]).map
        fun e => (e.messages.length, (entryAt e.order.dict ⟨-1, by decide⟩).isSome)) = [(0, true)] := by
  decide +kernel

/-- The order is executed and recorded, and its only message is not sent. -/
theorem negative_key_not_sent :
    processed (run (receive sampleCrypto) (getInitData 77 5) [sampleInput 900 (-1)]) (1000 * 2 ^ 32 + 1) = -1 ∧
      ¬ OnceInFull sampleCrypto (getInitData 77 5) [sampleInput 900 (-1)] := by
  refine ⟨by decide +kernel, fun promise => ?_⟩
  obtain ⟨e, member, same⟩ := List.mem_map.mp (sample_negative_key.symm ▸ List.mem_singleton_self (0, true))
  obtain ⟨none, some⟩ := Prod.mk.inj same
  obtain ⟨keys, -, all, messages⟩ := promise.complete e member
  have empty : keys = [] := List.length_eq_zero_iff.mp (messages.length_eq.trans none)
  have sent := (all ⟨-1, by decide⟩).mpr some
  rw [empty] at sent
  cases sent

/-- A message that comes twice. -/
theorem once_in_full_repeated :
    Ordered Input.now [sampleInput 900 7, sampleInput 950 7] ∧
      (OnceInFull sampleCrypto (getInitData 77 5) [sampleInput 900 7, sampleInput 950 7] ↔
        ∀ e ∈ executions sampleCrypto (getInitData 77 5) [sampleInput 900 7, sampleInput 950 7],
          ∀ k : Sint 16, (entryAt e.order.dict k).isSome → (0 : Int) ≤ k) := by
  have ordered : Ordered Input.now [sampleInput 900 7, sampleInput 950 7] := by
    simp [Ordered, sampleInput]
  exact ⟨ordered, once_in_full_iff sampleCrypto 77 5 _ ordered⟩

/-- What `processed?` tells at any point of a run: -1 stands for an order that was executed, and an order is executed
later on only if the answer is 0. The id 0 counts as cleaned from the start. -/
theorem processed_answers (crypto : Crypto) (publicKey : Uint 256) (walletId : Uint 32) (inputs later : List Input)
    (ordered : Ordered Input.now (inputs ++ later)) (q : Uint 64) :
    let s := run (receive crypto) (getInitData publicKey walletId) inputs
    (processed s q = -1 → ∃ e ∈ executions crypto (getInitData publicKey walletId) inputs, e.order.queryId = q) ∧
      (processed s q ≠ 0 → q ≠ 0 → ∀ e ∈ executions crypto s later, e.order.queryId ≠ q) := by
  intro s
  have answers : (processed s q = -1 ∧ Recorded s q) ∨ (processed s q = 1 ∧ q ≤ s.lastCleaned) ∨ processed s q = 0 := by
    unfold processed
    rw [Dict.udictGet?_natCast]
    split_ifs with present cleaned
    · exact .inl ⟨rfl, present⟩
    · exact .inr (.inl ⟨rfl, by exact_mod_cast cleaned⟩)
    · exact .inr (.inr rfl)
  refine ⟨fun answer => ?_, fun answer nonzero e member same => ?_⟩
  · have recorded : Recorded s q := by grind
    obtain ⟨e, member, same⟩ := recorded_executed recorded
    exact ⟨e, member, Fin.ext same⟩
  · -- the step that executes the order is in time, and its id is new
    obtain ⟨before, i, after, rfl, there⟩ := executions_step member
    rcases answers with ⟨-, recorded⟩ | ⟨-, cleaned⟩ | other
    · obtain ⟨d, executed, known⟩ := recorded_executed recorded
      have all : Keeps (Fin.last _) _ (executions crypto (getInitData publicKey walletId) _) :=
        keeps_run ordered (fun i _ => Fin.le_last _) publicKey walletId
      have distinct := all.distinct
      rw [executions_append, List.map_append] at distinct
      exact (List.nodup_append.mp distinct).2.2 _ (List.mem_map_of_mem executed) _ (List.mem_map_of_mem member)
        (Fin.ext (known.trans (congrArg Fin.val same.symm)))
    · have inTime := (executed_in_time there).1
      have parts := List.pairwise_append.mp ordered
      have now : Keeps i.now s (executions crypto _ inputs) :=
        keeps_run parts.1 (fun j here => parts.2.2 j here i (by simp)) publicKey walletId
      rw [same] at inTime
      rcases now.mark with zero | old
      · rw [zero] at cleaned
        exact nonzero (Fin.le_zero_iff.mp cleaned)
      · have bounded : (q : Nat) ≤ s.lastCleaned := cleaned
        omega
    · exact answer other

theorem processed_answers_repeated :
    Ordered Input.now ([sampleInput 900 7] ++ [sampleInput 950 7]) ∧
      processed (run (receive sampleCrypto) (getInitData 77 5) [sampleInput 900 7]) (1000 * 2 ^ 32 + 1) = -1 ∧
      ∃ e ∈ executions sampleCrypto (getInitData 77 5) [sampleInput 900 7], e.order.queryId = 4294967296001 := by
  have ordered : Ordered Input.now ([sampleInput 900 7] ++ [sampleInput 950 7]) := by
    simp [Ordered, sampleInput]
  have answer : processed (run (receive sampleCrypto) (getInitData 77 5) [sampleInput 900 7]) (1000 * 2 ^ 32 + 1) = -1 := by
    decide +kernel
  exact ⟨ordered, answer, (processed_answers sampleCrypto 77 5 _ _ ordered 4294967296001).1 answer⟩

end TonStaking.Guarantees.HighloadReplay
