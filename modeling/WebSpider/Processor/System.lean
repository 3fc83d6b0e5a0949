import WebSpider.Processor.BatchSpec
import WebSpider.Effects.Run

/-!
# The processor as a step system

The events of a run: the crawler publishes, the consumer group delivers, the
main loop and `recover_pending` process batches whose calls end in any way, the
process restarts and warms the index, a key with a time to live expires. A
process killed between two calls is a call that fails there, then a restart.

The order of the events is free, so the runs include those of `main`.
-/

namespace WebSpider.Processor

open Text Json Effects

variable {F : Type} [FloatText F] [DecidableEq F]

inductive Event where
  | publish (article : Option Str)
  /-- Messages are delivered and the reply is lost. -/
  | deliver (n : Nat)
  /-- One turn of the main loop: at most `n` new messages. -/
  | consume (n : Nat) (env : Surroundings)
  /-- One turn of the loop of `recover_pending`. -/
  | recover (env : Surroundings)
  | warm (env : Surroundings)
  | restart
  | expire (key : Str)

namespace State

def publish (article : Option Str) (s : State F) : State F :=
  { s with nextId := s.nextId + 1, queue := s.queue ++ [⟨s.nextId, article⟩] }

/-- `XREADGROUP` with `>`: the messages become pending. -/
def deliver (n : Nat) (s : State F) : State F :=
  { s with queue := s.queue.drop n, pending := s.pending ++ s.queue.take n }

/-- A new process remembers nothing. -/
def restart (s : State F) : State F := { s with seenHashes := [], inFlight := [] }

/-- Redis drops a key. -/
def dropKey (key : Str) (s : State F) : State F :=
  { s with
    buckets := fun k => if k = key then [] else s.buckets k
    volatile := fun k => if k = key then false else s.volatile k }

end State

/-- The `process_batch` call of an event: its surroundings and its messages. -/
def batchOf (cfg : Config) (s : State F) : Event → Option (Surroundings × List Message)
  | .consume n env => if n ≤ cfg.batchSize ∧ s.queue.take n ≠ [] then some (env, s.queue.take n)
      else none
  | .recover env => if s.pending.take cfg.batchSize ≠ [] then
      some (env, s.pending.take cfg.batchSize) else none
  | _ => none

/-- The state in which that call is made. -/
def beforeBatch (s : State F) : Event → State F
  | .consume n _ => s.deliver n
  | _ => s

def step (cfg : Config) (tk : Toolkit F) (s : State F) (e : Event) : Option (State F) :=
  match e with
  | .publish article => some (s.publish article)
  | .deliver n => some (s.deliver n)
  | .consume _ _ | .recover _ => (batchOf cfg s e).map fun call =>
      after (processBatch cfg tk call.1 call.2) (beforeBatch s e)
  | .warm env => some (after (warmFromDb cfg env) s)
  | .restart => some s.restart
  | .expire key => if s.volatile key then some (s.dropKey key) else none

/-- The loop of `recover_pending`, one `Surroundings` for each turn; the answer
says whether the loop ended. -/
def recoverPending (cfg : Config) (tk : Toolkit F) : List Surroundings → Prog (State F) PyExn Bool
  | [] => pure false
  | env :: envs => do
    let pending ← query .redisError (env.plan .xpending) fun s => s.pending.take cfg.batchSize
    if pending = [] then pure true
    else do
      -- the reply to a read from `0` names the stream, so it is never empty
      let messages ← query .redisError (env.plan .xreadgroup) fun s =>
        s.pending.take cfg.batchSize
      processBatch cfg tk env messages
      recoverPending cfg tk envs

/-! ## What a step does -/

/-- The cases of a step. -/
inductive Stepped (cfg : Config) (tk : Toolkit F) (s : State F) (e : Event) : State F → Prop
  | publish (article : Option Str) : Stepped cfg tk s e (s.publish article)
  | deliver (n : Nat) : Stepped cfg tk s e (s.deliver n)
  | batch (env : Surroundings) (messages : List Message) (u : State F)
      (hbatch : batchOf cfg s e = some (env, messages)) (hne : messages ≠ [])
      (hbefore : u = s ∨ ∃ n, u = s.deliver n) (hpending : ∀ m ∈ messages, m ∈ u.pending) :
      Stepped cfg tk s e (after (processBatch cfg tk env messages) u)
  | warm (env : Surroundings) : Stepped cfg tk s e (after (warmFromDb cfg env) s)
  | restart : Stepped cfg tk s e s.restart
  | expire (key : Str) (hvolatile : s.volatile key = true) : Stepped cfg tk s e (s.dropKey key)

theorem stepped_of_step {cfg : Config} {tk : Toolkit F} {s t : State F} {e : Event}
    (h : step cfg tk s e = some t) : Stepped cfg tk s e t := by
  cases e with
  | publish article =>
    cases h
    exact .publish article
  | deliver n =>
    cases h
    exact .deliver n
  | consume n env =>
    obtain ⟨⟨env', messages⟩, hbatch, rfl⟩ := Option.map_eq_some_iff.mp h
    have hcall := hbatch
    rw [batchOf] at hcall
    split at hcall
    · rename_i hn
      cases hcall
      refine .batch env _ (s.deliver n) hbatch hn.2 (Or.inr ⟨n, rfl⟩) fun m hm => ?_
      exact List.mem_append_right _ hm
    · cases hcall
  | recover env =>
    obtain ⟨⟨env', messages⟩, hbatch, rfl⟩ := Option.map_eq_some_iff.mp h
    have hcall := hbatch
    rw [batchOf] at hcall
    split at hcall
    · rename_i hn
      cases hcall
      exact .batch env _ s hbatch hn (Or.inl rfl) fun m hm => List.mem_of_mem_take hm
    · cases hcall
  | warm env =>
    cases h
    exact .warm env
  | restart =>
    cases h
    exact .restart
  | expire key =>
    simp only [step] at h
    split at h
    · rename_i hvolatile
      cases h
      exact .expire key hvolatile
    · cases h

omit [FloatText F] [DecidableEq F] in
theorem batchOf_consume {cfg : Config} {s : State F} {n : Nat} {env env' : Surroundings}
    {messages : List Message} (h : batchOf cfg s (.consume n env) = some (env', messages)) :
    env' = env ∧ messages = s.queue.take n := by
  rw [batchOf] at h
  split at h
  · cases h
    exact ⟨rfl, rfl⟩
  · cases h

omit [FloatText F] [DecidableEq F] in
theorem batchOf_recover {cfg : Config} {s : State F} {env env' : Surroundings}
    {messages : List Message} (h : batchOf cfg s (.recover env) = some (env', messages)) :
    env' = env ∧ messages = s.pending.take cfg.batchSize := by
  rw [batchOf] at h
  split at h
  · cases h
    exact ⟨rfl, rfl⟩
  · cases h

omit [FloatText F] [DecidableEq F] in
/-- `warm_from_db` keeps what the registration of stored fingerprints keeps. -/
theorem warmFromDb_ends (cfg : Config) (env : Surroundings) {I : State F → Prop} {s : State F}
    (hs : I s) (hindex : ∀ row ∈ s.articles, KeptByIndex cfg row.contentHash I)
    (hwarmed : ∀ t, I t → I { t with warmed := true }) :
    Ends (warmFromDb cfg env) s (fun _ t => I t) (fun _ t => I t) := by
  refine ends_bind (ends_query (fun _ => ?_) fun _ => hs)
  split
  · exact ends_pure hs
  · refine ends_bind (ends_query (fun _ => ?_) fun _ => hs)
    have hrows : ∀ h ∈ s.articles.map Row.contentHash, KeptByIndex cfg h I := by
      intro h hh
      obtain ⟨row, hrow, rfl⟩ := List.mem_map.mp hh
      exact hindex row hrow
    -- the commands waiting in the pipeline keep `I` as well
    refine ends_bind (ends_mono (ends_foldlM
      (fun _ acc t => I t ∧ ∀ c ∈ acc.1, ∀ u, I u → I (c u)) ⟨hs, nofun⟩ ?_) ?_ fun _ _ he => he)
    · rintro done h rest ⟨cmds, count⟩ t hsplit ⟨ht, hcmds⟩
      have hh : KeptByIndex cfg h I := hrows h (by rw [hsplit]; simp)
      refine ends_bind (ends_lift (fun keys hkeys => ?_) fun _ _ => ht)
      have hall : ∀ c ∈ cmds ++ indexCmds cfg h keys, ∀ u, I u → I (c u) := by
        intro c hc u hu
        rcases List.mem_append.mp hc with hc | hc
        · exact hcmds c hc u hu
        · exact hh.cmd hkeys hc hu
      dsimp only
      split
      · refine ends_bind (ends_pipeline hall ht (fun _ hu => ?_) fun _ _ hu => hu)
        exact ends_pure ⟨hu, nofun⟩
      · exact ends_pure ⟨ht, hall⟩
    · rintro ⟨cmds, count⟩ t ⟨ht, hcmds⟩
      refine ends_bind (ends_pipeline hcmds ht (fun _ hu => ?_) fun _ _ hu => hu)
      exact ends_call (fun _ => hwarmed _ hu) (fun _ _ _ => hwarmed _ hu) fun _ _ _ => hu

end WebSpider.Processor
