import WebSpider.Crawler.Stream
import WebSpider.Effects.Run
import WebSpider.Processor.Batch
import Mathlib.Logic.Function.Basic

/-!
# From the crawlers to the consumers

The stream between the crawlers and the processor: any number of crawlers call `Publish`,
and the consumers of one group read new entries and their own pending ones, process them
and acknowledge the batch, call by call in any order. A publication trims the stream
whether or not the group has read the oldest entries, while their hashes stay in the
set. So an entry that was not processed is lost once it is trimmed: `delivered_unless_trimmed`
says that this is the only way.
-/

namespace WebSpider.Pipeline

open Text Effects Crawler
open Processor (Message)

/-- The ids of the entries count up in the order in which they are added. -/
structure State where
  redis : Redis
  /-- The id up to which the group has been delivered the entries. -/
  delivered : Nat
  /-- The entries delivered and not acknowledged, with their consumers. -/
  pending : List (Nat × Nat)
  /-- The batch in the memory of each consumer. -/
  batches : Nat → List Message
  /-- History: the hash and the payload of each entry added, at the place of its id. -/
  added : List (Str × Str)
  /-- History: the acknowledged messages, as they were read. -/
  acked : List Message

def State.initial : State := ⟨Redis.initial, 0, [], fun _ => [], [], []⟩

/-- The id of the oldest entry on the stream. -/
def State.first (s : State) : Nat := s.added.length - s.redis.entries.length

/-- The payload of an entry, while it is on the stream. -/
def State.entry (s : State) (i : Nat) : Option Str :=
  if s.first ≤ i then s.redis.entries[i - s.first]? else none

inductive Event where
  /-- A call of `Publish` by one of the crawlers. -/
  | produce (a : ArticleRaw) (stage : Stage) (o : Outcome) (trimmed : Nat)
  /-- `XREADGROUP` with `>`. -/
  | readNew (consumer count : Nat)
  /-- `XREADGROUP` with `0`. -/
  | readPending (consumer count : Nat)
  /-- The `XACK` at the end of `process_batch`. -/
  | ack (consumer : Nat)
  /-- `process_batch` raises, or the consumer is killed. -/
  | abandon (consumer : Nat)

/-- The call runs `dedupScript` on a hash that it has not seen. -/
def Adds (p : Producer) (a : ArticleRaw) (stage : Stage) (o : Outcome) (r : Redis) : Prop :=
  stage = .script ∧ o.executed = true ∧ p.sha256 a.url ∉ r.seen

instance (p : Producer) (a : ArticleRaw) (stage : Stage) (o : Outcome) (r : Redis) :
    Decidable (Adds p a stage o r) :=
  inferInstanceAs (Decidable (_ ∧ _ ∧ _))

def State.produce (p : Producer) (a : ArticleRaw) (stage : Stage) (o : Outcome) (trimmed : Nat)
    (s : State) : State :=
  { s with
    redis := (publishCall p a stage o trimmed s.redis).2
    added := if Adds p a stage o s.redis then s.added ++ [(p.sha256 a.url, a.payload)]
      else s.added }

/-- The id from which new entries are delivered: trimmed ones are skipped. -/
def State.nextNew (s : State) : Nat := max s.delivered s.first

def State.newMessages (count : Nat) (s : State) : List Message :=
  (((s.redis.entries.drop (s.nextNew - s.first)).take count).zipIdx s.nextNew).map fun x =>
    ⟨x.2, some x.1⟩

/-- The fields of a pending entry that has been trimmed are empty. -/
def State.pendingMessages (consumer count : Nat) (s : State) : List Message :=
  ((s.pending.filter fun x => decide (x.2 = consumer)).take count).map fun x =>
    ⟨x.1, s.entry x.1⟩

def State.setBatch (consumer : Nat) (messages : List Message) (s : State) : State :=
  { s with batches := Function.update s.batches consumer messages }

def State.readNew (consumer count : Nat) (s : State) : State :=
  { s with
    delivered := s.nextNew + (s.newMessages count).length
    pending := s.pending ++ (s.newMessages count).map fun m : Message => (m.id, consumer) }.setBatch
      consumer (s.newMessages count)

def State.ack (consumer : Nat) (s : State) : State :=
  { s with
    pending := s.pending.filter fun x => decide (x.1 ∉ (s.batches consumer).map Message.id)
    acked := s.acked ++ s.batches consumer }.setBatch consumer []

/-- A consumer reads when it has no batch, and a read that finds nothing is repeated. -/
def step (p : Producer) (s : State) : Event → Option State
  | .produce a stage o trimmed => some (s.produce p a stage o trimmed)
  | .readNew consumer count =>
    if s.batches consumer = [] ∧ s.newMessages count ≠ [] then some (s.readNew consumer count)
    else none
  | .readPending consumer count =>
    if s.batches consumer = [] ∧ s.pendingMessages consumer count ≠ [] then
      some (s.setBatch consumer (s.pendingMessages consumer count))
    else none
  | .ack consumer => if s.batches consumer ≠ [] then some (s.ack consumer) else none
  | .abandon consumer => some (s.setBatch consumer [])

/-! ## The property -/

/-- The entry is on the stream, and the group is going to read it or can read it again. -/
def Readable (s : State) (i : Nat) (payload : Str) : Prop :=
  s.entry i = some payload ∧ (s.delivered ≤ i ∨ i ∈ s.pending.map Prod.fst)

/-- The entry was acknowledged by a consumer that had read its payload. -/
def Processed (s : State) (i : Nat) (payload : Str) : Prop :=
  (⟨i, some payload⟩ : Message) ∈ s.acked

/-- The bounded stream is full of newer entries. -/
def Trimmed (p : Producer) (s : State) (i : Nat) : Prop :=
  i < s.first ∧ 0 < p.maxLen ∧ p.maxLen ≤ s.redis.entries.length

/-- One entry is added for each URL that is marked as seen, and `Q` holds of it. -/
def EachSeen (p : Producer) (s : State) (Q : Nat → Str → Prop) : Prop :=
  (∀ url, (s.added.map Prod.fst).count (p.sha256 url) ≤ 1) ∧
    ∀ hash ∈ s.redis.seen, ∃ i payload, s.added[i]? = some (hash, payload) ∧ Q i payload

/-! ## The invariant -/

variable {p : Producer} {s t : State}

/-- The payload with which an entry was added. -/
def State.payload (s : State) (i : Nat) : Option Str := (s.added[i]?).map Prod.snd

/-- The message has the payload of its entry, or the entry is no longer on the stream. -/
def ReadFrom (s : State) (m : Message) : Prop :=
  m.id < s.first ∨ ∃ payload, m.article = some payload ∧ s.payload m.id = some payload

/-- The stream is what was added last, batches are read from it, and an entry that was
delivered is pending or processed unless it is no longer on the stream. -/
structure Kept (p : Producer) (s : State) : Prop where
  seen : s.redis.seen = s.added.map Prod.fst
  distinct : (s.added.map Prod.fst).Nodup
  length_le : s.redis.entries.length ≤ s.added.length
  entries : s.redis.entries = (s.added.drop s.first).map Prod.snd
  bounded : 0 < s.first → 0 < p.maxLen ∧ p.maxLen ≤ s.redis.entries.length
  pending : ∀ x ∈ s.pending, x.1 < s.added.length
  batches : ∀ c, ∀ m ∈ s.batches c, ReadFrom s m
  acked : ∀ m ∈ s.acked, ReadFrom s m
  delivered : ∀ i < s.delivered, i < s.first ∨ i ∈ s.pending.map Prod.fst ∨
    ∃ payload, s.payload i = some payload ∧ Processed s i payload

theorem kept_initial (p : Producer) : Kept p .initial where
  seen := rfl
  distinct := List.nodup_nil
  length_le := Nat.le_refl 0
  entries := rfl
  bounded h := absurd h (Nat.lt_irrefl 0)
  pending x hx := by cases hx
  batches c m hm := by cases hm
  acked m hm := by cases hm
  delivered i hi := absurd hi (Nat.not_lt_zero i)

theorem Kept.entry_eq (hs : Kept p s) {i : Nat} (hi : s.first ≤ i) : s.entry i = s.payload i := by
  rw [State.entry, if_pos hi, hs.entries, List.getElem?_map, List.getElem?_drop,
    Nat.add_sub_cancel' hi, State.payload]

theorem exists_payload {i : Nat} (hi : i < s.added.length) : ∃ payload, s.payload i = some payload :=
  ⟨_, by rw [State.payload, List.getElem?_eq_getElem hi]; rfl⟩

/-! ## Publications -/

/-- What a call of `Publish` does to the set and the stream. -/
theorem publishCall_cases (p : Producer) (a : ArticleRaw) (stage : Stage) (o : Outcome)
    (trimmed : Nat) (r : Redis) :
    (¬ Adds p a stage o r ∧ (publishCall p a stage o trimmed r).2.seen = r.seen ∧
      (publishCall p a stage o trimmed r).2.entries = r.entries) ∨
    (Adds p a stage o r ∧
      (publishCall p a stage o trimmed r).2.seen = r.seen ++ [p.sha256 a.url] ∧
      ∃ k, k ≤ r.entries.length + 1 - p.maxLen ∧ (0 < k → 0 < p.maxLen) ∧
        (publishCall p a stage o trimmed r).2.entries = (r.entries ++ [a.payload]).drop k) := by
  cases stage with
  | script =>
    by_cases hnew : o.executed = true ∧ p.sha256 a.url ∉ r.seen
    · refine Or.inr ⟨⟨rfl, hnew⟩, ?_⟩
      simp only [publishCall, applied, hnew.1, if_true, dedupScript, if_neg hnew.2, true_and]
      by_cases hmax : 0 < p.maxLen
      · refine ⟨_, Nat.min_le_right trimmed _, fun _ => hmax, ?_⟩
        rw [if_pos hmax, List.length_append]
        rfl
      · refine ⟨0, Nat.zero_le _, fun h => absurd h (Nat.lt_irrefl 0), ?_⟩
        rw [if_neg hmax]
        rfl
    · refine Or.inl ⟨fun h => hnew h.2, ?_⟩
      simp only [publishCall, applied, dedupScript]
      by_cases hexecuted : o.executed = true
      · have hseen : p.sha256 a.url ∈ r.seen := not_not.mp fun h => hnew ⟨hexecuted, h⟩
        simp [hexecuted, hseen]
      · simp [hexecuted]
  | produced =>
    refine Or.inl ⟨(fun h => by cases h.1), ?_⟩
    simp only [publishCall, applied]
    split <;> exact ⟨rfl, rfl⟩
  | bySource =>
    refine Or.inl ⟨(fun h => by cases h.1), ?_⟩
    simp only [publishCall, applied]
    split <;> exact ⟨rfl, rfl⟩
  | cursor =>
    refine Or.inl ⟨(fun h => by cases h.1), ?_⟩
    simp only [publishCall, applied, cursorScript]
    split
    · exact ⟨rfl, rfl⟩
    · split <;> exact ⟨rfl, rfl⟩

/-- What holds of the entries before a publication holds after it. -/
structure Grows (s t : State) : Prop where
  first : s.first ≤ t.first
  payload : ∀ i payload, s.payload i = some payload → t.payload i = some payload
  delivered : t.delivered = s.delivered
  pending : t.pending = s.pending
  batches : t.batches = s.batches
  acked : t.acked = s.acked

theorem Grows.readFrom (h : Grows s t) {m : Message} (hm : ReadFrom s m) : ReadFrom t m := by
  rcases hm with hgone | ⟨payload, harticle, hpayload⟩
  · exact Or.inl (hgone.trans_le h.first)
  · exact Or.inr ⟨payload, harticle, h.payload _ _ hpayload⟩

theorem Kept.grows (hs : Kept p s) (h : Grows s t) (hseen : t.redis.seen = t.added.map Prod.fst)
    (hdistinct : (t.added.map Prod.fst).Nodup)
    (hlength : t.redis.entries.length ≤ t.added.length)
    (hentries : t.redis.entries = (t.added.drop t.first).map Prod.snd)
    (hbounded : 0 < t.first → 0 < p.maxLen ∧ p.maxLen ≤ t.redis.entries.length)
    (hadded : s.added.length ≤ t.added.length) : Kept p t := by
  refine ⟨hseen, hdistinct, hlength, hentries, hbounded, fun x hx => ?_, fun c m hm => ?_,
    fun m hm => ?_, fun i hi => ?_⟩
  · rw [h.pending] at hx
    exact (hs.pending x hx).trans_le hadded
  · rw [h.batches] at hm
    exact h.readFrom (hs.batches c m hm)
  · rw [h.acked] at hm
    exact h.readFrom (hs.acked m hm)
  · rw [h.delivered] at hi
    rw [h.pending]
    rcases hs.delivered i hi with hgone | hpending | ⟨payload, hpayload, hprocessed⟩
    · exact Or.inl (hgone.trans_le h.first)
    · exact Or.inr (Or.inl hpending)
    · refine Or.inr (Or.inr ⟨payload, h.payload _ _ hpayload, ?_⟩)
      rw [Processed, h.acked]
      exact hprocessed

/-- A call that adds no entry. -/
theorem Kept.produce_idle (hs : Kept p s) {a : ArticleRaw} {stage : Stage} {o : Outcome}
    {trimmed : Nat} (hnot : ¬ Adds p a stage o s.redis)
    (hseen : (publishCall p a stage o trimmed s.redis).2.seen = s.redis.seen)
    (hentries : (publishCall p a stage o trimmed s.redis).2.entries = s.redis.entries) :
    Kept p (s.produce p a stage o trimmed) := by
  have hadded : (s.produce p a stage o trimmed).added = s.added := if_neg hnot
  have hfirst : (s.produce p a stage o trimmed).first = s.first := by
    unfold State.first
    rw [hadded]
    show s.added.length - (publishCall p a stage o trimmed s.redis).2.entries.length = _
    rw [hentries]
  refine hs.grows ⟨hfirst.ge, fun i payload h => ?_, rfl, rfl, rfl, rfl⟩ ?_ ?_ ?_ ?_ ?_ ?_
  · rw [State.payload, hadded]
    exact h
  · rw [hadded]
    exact hseen.trans hs.seen
  · rw [hadded]
    exact hs.distinct
  · rw [hadded]
    exact (congrArg List.length hentries).trans_le hs.length_le
  · rw [hadded, hfirst]
    exact hentries.trans hs.entries
  · rw [hfirst]
    intro hpos
    exact ⟨(hs.bounded hpos).1, (hs.bounded hpos).2.trans (congrArg List.length hentries).ge⟩
  · rw [hadded]

/-- A call that adds an entry and trims the `k` oldest ones. -/
theorem Kept.produce_new (hs : Kept p s) {a : ArticleRaw} {stage : Stage} {o : Outcome}
    {trimmed k : Nat} (hadds : Adds p a stage o s.redis)
    (hseen : (publishCall p a stage o trimmed s.redis).2.seen =
      s.redis.seen ++ [p.sha256 a.url])
    (hk : k ≤ s.redis.entries.length + 1 - p.maxLen) (hmax : 0 < k → 0 < p.maxLen)
    (hentries : (publishCall p a stage o trimmed s.redis).2.entries =
      (s.redis.entries ++ [a.payload]).drop k) : Kept p (s.produce p a stage o trimmed) := by
  have hadded : (s.produce p a stage o trimmed).added =
      s.added ++ [(p.sha256 a.url, a.payload)] := if_pos hadds
  have hlength : (s.produce p a stage o trimmed).redis.entries.length =
      s.redis.entries.length + 1 - k := by
    apply (congrArg List.length hentries).trans
    rw [List.length_drop, List.length_append, List.length_singleton]
  have hsome := hs.length_le
  have hfirst : (s.produce p a stage o trimmed).first = s.first + k := by
    unfold State.first
    rw [hadded, hlength, List.length_append, List.length_singleton]
    omega
  refine hs.grows ⟨by omega, fun i payload h => ?_, rfl, rfl, rfl, rfl⟩ ?_ ?_ ?_ ?_ ?_ ?_
  · obtain ⟨x, hx, rfl⟩ := Option.map_eq_some_iff.mp h
    have hi := (List.getElem?_eq_some_iff.mp hx).1
    rw [State.payload, hadded, List.getElem?_append_left hi, hx]
    rfl
  · rw [hadded, List.map_append, ← hs.seen]
    exact hseen
  · rw [hadded, List.map_append, List.nodup_append]
    refine ⟨hs.distinct, List.nodup_singleton _, fun x hx y hy => ?_⟩
    obtain rfl := List.mem_singleton.mp hy
    rintro rfl
    exact hadds.2.2 (hs.seen ▸ hx)
  · rw [hadded, hlength, List.length_append, List.length_singleton]
    omega
  · have hle : s.first ≤ s.added.length := Nat.sub_le _ _
    rw [hfirst, hadded]
    apply hentries.trans
    rw [← List.drop_drop, List.drop_append_of_le_length hle, hs.entries]
    simp only [List.map_drop, List.map_append]
    rfl
  · rw [hfirst, hlength]
    intro hpos
    by_cases hzero : k = 0
    · obtain ⟨hmax, hle⟩ := hs.bounded (by omega)
      exact ⟨hmax, by omega⟩
    · exact ⟨hmax (by omega), by omega⟩
  · rw [hadded, List.length_append]
    exact Nat.le_add_right _ _

theorem Kept.produce (hs : Kept p s) (a : ArticleRaw) (stage : Stage) (o : Outcome)
    (trimmed : Nat) : Kept p (s.produce p a stage o trimmed) := by
  rcases publishCall_cases p a stage o trimmed s.redis with ⟨hnot, hseen, hentries⟩ |
    ⟨hadds, hseen, k, hk, hmax, hentries⟩
  · exact hs.produce_idle hnot hseen hentries
  · exact hs.produce_new hadds hseen hk hmax hentries

/-! ## Consumers -/

theorem newMessages_ids (s : State) (count : Nat) : (s.newMessages count).map Message.id =
    List.range' s.nextNew (s.newMessages count).length := by
  unfold State.newMessages
  rw [List.map_map, List.length_map, List.length_zipIdx]
  exact List.zipIdx_map_snd _ _

theorem Kept.newMessages (hs : Kept p s) {count : Nat} {m : Message}
    (hm : m ∈ s.newMessages count) :
    ∃ payload, m.article = some payload ∧ s.payload m.id = some payload := by
  obtain ⟨⟨payload, i⟩, hmem, rfl⟩ := List.mem_map.mp hm
  obtain ⟨hle, hget⟩ := List.mk_mem_zipIdx_iff_le_and_getElem?_sub.mp hmem
  refine ⟨payload, rfl, ?_⟩
  have hfirst : s.first ≤ s.nextNew := Nat.le_max_right _ _
  have hentry : s.redis.entries[i - s.first]? = some payload := by
    rw [List.getElem?_take] at hget
    split at hget
    · rw [List.getElem?_drop] at hget
      rw [← hget]
      congr 1
      omega
    · cases hget
  show s.payload i = some payload
  rw [← hs.entry_eq (hfirst.trans hle), State.entry, if_pos (hfirst.trans hle)]
  exact hentry

theorem setBatch_batches {c c' : Nat} {messages : List Message} {m : Message}
    (hm : m ∈ (s.setBatch c messages).batches c') : m ∈ messages ∨ m ∈ s.batches c' := by
  change m ∈ Function.update s.batches c messages c' at hm
  by_cases hc : c' = c
  · subst hc
    rw [Function.update_self] at hm
    exact Or.inl hm
  · rw [Function.update_of_ne hc] at hm
    exact Or.inr hm

theorem Kept.readNew (hs : Kept p s) (consumer count : Nat) : Kept p (s.readNew consumer count) := by
  have hids := newMessages_ids s count
  refine ⟨hs.seen, hs.distinct, hs.length_le, hs.entries, hs.bounded, fun x hx => ?_,
    fun c m hm => ?_, hs.acked, fun i hi => ?_⟩
  · rcases List.mem_append.mp hx with hx | hx
    · exact hs.pending x hx
    · obtain ⟨m, hm, rfl⟩ := List.mem_map.mp hx
      obtain ⟨payload, -, hpayload⟩ := hs.newMessages hm
      obtain ⟨y, hy, -⟩ := Option.map_eq_some_iff.mp hpayload
      exact (List.getElem?_eq_some_iff.mp hy).1
  · rcases setBatch_batches hm with hm | hm
    · exact Or.inr (hs.newMessages hm)
    · exact hs.batches c m hm
  · by_cases hnew : s.nextNew ≤ i
    · have hmem : i ∈ (s.newMessages count).map Message.id := by
        rw [hids]
        exact List.mem_range'_1.mpr ⟨hnew, hi⟩
      obtain ⟨m, hm, rfl⟩ := List.mem_map.mp hmem
      refine Or.inr (Or.inl (List.mem_map.mpr ⟨(m.id, consumer), ?_, rfl⟩))
      exact List.mem_append_right _ (List.mem_map.mpr ⟨m, hm, rfl⟩)
    · rcases Nat.lt_or_ge i s.delivered with hold | hskipped
      · rcases hs.delivered i hold with hgone | hpending | hprocessed
        · exact Or.inl hgone
        · refine Or.inr (Or.inl ?_)
          show i ∈ (s.pending ++ _).map Prod.fst
          rw [List.map_append]
          exact List.mem_append_left _ hpending
        · exact Or.inr (Or.inr hprocessed)
      · -- the entries that are skipped have been trimmed
        unfold State.nextNew at hnew
        exact Or.inl (show i < s.first by omega)

theorem Kept.setBatch (hs : Kept p s) (c : Nat) {messages : List Message}
    (h : ∀ m ∈ messages, ReadFrom s m) : Kept p (s.setBatch c messages) := by
  refine ⟨hs.seen, hs.distinct, hs.length_le, hs.entries, hs.bounded, hs.pending,
    fun c' m hm => ?_, hs.acked, hs.delivered⟩
  rcases setBatch_batches hm with hm | hm
  · exact h m hm
  · exact hs.batches c' m hm

/-- An entry that is read again is empty or has its payload. -/
theorem Kept.pendingMessages (hs : Kept p s) {consumer count : Nat} {m : Message}
    (hm : m ∈ s.pendingMessages consumer count) : ReadFrom s m := by
  obtain ⟨x, hx, rfl⟩ := List.mem_map.mp hm
  rcases Nat.lt_or_ge x.1 s.first with hgone | hthere
  · exact Or.inl hgone
  · obtain ⟨payload, hpayload⟩ :=
      exists_payload (hs.pending x (List.mem_filter.mp (List.mem_of_mem_take hx)).1)
    exact Or.inr ⟨payload, (hs.entry_eq hthere).trans hpayload, hpayload⟩

theorem Kept.ack (hs : Kept p s) (consumer : Nat) : Kept p (s.ack consumer) := by
  refine ⟨hs.seen, hs.distinct, hs.length_le, hs.entries, hs.bounded,
    fun x hx => hs.pending x (List.mem_filter.mp hx).1, fun c m hm => ?_, fun m hm => ?_,
    fun i hi => ?_⟩
  · rcases setBatch_batches hm with hm | hm
    · cases hm
    · exact hs.batches c m hm
  · rcases List.mem_append.mp hm with hm | hm
    · exact hs.acked m hm
    · exact hs.batches consumer m hm
  · have hacked {payload : Str} (h : Processed s i payload) :
        Processed (s.ack consumer) i payload := List.mem_append_left _ h
    rcases hs.delivered i hi with hgone | hpending | ⟨payload, hpayload, hprocessed⟩
    · exact Or.inl hgone
    · by_cases hbatch : i ∈ (s.batches consumer).map Message.id
      · obtain ⟨⟨_, article⟩, hm, rfl⟩ := List.mem_map.mp hbatch
        rcases hs.batches consumer _ hm with hgone | ⟨payload, harticle, hpayload⟩
        · exact Or.inl hgone
        · obtain rfl := harticle
          exact Or.inr (Or.inr ⟨payload, hpayload, List.mem_append_right _ hm⟩)
      · obtain ⟨x, hx, rfl⟩ := List.mem_map.mp hpending
        refine Or.inr (Or.inl (List.mem_map_of_mem (List.mem_filter.mpr ⟨hx, ?_⟩)))
        exact decide_eq_true hbatch
    · exact Or.inr (Or.inr ⟨payload, hpayload, hacked hprocessed⟩)

theorem Kept.step (hs : Kept p s) {e : Event} (h : Pipeline.step p s e = some t) : Kept p t := by
  cases e with
  | produce a stage o trimmed =>
    cases h
    exact hs.produce a stage o trimmed
  | readNew consumer count =>
    rw [Pipeline.step] at h
    split at h
    · cases h
      exact hs.readNew consumer count
    · cases h
  | readPending consumer count =>
    rw [Pipeline.step] at h
    split at h
    · cases h
      exact hs.setBatch consumer fun m => hs.pendingMessages
    · cases h
  | ack consumer =>
    rw [Pipeline.step] at h
    split at h
    · cases h
      exact hs.ack consumer
    · cases h
  | abandon consumer =>
    cases h
    exact hs.setBatch consumer fun m hm => by cases hm

theorem kept_run {es : List Event} (hrun : run (step p) .initial es = some s) : Kept p s :=
  run_invariant (K := fun _ _ => True) (fun _ _ _ hs _ h => hs.step h) (kept_initial p)
    (along_true _ _ _) hrun

/-! ## Runs -/

theorem Kept.eachSeen (hs : Kept p s) :
    EachSeen p s fun i payload => Readable s i payload ∨ Processed s i payload ∨ Trimmed p s i := by
  refine ⟨fun url => List.nodup_iff_count_le_one.mp hs.distinct _, fun hash hhash => ?_⟩
  rw [hs.seen] at hhash
  obtain ⟨⟨_, payload⟩, hmem, rfl⟩ := List.mem_map.mp hhash
  obtain ⟨i, hi, hget⟩ := List.getElem_of_mem hmem
  have hadded : s.added[i]? = some (_, payload) := List.getElem?_eq_some_iff.mpr ⟨hi, hget⟩
  have hpayload : s.payload i = some payload := by
    rw [State.payload, hadded]
    rfl
  refine ⟨i, payload, hadded, ?_⟩
  rcases Nat.lt_or_ge i s.first with hgone | hthere
  · exact Or.inr (Or.inr ⟨hgone, hs.bounded (Nat.zero_lt_of_lt hgone)⟩)
  · have hentry := (hs.entry_eq hthere).trans hpayload
    rcases Nat.lt_or_ge i s.delivered with hold | hnew
    · rcases hs.delivered i hold with hgone | hpending | ⟨payload', hpayload', hprocessed⟩
      · exact absurd hgone (Nat.not_lt.mpr hthere)
      · exact Or.inl ⟨hentry, Or.inr hpending⟩
      · obtain rfl := Option.some.inj (hpayload.symm.trans hpayload')
        exact Or.inr (Or.inl hprocessed)
    · exact Or.inl ⟨hentry, Or.inl hnew⟩

theorem Kept.acked_empty (hs : Kept p s) {m : Message} (hm : m ∈ s.acked)
    (hempty : m.article = none) : Trimmed p s m.id := by
  rcases hs.acked m hm with hgone | ⟨payload, harticle, -⟩
  · exact ⟨hgone, hs.bounded (Nat.zero_lt_of_lt hgone)⟩
  · rw [hempty] at harticle
    cases harticle

/-- After every run each URL that was seen has one entry, which the group can read or
has processed, unless the bounded stream is full of newer entries. Only then is an entry
acknowledged as an empty one. -/
theorem delivered_unless_trimmed (p : Producer) (es : List Event) (s : State)
    (hrun : run (step p) .initial es = some s) :
    (EachSeen p s fun i payload => Readable s i payload ∨ Processed s i payload ∨ Trimmed p s i) ∧
      ∀ m ∈ s.acked, m.article = none → Trimmed p s m.id :=
  ⟨(kept_run hrun).eachSeen, fun _ => (kept_run hrun).acked_empty⟩

def newYear : Time := ⟨2024, 1, 1, 0, 0, 0, 0, by decide⟩

/-- An article with this URL and payload. -/
def articleNamed (url : String) : ArticleRaw :=
  ⟨lit url, [], newYear, lit url⟩

/-- A stream bounded to one entry. The URL stands for its hash. -/
def boundedToOne : Producer := ⟨id, 1⟩

/-- One crawler publishes an entry, which a consumer reads and acknowledges. -/
def promptRun : List Event :=
  [.produce (articleNamed "a") .script .returns 0, .readNew 0 10, .ack 0,
    .produce (articleNamed "b") .script .returns 1]

theorem delivered_unless_trimmed_prompt : ∃ s, run (step boundedToOne) .initial promptRun = some s ∧
    s.acked = [⟨0, some (lit "a")⟩] ∧
    (EachSeen boundedToOne s fun i payload =>
      Readable s i payload ∨ Processed s i payload ∨ Trimmed boundedToOne s i) ∧
    ∀ m ∈ s.acked, m.article = none → Trimmed boundedToOne s m.id := by
  have hacked : (run (step boundedToOne) .initial promptRun).map State.acked =
      some [⟨0, some (lit "a")⟩] := by
    decide
  obtain ⟨s, hrun, hs⟩ := Option.map_eq_some_iff.mp hacked
  exact ⟨s, hrun, hs, delivered_unless_trimmed boundedToOne promptRun s hrun⟩

/-- The consumer is killed while it has the first entry, which the second one trims. What
it reads again is empty, and is acknowledged. -/
def lateRun : List Event :=
  [.produce (articleNamed "a") .script .returns 0, .readNew 0 10, .abandon 0,
    .produce (articleNamed "b") .script .returns 1, .readPending 0 10, .ack 0]

theorem seen_entry_lost : ¬ ∀ (p : Producer) (es : List Event) (s : State),
    run (step p) .initial es = some s →
      EachSeen p s fun i payload => Readable s i payload ∨ Processed s i payload := by
  intro hdelivers
  have hview : (run (step boundedToOne) .initial lateRun).map
      (fun s => (s.redis.seen, s.added, s.entry 0, s.acked)) =
        some ([lit "a", lit "b"], [(lit "a", lit "a"), (lit "b", lit "b")], none, [⟨0, none⟩]) :=
    rfl
  obtain ⟨s, hrun, hs⟩ := Option.map_eq_some_iff.mp hview
  simp only [Prod.mk.injEq] at hs
  obtain ⟨hseen, hadded, hentry, hacked⟩ := hs
  obtain ⟨-, heach⟩ := hdelivers boundedToOne lateRun s hrun
  obtain ⟨i, payload, hi, hkept⟩ := heach (lit "a") (hseen ▸ List.mem_cons_self)
  rw [hadded] at hi
  obtain rfl : i = 0 := by
    cases i with
    | zero => rfl
    | succ i =>
      have hmem : (lit "a", payload) ∈ [(lit "b", lit "b")] := List.mem_of_getElem? hi
      have hsame : lit "a" = lit "b" := congrArg Prod.fst (List.mem_singleton.mp hmem)
      exact absurd hsame (by decide)
  rcases hkept with ⟨hreadable, -⟩ | hprocessed
  · rw [hentry] at hreadable
    cases hreadable
  · rw [Processed, hacked] at hprocessed
    cases List.mem_singleton.mp hprocessed

/-- On an unbounded stream nothing is lost. -/
theorem unbounded_never_loses {es : List Event} (hmax : p.maxLen = 0)
    (hrun : run (step p) .initial es = some s) :
    EachSeen p s fun i payload => Readable s i payload ∨ Processed s i payload := by
  obtain ⟨hcount, heach⟩ := (kept_run hrun).eachSeen
  refine ⟨hcount, fun hash hhash => ?_⟩
  obtain ⟨i, payload, hadded, hkept⟩ := heach hash hhash
  refine ⟨i, payload, hadded, ?_⟩
  rcases hkept with hreadable | hprocessed | ⟨-, hpos, -⟩
  · exact Or.inl hreadable
  · exact Or.inr hprocessed
  · exact absurd hmax hpos.ne'

end WebSpider.Pipeline
