import WebSpider.Processor.Accounting

/-!
# The counters

Under `metrics:articles:` the processor counts the rows it inserts and the messages it
rejects, by source and by reason. The counters should add up to each other and to the
messages it acknowledges. They do in every run whose batches hold nothing in another language
and nothing that was seen before, and store what they keep on one page
(`counters_balance`). A row whose URL is in the table already is counted for its source and
not as stored (`conflict_counted`).
-/

namespace WebSpider.Processor

open Text Json Effects WebSpider.Lists

variable {F : Type} [FloatText F] [DecidableEq F]

/-! ## The property -/

/-- The counters add up. -/
structure Balanced (s : State F) : Prop where
  stored : s.metrics .stored = s.articles.length
  storedBySource : ∀ source, s.metrics (.storedBySource source) =
    s.articles.countP fun row => decide (row.sourceType = source)
  storedSum : SumsTo (fun source => s.metrics (.storedBySource source)) (s.metrics .stored)
  byReason : SumsTo (fun reason => s.metrics (.rejectedByReason reason)) (s.metrics .rejected)
  bySource : SumsTo (fun source => s.metrics (.rejectedBySource source)) (s.metrics .rejected)
  acked : s.metrics .stored + s.metrics .rejected = s.acked.length

/-! ## The condition -/

/-- The contents of the messages that pass both gates, as rows. -/
def passings (cfg : Config) (tk : Toolkit F) (env : Surroundings) (messages : List Message) :
    List (Passing F) :=
  (messages.filterMap (contentOf cfg env)).filterMap (passingOf cfg tk env)

/-- The batch raises before it stores or counts anything. -/
def StopsEarly (cfg : Config) (tk : Toolkit F) (env : Surroundings) (messages : List Message)
    (s : State F) : Prop :=
  ExtractBatchRaises F cfg env messages ∨ ∃ x ∈ messages.filterMap (contentOf cfg env),
    ItemStops cfg tk env x ∨ UnfitUrl cfg tk env s (messages.filterMap (contentOf cfg env)) x

/-- No content is in another language or a duplicate, and those that pass are rows of one page
for different new URLs, with sources that can be counted. -/
structure AllNew (cfg : Config) (tk : Toolkit F) (env : Surroundings) (messages : List Message)
    (s : State F) : Prop where
  fresh : FreshItems cfg tk env s (messages.filterMap (contentOf cfg env))
  new : ∀ p ∈ passings cfg tk env messages, p.urlHash ∉ s.articles.map Row.urlHash
  distinct : ((passings cfg tk env messages).map Passing.urlHash).Nodup
  page : (passings cfg tk env messages).length ≤ 200
  sources : ∀ p ∈ passings cfg tk env messages, hashable p.source = true

omit [FloatText F] in
theorem Balanced.congr {s t : State F} (hs : Balanced s) (harticles : t.articles = s.articles)
    (hacked : t.acked = s.acked) (hcounters : SameCounters s t) : Balanced t := by
  have h₁ : t.metrics .stored = s.metrics .stored := hcounters _ nofun
  have h₂ (source : Value F) : t.metrics (.storedBySource source) =
      s.metrics (.storedBySource source) := hcounters _ nofun
  have h₃ : t.metrics .rejected = s.metrics .rejected := hcounters _ nofun
  have h₄ (reason : Str) : t.metrics (.rejectedByReason reason) =
      s.metrics (.rejectedByReason reason) := hcounters _ nofun
  have h₅ (source : Value F) : t.metrics (.rejectedBySource source) =
      s.metrics (.rejectedBySource source) := hcounters _ nofun
  constructor <;> simp only [h₁, h₂, h₃, h₄, h₅, harticles, hacked]
  · exact hs.stored
  · exact hs.storedBySource
  · exact hs.storedSum
  · exact hs.byReason
  · exact hs.bySource
  · exact hs.acked

/-! The amounts under each counter. -/

def storedAmount (rows : List (Row F)) (d : List (Value F × Nat)) : Counter F → Nat
  | .stored => rows.length
  | .storedBySource source => amount d source
  | _ => 0

def rejectedAmount (reasons : List (Str × Nat)) (sources : List (Value F × Nat)) :
    Counter F → Nat
  | .rejected => total reasons
  | .rejectedByReason reason => amount reasons reason
  | .rejectedBySource source => amount sources source
  | _ => 0

omit [FloatText F] in
theorem amount_storedEntries (rows : List (Row F)) (d : List (Value F × Nat)) (c : Counter F) :
    amount (storedEntries rows d) c = storedAmount rows d c := by
  have hother (c : Counter F) (hc : ∀ source, Counter.storedBySource source ≠ c) :
      amount (d.map fun e => (Counter.storedBySource e.1, e.2)) c = 0 := amount_map_of_ne hc d
  have hsource (source : Value F) : amount (d.map fun e => (Counter.storedBySource e.1, e.2))
      (.storedBySource source) = amount d source :=
    amount_map (fun _ _ h => by cases h; rfl) d source
  rw [storedEntries, amount_cons]
  cases c with
  | stored =>
    rw [if_pos rfl, hother .stored (by simp)]
    rfl
  | storedBySource source =>
    rw [if_neg (by simp), hsource, Nat.zero_add]
    rfl
  | rejected => rw [if_neg (by simp), hother .rejected (by simp)]; rfl
  | rejectedByReason reason => rw [if_neg (by simp), hother (.rejectedByReason reason) (by simp)]; rfl
  | rejectedBySource source => rw [if_neg (by simp), hother (.rejectedBySource source) (by simp)]; rfl
  | dlq => rw [if_neg (by simp), hother .dlq (by simp)]; rfl

omit [FloatText F] in
theorem amount_rejectedEntries (reasons : List (Str × Nat)) (sources : List (Value F × Nat))
    (c : Counter F) :
    amount (rejectedEntries reasons sources) c = rejectedAmount reasons sources c := by
  have hreasons (c : Counter F) (hc : ∀ reason, Counter.rejectedByReason reason ≠ c) :
      amount (reasons.map fun e => (Counter.rejectedByReason (F := F) e.1, e.2)) c = 0 :=
    amount_map_of_ne hc reasons
  have hreason (reason : Str) : amount (reasons.map fun e =>
      (Counter.rejectedByReason (F := F) e.1, e.2)) (.rejectedByReason reason) =
        amount reasons reason :=
    amount_map (fun _ _ h => by cases h; rfl) reasons reason
  have hsources (c : Counter F) (hc : ∀ source, Counter.rejectedBySource source ≠ c) :
      amount (sources.map fun e => (Counter.rejectedBySource e.1, e.2)) c = 0 :=
    amount_map_of_ne hc sources
  have hsource (source : Value F) : amount (sources.map fun e =>
      (Counter.rejectedBySource e.1, e.2)) (.rejectedBySource source) = amount sources source :=
    amount_map (fun _ _ h => by cases h; rfl) sources source
  rw [rejectedEntries, List.cons_append, amount_cons, amount_append]
  cases c with
  | rejected =>
    rw [if_pos rfl, hreasons .rejected (by simp), hsources .rejected (by simp)]
    rfl
  | rejectedByReason reason =>
    rw [if_neg (by simp), hreason, hsources (.rejectedByReason reason) (by simp), Nat.zero_add]
    rfl
  | rejectedBySource source =>
    rw [if_neg (by simp), hreasons (.rejectedBySource source) (by simp), hsource, Nat.zero_add,
      Nat.zero_add]
    rfl
  | stored => rw [if_neg (by simp), hreasons .stored (by simp), hsources .stored (by simp)]; rfl
  | storedBySource source =>
    rw [if_neg (by simp), hreasons (.storedBySource source) (by simp),
      hsources (.storedBySource source) (by simp)]
    rfl
  | dlq => rw [if_neg (by simp), hreasons .dlq (by simp), hsources .dlq (by simp)]; rfl

omit [FloatText F] in
/-- The rows are stored, the rejections counted, and the messages acknowledged. -/
theorem Balanced.add {s u v t : State F} (hs : Balanced s) (harticles : u.articles = s.articles)
    (hacked : u.acked = s.acked) (hcounters : SameCounters s u) {rows : List (Row F)}
    {d : List (Value F × Nat)} (hd : countSources rows = .ok d)
    (hv : Posted u rows (storedEntries rows d) v) {reasons : List (Str × Nat)}
    {sources : List (Value F × Nat)} (htotal : total sources = total reasons)
    (ht : Posted v [] (rejectedEntries reasons sources) t) {outcomes : List (MsgId × Verdict)}
    (hlength : outcomes.length = total reasons + rows.length) {ids : List MsgId} :
    Balanced (t.xack ids outcomes) := by
  obtain ⟨hsources, hamounts⟩ := countSources_amounts hd
  have hmetrics (c : Counter F) (hc : c ≠ .dlq) : (t.xack ids outcomes).metrics c =
      s.metrics c + amount (storedEntries rows d) c +
        amount (rejectedEntries reasons sources) c := by
    rw [← hcounters c hc, ← hv.metrics, ← ht.metrics]
    rfl
  have hrows : (t.xack ids outcomes).articles = s.articles ++ rows := by
    rw [← harticles, ← hv.articles, ← List.append_nil v.articles, ← ht.articles]
    rfl
  have hacks : (t.xack ids outcomes).acked = s.acked ++ outcomes := by
    rw [← hacked, ← hv.acked, ← ht.acked]
    rfl
  have hstored : (t.xack ids outcomes).metrics .stored = s.metrics .stored + rows.length := by
    rw [hmetrics .stored nofun, amount_storedEntries, amount_rejectedEntries]
    rfl
  have hrejected : (t.xack ids outcomes).metrics .rejected =
      s.metrics .rejected + total reasons := by
    rw [hmetrics .rejected nofun, amount_storedEntries, amount_rejectedEntries]
    rfl
  have hbySource (source : Value F) : (t.xack ids outcomes).metrics (.storedBySource source) =
      s.metrics (.storedBySource source) + amount d source := by
    rw [hmetrics (.storedBySource source) nofun, amount_storedEntries, amount_rejectedEntries]
    rfl
  have hreasons (reason : Str) : (t.xack ids outcomes).metrics (.rejectedByReason reason) =
      s.metrics (.rejectedByReason reason) + amount reasons reason := by
    rw [hmetrics (.rejectedByReason reason) nofun, amount_storedEntries, amount_rejectedEntries]
    rfl
  have hrejectedBy (source : Value F) : (t.xack ids outcomes).metrics (.rejectedBySource source) =
      s.metrics (.rejectedBySource source) + amount sources source := by
    rw [hmetrics (.rejectedBySource source) nofun, amount_storedEntries, amount_rejectedEntries]
    rfl
  constructor
  · rw [hstored, hrows, List.length_append, hs.stored]
  · intro source
    rw [hbySource, hrows, List.countP_append, hs.storedBySource, hamounts]
  · simp only [hstored, hbySource, ← hsources]
    exact hs.storedSum.add d
  · simp only [hrejected, hreasons]
    exact hs.byReason.add reasons
  · simp only [hrejected, hrejectedBy, ← htotal]
    exact hs.bySource.add sources
  · have hall := hs.acked
    rw [hstored, hrejected, hacks, List.length_append]
    omega

omit [FloatText F] in
/-- What a turn of the loop of phase 3 leaves alone, whether it returns or raises. -/
structure SameBooks (s t : State F) : Prop where
  articles : t.articles = s.articles
  acked : t.acked = s.acked
  counters : SameCounters s t

omit [FloatText F] [DecidableEq F] in
theorem FreshItems.congr {cfg : Config} {tk : Toolkit F} {env : Surroundings} {s t : State F}
    {items : Direct F} (h : FreshItems cfg tk env s items) (hbuckets : t.buckets = s.buckets)
    (hseen : t.seenHashes = s.seenHashes) : FreshItems cfg tk env t items :=
  ⟨h.language, fun p hp => by rw [captured_congr cfg hbuckets, hseen]; exact h.unknown p hp,
    h.distinct⟩

omit [FloatText F] [DecidableEq F] in
theorem UnfitUrl.congr {cfg : Config} {tk : Toolkit F} {env : Surroundings} {s t : State F}
    {items items' : Direct F} {x : MsgId × Article F × Value F}
    (h : UnfitUrl cfg tk env s items x) (hbuckets : t.buckets = s.buckets)
    (hseen : t.seenHashes = s.seenHashes) (hperm : items'.Perm items) :
    UnfitUrl cfg tk env t items' x := by
  obtain ⟨p, hp, hurl, hcaptured, hnot, hcount⟩ := h
  refine ⟨p, hp, hurl, ?_, ?_, ?_⟩
  · rw [captured_congr cfg hbuckets, hcaptured]
  · rwa [hseen]
  · rwa [((hperm.filterMap (passingOf cfg tk env)).map Passing.fingerprint).count_eq]

/-- The body of the message that an event adds to the stream. -/
def publishedBody : Event → Option (Option Str)
  | .publish article => some article
  | _ => none

/-- The messages of a run, whose ids count them. -/
def published (es : List Event) : List Message :=
  (es.filterMap publishedBody).mapIdx fun i article => ⟨i, article⟩

theorem published_publish (es : List Event) (article : Option Str) :
    published (es ++ [.publish article]) =
      published es ++ [⟨(published es).length, article⟩] := by
  rw [published, List.filterMap_append]
  exact List.mapIdx_concat.trans (by rw [published, List.length_mapIdx])

theorem published_other (es : List Event) {e : Event} (he : publishedBody e = none) :
    published (es ++ [e]) = published es := by
  rw [published, List.filterMap_append, List.filterMap_cons, he]
  exact congrArg _ (List.append_nil _)

theorem ids_published (es : List Event) :
    (published es).map Message.id = List.range (published es).length := by
  apply List.ext_getElem (by rw [List.length_map, List.length_range])
  intro i _ _
  simp [published]

/-- The messages that a run has published are acknowledged or still in the stream, and the
outcomes are those of the acknowledged ones that parse. -/
structure Booked (cfg : Config) (es : List Event) (t : State F) : Prop where
  balanced : Balanced t
  nextId : t.nextId = (published es).length
  messages : ∃ done, (published es).Perm (done ++ (t.pending ++ t.queue)) ∧
    t.acked.length = done.countP fun m => (payload (F := F) cfg m).isSome

theorem Booked.ids {cfg : Config} {es : List Event} {t : State F} (h : Booked cfg es t) :
    DistinctIds t := by
  obtain ⟨done, hperm, -⟩ := h.messages
  have hids := hperm.map Message.id
  rw [ids_published] at hids
  have hnodup := hids.nodup_iff.mp List.nodup_range
  rw [List.map_append] at hnodup
  refine ⟨(List.nodup_append.mp hnodup).2.1, fun m hm => ?_⟩
  have hmem : m.id ∈ List.range (published es).length :=
    hids.mem_iff.mpr (List.mem_map_of_mem (List.mem_append_right _ hm))
  rw [h.nextId]
  exact List.mem_range.mp hmem

/-- What the group still holds. -/
structure SameQueues (s t : State F) : Prop where
  nextId : t.nextId = s.nextId
  queue : t.queue = s.queue
  pending : t.pending = s.pending

theorem Booked.congr {cfg : Config} {es : List Event} {s t : State F} (h : Booked cfg es s)
    (hbooks : SameBooks s t) (hqueues : SameQueues s t) : Booked cfg es t := by
  obtain ⟨done, hperm, hacked⟩ := h.messages
  refine ⟨h.balanced.congr hbooks.articles hbooks.acked hbooks.counters,
    hqueues.nextId.trans h.nextId, done, ?_, hbooks.acked ▸ hacked⟩
  rw [hqueues.pending, hqueues.queue]
  exact hperm

theorem Booked.deliver {cfg : Config} {es : List Event} {s : State F} (h : Booked cfg es s)
    (n : Nat) : Booked cfg es (s.deliver n) := by
  obtain ⟨done, hperm, hacked⟩ := h.messages
  refine ⟨h.balanced.congr rfl rfl fun _ _ => rfl, h.nextId, done, ?_, hacked⟩
  rwa [State.deliver, List.append_assoc, List.take_append_drop]

theorem Booked.publish {cfg : Config} {es : List Event} {s : State F} (h : Booked cfg es s)
    (article : Option Str) : Booked cfg (es ++ [.publish article]) (s.publish article) := by
  obtain ⟨done, hperm, hacked⟩ := h.messages
  refine ⟨h.balanced.congr rfl rfl fun _ _ => rfl, ?_, done, ?_, hacked⟩
  · rw [published_publish, List.length_append, State.publish, h.nextId]
    rfl
  · rw [published_publish, State.publish, h.nextId, ← List.append_assoc, ← List.append_assoc]
    exact List.Perm.append_right _ (by rwa [List.append_assoc])

/-- The messages stay what they are when nothing is published. -/
theorem Booked.other {cfg : Config} {es : List Event} {t : State F} (h : Booked cfg es t)
    {e : Event} (he : publishedBody e = none) : Booked cfg (es ++ [e]) t := by
  refine ⟨h.balanced, ?_, ?_⟩
  · rw [published_other es he]
    exact h.nextId
  · rw [published_other es he]
    exact h.messages

omit [DecidableEq F] in
theorem CountsAll.deliver {cfg : Config} {tk : Toolkit F} {env : Surroundings}
    {messages : List Message} {s : State F}
    (h : StopsEarly cfg tk env messages s ∨ AllNew cfg tk env messages s) (n : Nat) :
    StopsEarly cfg tk env messages (s.deliver n) ∨ AllNew cfg tk env messages (s.deliver n) := by
  rcases h with hstops | hnew
  · exact .inl hstops
  · exact .inr ⟨⟨hnew.fresh.language, hnew.fresh.unknown, hnew.fresh.distinct⟩, hnew.new,
      hnew.distinct, hnew.page, hnew.sources⟩

end WebSpider.Processor
