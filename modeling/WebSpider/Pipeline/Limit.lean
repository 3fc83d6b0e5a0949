import WebSpider.Crawler.Configured
import WebSpider.Pipeline.Delivery

/-!
# The limit of the stream

`config.go` says of `stream_max_len` that zero means no limit, but `applyDefaults` puts the
default limit in its place. So whatever is configured, a consumer that stays away long enough
can lose articles: `MAXLEN ~` lets Redis trim entries above the limit, and those that are
trimmed before they are read are never processed, while their hashes keep them from being
published again (`loaded_loses`).
-/

namespace WebSpider.Pipeline.Limit

open Text Effects Crawler
open Crawler.Configured (Config load complete_of_load)
open Processor (Message)

variable {p : Producer} {s t : State}

/-! ## Lost entries -/

/-- The URL is marked as seen, and its entry is never going to be read. -/
structure Lost (p : Producer) (hash : Str) (i : Nat) (s : State) : Prop where
  kept : Kept p s
  added : (s.added.map Prod.fst)[i]? = some hash
  gone : i < s.first
  batches : ∀ c, ∀ m ∈ s.batches c, m.id = i → m.article = none
  acked : ∀ m ∈ s.acked, m.id = i → m.article = none

variable {hash : Str} {i : Nat} {urls : List Str}

theorem added_produce (s : State) (a : ArticleRaw) (stage : Stage) (o : Outcome) (trimmed : Nat) :
    ∃ more, (s.produce p a stage o trimmed).added = s.added ++ more := by
  unfold State.produce
  dsimp only
  split
  · exact ⟨_, rfl⟩
  · exact ⟨[], (List.append_nil _).symm⟩

/-- Entries leave the stream at its beginning only. -/
theorem first_le_produce (hs : Kept p s) (a : ArticleRaw) (stage : Stage) (o : Outcome)
    (trimmed : Nat) : s.first ≤ (s.produce p a stage o trimmed).first := by
  have hlength := hs.length_le
  unfold State.first State.produce
  dsimp only
  rcases publishCall_cases p a stage o trimmed s.redis with ⟨hnot, -, hentries⟩ |
    ⟨hadds, -, k, hk, -, hentries⟩
  · rw [if_neg hnot, hentries]
  · rw [if_pos hadds, hentries, List.length_append, List.length_drop, List.length_append,
      List.length_singleton, List.length_singleton]
    omega

theorem newMessages_id {m : Message} {count : Nat} (hm : m ∈ s.newMessages count) : s.first ≤ m.id := by
  have hid : m.id ∈ (s.newMessages count).map Message.id := List.mem_map_of_mem hm
  rw [newMessages_ids, List.mem_range'_1] at hid
  exact (Nat.le_max_right _ _).trans hid.1

theorem Lost.produce (h : Lost p hash i s) (a : ArticleRaw) (stage : Stage) (o : Outcome)
    (trimmed : Nat) : Lost p hash i (s.produce p a stage o trimmed) where
  kept := h.kept.produce a stage o trimmed
  added := by
    obtain ⟨more, hmore⟩ := added_produce (p := p) s a stage o trimmed
    have hlt := (List.getElem?_eq_some_iff.mp h.added).1
    rw [hmore, List.map_append, List.getElem?_append_left hlt]
    exact h.added
  gone := h.gone.trans_le (first_le_produce h.kept a stage o trimmed)
  batches := h.batches
  acked := h.acked

theorem Lost.setBatch (h : Lost p hash i s) (c : Nat) {messages : List Message}
    (hread : ∀ m ∈ messages, ReadFrom s m)
    (hmessages : ∀ m ∈ messages, m.id = i → m.article = none) :
    Lost p hash i (s.setBatch c messages) where
  kept := h.kept.setBatch c hread
  added := h.added
  gone := h.gone
  batches c' m hm hid := by
    rcases setBatch_batches hm with hm | hm
    · exact hmessages m hm hid
    · exact h.batches c' m hm hid
  acked := h.acked

theorem Lost.readNew (h : Lost p hash i s) (c count : Nat) : Lost p hash i (s.readNew c count) where
  kept := h.kept.readNew c count
  added := h.added
  gone := h.gone
  batches c' m hm hid := by
    rcases setBatch_batches hm with hm | hm
    · have hfirst := newMessages_id hm
      rw [hid] at hfirst
      exact absurd h.gone (Nat.not_lt.mpr hfirst)
    · exact h.batches c' m hm hid
  acked := h.acked

theorem Lost.ack (h : Lost p hash i s) (c : Nat) : Lost p hash i (s.ack c) where
  kept := h.kept.ack c
  added := h.added
  gone := h.gone
  batches c' m hm hid := by
    rcases setBatch_batches hm with hm | hm
    · cases hm
    · exact h.batches c' m hm hid
  acked m hm hid := by
    rcases List.mem_append.mp hm with hm | hm
    · exact h.acked m hm hid
    · exact h.batches c m hm hid

theorem Lost.step (h : Lost p hash i s) {e : Event} (hstep : Pipeline.step p s e = some t) :
    Lost p hash i t := by
  cases e with
  | produce a stage o trimmed =>
    cases hstep
    exact h.produce a stage o trimmed
  | readNew c count =>
    rw [Pipeline.step] at hstep
    split at hstep
    · cases hstep
      exact h.readNew c count
    · cases hstep
  | readPending c count =>
    rw [Pipeline.step] at hstep
    split at hstep
    · cases hstep
      refine h.setBatch c (fun m hm => h.kept.pendingMessages hm) fun m hm hid => ?_
      obtain ⟨x, -, rfl⟩ := List.mem_map.mp hm
      obtain rfl : x.1 = i := hid
      exact if_neg (Nat.not_le.mpr h.gone)
    · cases hstep
  | ack c =>
    rw [Pipeline.step] at hstep
    split at hstep
    · cases hstep
      exact h.ack c
    · cases hstep
  | abandon c =>
    cases hstep
    refine h.setBatch c (fun m hm => ?_) fun m hm => ?_
    · cases hm
    · cases hm

theorem Lost.run {es : List Event} (h : Lost p hash i s) (hrun : run (Pipeline.step p) s es = some t) :
    Lost p hash i t :=
  run_invariant (K := fun _ _ => True) (fun _ _ _ hs _ hstep => hs.step hstep) h
    (along_true _ _ _) hrun

/-- Neither can the entry be read, nor was it processed. -/
theorem Lost.unread (h : Lost p hash i s) {j : Nat} {payload : Str}
    (hj : s.added[j]? = some (hash, payload)) : ¬ Readable s j payload ∧ ¬ Processed s j payload := by
  obtain rfl : j = i := by
    have hj' : (s.added.map Prod.fst)[j]? = some hash := by
      rw [List.getElem?_map, hj]
      rfl
    obtain ⟨hjlt, hjget⟩ := List.getElem?_eq_some_iff.mp hj'
    obtain ⟨hilt, higet⟩ := List.getElem?_eq_some_iff.mp h.added
    exact (List.Nodup.getElem_inj_iff h.kept.distinct).mp (hjget.trans higet.symm)
  constructor
  · rintro ⟨hentry, -⟩
    rw [State.entry, if_neg (Nat.not_le.mpr h.gone)] at hentry
    cases hentry
  · intro hprocessed
    have hempty := h.acked _ hprocessed rfl
    cases hempty

/-! ## A consumer that stays away -/

/-- A call of `Publish` in which nothing fails, and Redis trims up to so many of the entries
that are above the limit. -/
def publish (call : ArticleRaw × Nat) : List Event :=
  (.script :: .produced :: if call.1.sourceType = [] then [] else [.bySource, .cursor]).map
    fun stage => .produce call.1 stage .returns call.2

/-- In every further run of crawlers and consumers the URL stays marked as seen, and its
entry is neither read nor processed. -/
def LostForGood (p : Producer) (s : State) (url : Str) : Prop :=
  ∀ es t, run (step p) s es = some t → p.sha256 url ∈ t.redis.seen ∧
    ∀ i payload, t.added[i]? = some (p.sha256 url, payload) →
      ¬ Readable t i payload ∧ ¬ Processed t i payload

/-- No consumer has read anything of what was published. -/
structure Unread (p : Producer) (urls : List Str) (s : State) : Prop where
  kept : Kept p s
  added : s.added.map Prod.fst = urls.map p.sha256
  delivered : s.delivered = 0
  batches : s.batches = fun _ => []
  acked : s.acked = []

/-- Only the script adds an entry. -/
theorem Unread.run_idle (h : Unread p urls s) (a : ArticleRaw) (trimmed : Nat) {stages : List Stage}
    (hstages : .script ∉ stages) :
    ∃ t, run (step p) s (stages.map fun stage => .produce a stage .returns trimmed) = some t ∧
      Unread p urls t ∧ t.redis.entries = s.redis.entries := by
  induction stages generalizing s with
  | nil => exact ⟨s, rfl, h, rfl⟩
  | cons stage stages ih =>
    rw [List.mem_cons, not_or] at hstages
    have hnot : ¬ Adds p a stage .returns s.redis := fun hadds => hstages.1 hadds.1.symm
    have hadded : (s.produce p a stage .returns trimmed).added = s.added := if_neg hnot
    have hidle : Unread p urls (s.produce p a stage .returns trimmed) := by
      refine ⟨h.kept.produce a stage .returns trimmed, ?_, h.delivered, h.batches, h.acked⟩
      rw [hadded]
      exact h.added
    obtain ⟨t, ht, hunread, hentries⟩ := ih hidle hstages.2
    refine ⟨t, ht, hunread, hentries.trans ?_⟩
    rcases publishCall_cases p a stage .returns trimmed s.redis with ⟨-, -, hsame⟩ | ⟨hadds, -⟩
    · exact hsame
    · exact absurd hadds hnot

theorem entries_publish (hmax : 0 < p.maxLen) {a : ArticleRaw} (trimmed : Nat)
    (hnew : p.sha256 a.url ∉ s.redis.seen) :
    (publishCall p a .script .returns trimmed s.redis).2.entries =
      (s.redis.entries ++ [a.payload]).drop
        (min trimmed ((s.redis.entries ++ [a.payload]).length - p.maxLen)) := by
  change (dedupScript p trimmed a s.redis).2.entries = _
  rw [dedupScript, if_neg hnew]
  exact if_pos hmax

/-- A publication while no consumer reads. A call that may trim an entry keeps the stream
within its limit. -/
theorem Unread.publish (h : Unread p urls s) (hmax : 0 < p.maxLen) {call : ArticleRaw × Nat}
    (hnew : p.sha256 call.1.url ∉ urls.map p.sha256) :
    ∃ t, run (step p) s (publish call) = some t ∧ Unread p (urls ++ [call.1.url]) t ∧
      (0 < call.2 → s.redis.entries.length = min urls.length p.maxLen →
        t.redis.entries.length = min (urls ++ [call.1.url]).length p.maxLen) := by
  have hunseen : p.sha256 call.1.url ∉ s.redis.seen := by
    rw [h.kept.seen, h.added]
    exact hnew
  have hadds : Adds p call.1 .script .returns s.redis := ⟨rfl, rfl, hunseen⟩
  have hadded : (s.produce p call.1 .script .returns call.2).added =
      s.added ++ [(p.sha256 call.1.url, call.1.payload)] := if_pos hadds
  have hscript : Unread p (urls ++ [call.1.url]) (s.produce p call.1 .script .returns call.2) := by
    refine ⟨h.kept.produce call.1 .script .returns call.2, ?_, h.delivered, h.batches, h.acked⟩
    rw [hadded, List.map_append, List.map_append, h.added]
    rfl
  have hrest : Stage.script ∉
      .produced :: if call.1.sourceType = [] then [] else [.bySource, .cursor] := by
    split <;> decide
  obtain ⟨t, ht, hunread, hidle⟩ := hscript.run_idle call.1 call.2 hrest
  refine ⟨t, ht, hunread, fun htrims hentries => ?_⟩
  rw [hidle]
  change (publishCall p call.1 .script .returns call.2 s.redis).2.entries.length = _
  rw [entries_publish hmax call.2 hunseen]
  simp only [List.length_drop, List.length_append, List.length_singleton, hentries]
  omega

variable {calls : List (ArticleRaw × Nat)}

/-- The URLs of the published articles. -/
def urlsOf (calls : List (ArticleRaw × Nat)) : List Str := calls.map fun call => call.1.url

theorem exists_unread (hmax : 0 < p.maxLen) (hcalls : ((urlsOf calls).map p.sha256).Nodup) :
    ∃ s, run (step p) .initial (calls.flatMap publish) = some s ∧ Unread p (urlsOf calls) s ∧
      ((∀ call ∈ calls, 0 < call.2) → s.redis.entries.length = min calls.length p.maxLen) := by
  induction calls using List.reverseRecOn with
  | nil => exact ⟨_, rfl, ⟨kept_initial p, rfl, rfl, rfl, rfl⟩, fun _ => (Nat.zero_min _).symm⟩
  | append_singleton calls call ih =>
    have hurls : urlsOf (calls ++ [call]) = urlsOf calls ++ [call.1.url] := List.map_append
    rw [hurls, List.map_append, List.nodup_append] at hcalls
    obtain ⟨hnodup, -, hnew⟩ := hcalls
    obtain ⟨s, hs, h, hlength⟩ := ih hnodup
    have hfresh : p.sha256 call.1.url ∉ (urlsOf calls).map p.sha256 := fun hmem =>
      hnew _ hmem _ (List.mem_singleton.mpr rfl) rfl
    obtain ⟨t, ht, hunread, hkeeps⟩ := h.publish hmax hfresh
    refine ⟨t, ?_, ?_, fun htrims => ?_⟩
    · rw [List.flatMap_append, run_append, hs, List.flatMap_singleton]
      exact ht
    · rw [hurls]
      exact hunread
    · have hall := hlength fun x hx => htrims x (List.mem_append_left _ hx)
      have hone := htrims call (List.mem_append_right _ (List.mem_singleton.mpr rfl))
      simpa [urlsOf] using hkeeps hone (by simpa [urlsOf] using hall)

/-- What was published is lost exactly when its entry has been trimmed. -/
theorem Unread.lostForGood_iff (h : Unread p urls s) {i : Nat} {url : Str}
    (hi : urls[i]? = some url) : LostForGood p s url ↔ i < s.first := by
  have hadded : (s.added.map Prod.fst)[i]? = some (p.sha256 url) := by
    rw [h.added, List.getElem?_map, hi]
    rfl
  constructor
  · intro hlost
    by_contra hnot
    rw [List.getElem?_map] at hadded
    obtain ⟨⟨hash, payload⟩, hentry, hhash⟩ := Option.map_eq_some_iff.mp hadded
    obtain rfl : hash = p.sha256 url := hhash
    refine ((hlost [] s rfl).2 i payload hentry).1 ⟨?_, Or.inl ?_⟩
    · rw [h.kept.entry_eq (Nat.not_lt.mp hnot), State.payload, hentry]
      rfl
    · rw [h.delivered]
      exact Nat.zero_le i
  · intro hgone es t ht
    have hlost : Lost p (p.sha256 url) i s := by
      refine ⟨h.kept, hadded, hgone, fun c m hm => ?_, fun m hm => ?_⟩
      · rw [h.batches] at hm
        cases hm
      · rw [h.acked] at hm
        cases hm
    have hafter := hlost.run ht
    refine ⟨?_, fun j payload hj => hafter.unread hj⟩
    rw [hafter.kept.seen]
    exact List.mem_of_getElem? hafter.added

theorem Unread.length_added (h : Unread p urls s) : s.added.length = urls.length := by
  rw [← List.length_map (f := Prod.fst), h.added, List.length_map]

/-- Whatever a configuration file says, the stream has a limit. When articles are published
before a consumer reads, those are lost for good whose entries Redis has trimmed, whatever
it trims: the oldest ones, and no more than are above the limit. All that are above it are
lost when each call trims what it may. -/
theorem loaded_loses (sha256 : Str → Str) (yaml : Str → Option Config) (file : Option Str)
    (c : Config) (hload : load yaml file = some c) (calls : List (ArticleRaw × Nat))
    (hcalls : ((urlsOf calls).map sha256).Nodup) :
    0 < (c.producer sha256).maxLen ∧ ∃ s,
      run (step (c.producer sha256)) .initial (calls.flatMap publish) = some s ∧
      (∀ i call, calls[i]? = some call →
        (LostForGood (c.producer sha256) s call.1.url ↔ i < s.first)) ∧
      s.first ≤ calls.length - (c.producer sha256).maxLen ∧
      ((∀ call ∈ calls, 0 < call.2) →
        s.first = calls.length - (c.producer sha256).maxLen) := by
  have hpos := (complete_of_load hload).streamMaxLen
  have hmax : 0 < (c.producer sha256).maxLen := by
    change 0 < c.redis.streamMaxLen.toNat
    omega
  obtain ⟨s, hs, hunread, hlength⟩ := exists_unread (p := c.producer sha256) hmax hcalls
  have hadded : s.added.length = calls.length := by
    rw [hunread.length_added, urlsOf, List.length_map]
  have hfirst : s.first = calls.length - s.redis.entries.length := by
    rw [State.first, hadded]
  refine ⟨hmax, s, hs, fun i call hi => ?_, ?_, fun htrims => ?_⟩
  · apply hunread.lostForGood_iff
    rw [urlsOf, List.getElem?_map, hi]
    rfl
  · by_cases hzero : s.first = 0
    · omega
    · have := (hunread.kept.bounded (Nat.pos_of_ne_zero hzero)).2
      omega
  · rw [hfirst, hlength htrims]
    omega

/-- A file that asks for no limit gets the default one. -/
example : (load (fun _ => some Configured.bareConfig) (some [])).map (fun c =>
    (Configured.bareConfig.redis.streamMaxLen, c.redis.streamMaxLen)) = some (0, 100000) := rfl

/-- A file with a limit of one entry. -/
def shortYaml (_ : Str) : Option Config :=
  some { Configured.bareConfig with redis := ⟨[], [], [], 1⟩ }

/-- An article of DEV.to. -/
def articleAt (url : Str) : ArticleRaw := ⟨url, lit "devto", newYear, url⟩

/-- Three articles, of which the second call trims the first and the third call none. -/
def sampleCalls : List (ArticleRaw × Nat) :=
  [(articleAt (lit "a"), 1), (articleAt (lit "b"), 1), (articleAt (lit "c"), 0)]

theorem loaded_loses_sample : ∃ c, load shortYaml (some []) = some c ∧ ∃ s,
    run (step (c.producer id)) .initial (sampleCalls.flatMap publish) = some s ∧
      LostForGood (c.producer id) s (lit "a") ∧ ¬ LostForGood (c.producer id) s (lit "b") ∧
      ¬ LostForGood (c.producer id) s (lit "c") := by
  obtain ⟨c, hc⟩ : ∃ c, load shortYaml (some []) = some c := ⟨_, rfl⟩
  obtain ⟨-, s, hs, hiff, -⟩ := loaded_loses id shortYaml (some []) c hc sampleCalls (by decide)
  have hview : ((load shortYaml (some [])).bind fun c =>
      (run (step (c.producer id)) .initial (sampleCalls.flatMap publish)).map State.first) =
        some 1 := by decide +kernel
  rw [hc, Option.bind_some, hs] at hview
  have hfirst : s.first = 1 := Option.some.inj hview
  refine ⟨c, hc, s, hs, (hiff 0 _ rfl).mpr ?_, fun hlost => ?_, fun hlost => ?_⟩
  · omega
  · have := (hiff 1 _ rfl).mp hlost
    omega
  · have := (hiff 2 _ rfl).mp hlost
    omega

end WebSpider.Pipeline.Limit
