import WebSpider.Processor.System

/-!
# Messages that cannot be consumed

When nothing fails, a batch ends with the acknowledgement of all its messages,
provided none of them makes the code itself raise. `Digestible` says which
messages do not: their payload decodes to a dictionary or is skipped, its
inline content is a string, and the values used as dictionary keys or encoded
are of the right type. One message that is not digestible can raise in every
batch it is part of (`consumes_iff`), and then it is never acknowledged.
-/

namespace WebSpider.Processor

open Text Json Bits Effects

variable {F : Type} [FloatText F] [DecidableEq F]

/-! ## Definitions -/

/-- Redis and Postgres answer every call, `fetch_many` returns, and neither
extraction nor language detection raises. -/
structure Healthy (env : Surroundings) : Prop where
  plan : ∀ site, env.plan site = .returns
  fetched : env.fetched ≠ none
  extract : ∀ html, env.extract html ≠ none
  detect : ∀ i text, env.detect i text ≠ .raises

/-- An article can be judged with this text, whatever the language of the text. -/
structure DigestibleText (cfg : Config) (tk : Toolkit F) (article : Article F) (text : Str) :
    Prop where
  rejected : (tk.assess text).1 = false → hashable (sourceOf article) = true
  kept : (tk.assess text).1 = true → cfg.langKeep ≠ [] →
    BandsDivide cfg ∧ (∃ url, encodeUrl (urlOf article) = .ok url) ∧
      hashable (sourceOf article) = true

/-- An article can be judged with its inline content, or else with the outcome
of the fetch, whatever that is. -/
structure DigestibleArticle (cfg : Config) (tk : Toolkit F) (article : Article F) : Prop where
  inline : truthy (contentMd article) = true → ∃ text, contentMd article = .str text ∧
    DigestibleText cfg tk article text
  fetched : truthy (contentMd article) = false → hashable (urlOf article) = true ∧
    hashable (sourceOf article) = true ∧ ∀ url, urlOf article = .str url →
      ∀ text, text ≠ [] → DigestibleText cfg tk article text

def Digestible (cfg : Config) (tk : Toolkit F) (m : Message) : Prop :=
  Parses F cfg m ∧ ∀ v, payload cfg m = some v →
    ∃ article, v = .obj article ∧ DigestibleArticle cfg tk article

/-- Every batch of these messages returns and acknowledges its messages, from any
state, and when they are the pending ones `recover_pending` ends with none left. -/
def Consumes (cfg : Config) (tk : Toolkit F) (messages : List Message) : Prop :=
  (∀ (s : State F) (env : Surroundings) (batch : List Message), Healthy env → batch ≠ [] →
    (∀ m ∈ batch, m ∈ messages) → ∃ t, Returns (processBatch cfg tk env batch) s () t ∧
      t.pending = s.pending.filter fun m => decide (m.id ∉ batch.map Message.id)) ∧
  ∀ (s : State F) (envs : List Surroundings), s.pending = messages →
    (∀ env ∈ envs, Healthy env) → messages.length < envs.length →
    ∃ t, Returns (recoverPending cfg tk envs) s true t ∧ t.pending = []

/-! ## Digestible messages are consumed -/

omit [FloatText F] [DecidableEq F] in
/-- Only a fetched string has a text. -/
theorem fetchContent_text {env : Surroundings} {fetched : Fetched} {url : Value F} {text : Str}
    (h : fetchContent env fetched url = .ok (.text text)) :
    (∃ u, url = .str u) ∧ text ≠ [] := by
  unfold fetchContent at h
  split at h
  · rename_i u
    refine ⟨⟨u, rfl⟩, ?_⟩
    split at h
    · cases h
    · unfold extractContent at h
      split at h
      · cases h
      · cases h
      · split at h
        · cases h
        · cases h
        · cases h
        · rename_i hne _
          cases h
          exact hne
  · split at h
    · cases h
    · cases h

omit [FloatText F] [DecidableEq F] in
theorem fetchContent_error {env : Surroundings} (henv : Healthy env) {fetched : Fetched}
    {url : Value F} {e : PyExn} (h : fetchContent env fetched url = .error e) :
    hashable url = false := by
  unfold fetchContent at h
  split at h
  · split at h
    · cases h
    · unfold extractContent at h
      split at h
      · cases h
      · cases h
      · split at h
        · rename_i hraises
          exact (henv.extract _ hraises).elim
        · cases h
        · cases h
        · cases h
  · split at h
    · cases h
    · rename_i hnot
      exact Bool.eq_false_iff.mpr hnot

omit [FloatText F] [DecidableEq F] in
theorem gate_error {cfg : Config} {tk : Toolkit F} {env : Surroundings} (henv : Healthy env)
    {i : MsgId} {text : Str} {e : PyExn} : gate cfg tk env i (.str text) ≠ .error e := by
  intro h
  unfold gate at h
  simp only at h
  split at h
  · cases h
  · split at h
    · rename_i hlang
      unfold detectLang at hlang
      split at hlang
      · cases hlang
      · cases hlang
      · rename_i hraises
        exact henv.detect _ _ hraises
    · split at h
      · cases h
      · cases h

omit [FloatText F] [DecidableEq F] in
theorem gate_rejected {cfg : Config} {tk : Toolkit F} {env : Surroundings} {i : MsgId}
    {text reason : Str} (h : gate cfg tk env i (.str text) = .ok (.rejected reason)) :
    (tk.assess text).1 = false := by
  unfold gate at h
  simp only at h
  split at h
  · rename_i hassess
    rw [hassess]
  · split at h
    · cases h
    · split at h
      · cases h
      · cases h

omit [FloatText F] [DecidableEq F] in
theorem gate_passed {cfg : Config} {tk : Toolkit F} {env : Surroundings} {i : MsgId}
    {text language : Str} {score : F}
    (h : gate cfg tk env i (.str text) = .ok (.passed language score)) :
    (tk.assess text).1 = true ∧ cfg.langKeep ≠ [] := by
  unfold gate at h
  simp only at h
  split at h
  · cases h
  · rename_i hassess
    split at h
    · cases h
    · split at h
      · rename_i hmem
        exact ⟨by rw [hassess], List.ne_nil_of_mem hmem⟩
      · cases h

omit [DecidableEq F] in
/-- What is judged for a digestible message is a text its article can be judged with. -/
theorem Obtained.digestible {cfg : Config} {tk : Toolkit F} {env : Surroundings}
    {fetched : Fetched} {m : Message} {article : Article F} {content : Value F}
    (h : Obtained cfg env fetched m article content) (hm : Digestible cfg tk m) :
    ∃ text, content = .str text ∧ DigestibleText cfg tk article text := by
  cases h with
  | direct hpayload hmd =>
    obtain ⟨_, heq, harticle⟩ := hm.2 _ hpayload
    obtain rfl := Value.obj.inj heq
    exact harticle.inline hmd
  | fetched text hpayload hmd hcontent =>
    obtain ⟨_, heq, harticle⟩ := hm.2 _ hpayload
    obtain rfl := Value.obj.inj heq
    obtain ⟨⟨url, hurl⟩, hne⟩ := fetchContent_text hcontent
    obtain ⟨-, -, htext⟩ := harticle.fetched hmd
    exact ⟨text, rfl, htext url hurl text hne⟩

omit [DecidableEq F] in
theorem extract_digestible {cfg : Config} {tk : Toolkit F} {env : Surroundings}
    (henv : Healthy env) {messages : List Message} (hdigest : ∀ m ∈ messages, Digestible cfg tk m) :
    ¬ ExtractBatchRaises F cfg env messages := by
  rintro (⟨m, hm, hparses⟩ | ⟨m, hm, v, hpayload, hobj⟩ | hnone |
    ⟨fetched, -, m, hm, article, hpayload, hmd, hraises⟩)
  · exact hparses (hdigest m hm).1
  · obtain ⟨article, harticle, -⟩ := (hdigest m hm).2 v hpayload
    exact hobj article harticle
  · exact henv.fetched hnone
  · obtain ⟨_, heq, harticle⟩ := (hdigest m hm).2 _ hpayload
    cases heq
    obtain ⟨hurl, hsource, -⟩ := harticle.fetched hmd
    rcases hraises with ⟨e, herror⟩ | ⟨-, hnot⟩
    · have hfalse := fetchContent_error henv herror
      rw [hurl] at hfalse
      cases hfalse
    · rw [hsource] at hnot
      cases hnot

/-- A batch of digestible messages acknowledges them all. -/
theorem digest_ends {cfg : Config} {tk : Toolkit F} {env : Surroundings} (henv : Healthy env)
    {messages : List Message} (hne : messages ≠ [])
    (hdigest : ∀ m ∈ messages, Digestible cfg tk m) (s : State F) :
    Ends (processBatch cfg tk env messages) s
      (fun _ t => t.pending = s.pending.filter fun m => decide (m.id ∉ messages.map Message.id))
      (fun _ _ => False) := by
  let J : Tally F → List (Row F) → State F → Prop := fun _ rows t => t.pending = s.pending ∧
    (∀ row ∈ rows, hashable row.sourceType = true) ∧ (rows ≠ [] → BandsDivide cfg)
  have hexecuted (site : Site) : (env.plan site).executed = true := by
    rw [henv.plan site]
    rfl
  have htext (u : State F) (extraction : Tally F × Direct F)
      (hu : ExtractedBatch cfg env messages s extraction u) (x : MsgId × Article F × Value F)
      (hx : x ∈ extraction.2) :
      ∃ text, x.2.2 = .str text ∧ DigestibleText cfg tk x.2.1 text := by
    obtain ⟨fetched, -, hobtained, -⟩ := hu.obtained
    obtain ⟨m, hm, -, hcontent⟩ := hobtained x hx
    exact hcontent.digestible (hdigest m hm)
  refine processBatch_ends (J := J) (E := fun _ => False) hne ?_ ?_ ?_ ?_ ?_ ?_ ?_ ?_ ?_
  · exact fun t _ hraises => extract_digestible henv hdigest hraises
  · intro t extraction u x hraises
    obtain ⟨text, hcontent, hjudge⟩ := htext u extraction hraises.extracts x hraises.item
    obtain ⟨done, rest, acc, v, -, -, hturn⟩ := hraises.turns
    cases hturn with
    | gate e hgate =>
      rw [hcontent] at hgate
      exact gate_error henv hgate
    | source reason hgate hsource =>
      rw [hcontent] at hgate
      rw [hjudge.rejected (gate_rejected hgate)] at hsource
      cases hsource
    | lookup language score hgate hfail =>
      rw [hcontent] at hgate
      obtain ⟨hkeep, hlang⟩ := gate_passed hgate
      rcases hfail with hbands | ⟨band, hband⟩
      · exact hbands (hjudge.kept hkeep hlang).1
      · exact hband (henv.plan _)
    | url language score chash e hgate _ _ _ hurl =>
      rw [hcontent] at hgate
      obtain ⟨hkeep, hlang⟩ := gate_passed hgate
      obtain ⟨-, ⟨url, hok⟩, -⟩ := hjudge.kept hkeep hlang
      rw [hok] at hurl
      cases hurl
  · intro tally rows t extraction u _ hnot
    rw [hexecuted] at hnot
    cases hnot
  · intro tally rows t extraction u hjudges
    obtain ⟨items, hsub, hrows⟩ := hjudges.loop.rows
    have hkept (row : Row F) (hrow : row ∈ rows) :
        hashable row.sourceType = true ∧ BandsDivide cfg := by
      obtain ⟨x, hx, hfrom⟩ := exists_of_forall₂ hrows row hrow
      obtain ⟨text, hcontent, hjudge⟩ := htext u extraction hjudges.extracts x (hsub.subset hx)
      obtain ⟨language, score, hgate⟩ := hfrom.passed
      rw [hcontent] at hgate
      obtain ⟨hkeep, hlang⟩ := gate_passed hgate
      obtain ⟨hbands, -, hsource⟩ := hjudge.kept hkeep hlang
      exact ⟨hfrom.sourceType.trans hsource, hbands⟩
    refine ⟨?_, fun row hrow => (hkept row hrow).1, fun hnil => ?_⟩
    · exact hjudges.loop.corpus.pending.trans hjudges.extracts.corpus.pending
    · obtain ⟨row, hrow⟩ := List.exists_mem_of_ne_nil rows hnil
      exact (hkept row hrow).2
  · exact fun tally rows c n t ht => ht
  · exact fun tally rows row _ => ⟨fun key _ t ht => ht, fun _ key t ht => ht⟩
  · rintro tally rows t ⟨-, hsource, hbands⟩ hrows (hinsert | hcause)
    · exact hinsert (henv.plan _)
    · rcases hcause with hincr | ⟨row, hrow, hnot⟩ | hby | hdivide | ⟨k, hindex⟩
      · exact hincr (henv.plan _)
      · rw [hsource row hrow] at hnot
        cases hnot
      · exact hby (henv.plan _)
      · exact hdivide (hbands hrows)
      · exact hindex (henv.plan _)
  · exact fun tally rows t _ hreject => hreject (henv.plan _)
  · intro tally rows t ht _
    refine ⟨fun _ => ?_, fun hack => (hack (henv.plan _)).elim⟩
    simp only [State.xack, ht.1]

/-- `recover_pending` acknowledges a nonempty part of the pending list in every turn. -/
theorem recover_ends {cfg : Config} {tk : Toolkit F} {envs : List Surroundings}
    (henvs : ∀ env ∈ envs, Healthy env) {s : State F}
    (hdigest : ∀ m ∈ s.pending, Digestible cfg tk m) (hbatch : s.pending ≠ [] → 0 < cfg.batchSize)
    (hlength : s.pending.length < envs.length) :
    Ends (recoverPending cfg tk envs) s (fun ended t => ended = true ∧ t.pending = [])
      (fun _ _ => False) := by
  induction envs generalizing s with
  | nil => exact absurd hlength (Nat.not_lt_zero _)
  | cons env envs ih =>
    have henv := henvs env List.mem_cons_self
    have hfail (site : Site) (h : env.plan site ≠ .returns) : False := h (henv.plan site)
    refine ends_bind (ends_query (fun _ => ?_) (hfail _))
    split
    · rename_i htake
      refine ends_pure ⟨rfl, ?_⟩
      by_contra hpending
      have hpos := hbatch hpending
      rcases List.take_eq_nil_iff.mp htake with hzero | hnil
      · omega
      · exact hpending hnil
    · rename_i hne
      refine ends_bind (ends_query (fun _ => ?_) (hfail _))
      have hmem : ∀ m ∈ s.pending.take cfg.batchSize, Digestible cfg tk m :=
        fun m hm => hdigest m (List.mem_of_mem_take hm)
      refine ends_bind (ends_mono (digest_ends henv hne hmem s) ?_ fun _ _ he => he)
      intro _ t ht
      have hsub : ∀ m ∈ t.pending, m ∈ s.pending := by
        intro m hm
        rw [ht] at hm
        exact (List.mem_filter.mp hm).1
      -- the first pending message is acknowledged
      have hshrinks : t.pending.length < s.pending.length := by
        obtain ⟨m, hm⟩ := List.exists_mem_of_ne_nil _ hne
        rw [ht]
        refine List.length_filter_lt_length_iff_exists.mpr ⟨m, List.mem_of_mem_take hm, ?_⟩
        have hid : m.id ∈ (s.pending.take cfg.batchSize).map Message.id :=
          List.mem_map_of_mem hm
        simpa using hid
      apply ih
      · exact fun env' henv' => henvs env' (List.mem_cons_of_mem _ henv')
      · exact fun m hm => hdigest m (hsub m hm)
      · intro hpending
        apply hbatch
        obtain ⟨m, hm⟩ := List.exists_mem_of_ne_nil _ hpending
        exact List.ne_nil_of_mem (hsub m hm)
      · rw [List.length_cons] at hlength
        omega

/-! ## Consumed messages are digestible -/

/-- Every page is found and has this text; every text is in this language. -/
def Surroundings.paged (language text : Str) : Surroundings where
  plan := fun _ => .returns
  fetched := some ⟨fun _ => some (lit "page"), fun _ => false⟩
  extract := fun _ => some (some text)
  detect := fun _ _ => .language language
  trimmed := 0

theorem healthy_calm (language : Str) : Healthy (.calm language) :=
  ⟨fun _ => rfl, nofun, fun _ => nofun, fun _ _ => nofun⟩

theorem healthy_paged (language text : Str) : Healthy (.paged language text) :=
  ⟨fun _ => rfl, nofun, fun _ => nofun, fun _ _ => nofun⟩

omit [FloatText F] [DecidableEq F] in
theorem hashable_of_fetched {env : Surroundings} {fetched : Fetched} {url : Value F}
    {content : Content} (h : fetchContent env fetched url = .ok content) :
    hashable url = true := by
  unfold fetchContent at h
  split at h
  · rfl
  · split at h
    · assumption
    · cases h

omit [FloatText F] [DecidableEq F] in
theorem fetchContent_paged (language : Str) {text : Str} (htext : text ≠ []) (url : Str) :
    fetchContent (.paged language text) ⟨fun _ => some (lit "page"), fun _ => false⟩
      (.str url : Value F) = .ok (.text text) := by
  obtain ⟨c, cs, rfl⟩ := List.exists_cons_of_ne_nil htext
  rfl

theorem judges_of_returns {cfg : Config} {tk : Toolkit F} {env : Surroundings}
    {messages : List Message} {s t : State F}
    (h : Returns (processBatch cfg tk env messages) s () t) :
    ∃ tally rows v extraction u w, Judges cfg tk env messages s tally rows v extraction u ∧
      Returns (storeRows cfg env rows) v () w := by
  obtain ⟨extraction, u, hextract, hrest⟩ := h.of_bind
  obtain ⟨⟨tally, rows⟩, v, hjudge, hrest⟩ := hrest.of_bind
  obtain ⟨_, w, hstore, -⟩ := hrest.of_bind
  refine ⟨tally, rows, v, extraction, u, w, ⟨?_, ?_⟩, hstore⟩
  · exact (extractBatch_ends cfg tk env messages s).of_returns hextract
  · exact (ends_turns fun x _ acc t => judgeStep_ends cfg tk env acc x t).of_returns hjudge

omit [FloatText F] in
/-- Storing one new row counts its source. -/
theorem hashable_of_stored {cfg : Config} {env : Surroundings} {row : Row F} {s t : State F}
    (hempty : s.articles = [])
    (h : Returns (storeRows cfg env [row]) s () t) : hashable row.sourceType = true := by
  unfold storeRows at h
  rw [if_neg (List.cons_ne_nil _ _)] at h
  obtain ⟨stored, u, hinsert, hrest⟩ := h.of_bind
  obtain ⟨_, v, hcount, -⟩ := hrest.of_bind
  have hends : Ends (insertArticles env [row]) s (fun n _ => n = 1) fun _ _ => True :=
    ends_call (fun _ => by rw [hempty]; rfl)
      (fun _ _ _ => trivial) fun _ _ _ => trivial
  have hstored : stored = 1 := hends.of_returns hinsert
  unfold countStored at hcount
  rw [hstored, if_neg Nat.one_ne_zero] at hcount
  obtain ⟨_, w, -, hcount⟩ := hcount.of_bind
  obtain ⟨bySource, w', hsources, -⟩ := hcount.of_bind
  have hok : countSources [row] = .ok bySource := congrArg Prod.fst hsources
  exact countSources_ok.mp ⟨bySource, hok⟩ row List.mem_cons_self

omit [FloatText F] [DecidableEq F] in
theorem str_of_gate {cfg : Config} {tk : Toolkit F} {env : Surroundings} {i : MsgId}
    {content : Value F} {g : Gate F} (h : gate cfg tk env i content = .ok g) :
    ∃ text, content = .str text := by
  cases content with
  | str text => exact ⟨text, rfl⟩
  | _ => cases h

omit [FloatText F] [DecidableEq F] in
theorem gate_of_reject (cfg : Config) {tk : Toolkit F} (env : Surroundings) (i : MsgId)
    {text : Str} (h : (tk.assess text).1 = false) :
    gate cfg tk env i (.str text) = .ok (.rejected (tk.assess text).2.1) := by
  obtain ⟨reason, score, hassess⟩ : ∃ reason score, tk.assess text = (false, reason, score) :=
    ⟨_, _, Prod.ext h rfl⟩
  simp only [gate, hassess]

omit [FloatText F] [DecidableEq F] in
theorem gate_of_keep {cfg : Config} {tk : Toolkit F} {env : Surroundings} {i : MsgId}
    {text language : Str} (h : (tk.assess text).1 = true)
    (hdetect : env.detect i (probeText tk text) = .language language)
    (hlang : language ∈ cfg.langKeep) :
    gate cfg tk env i (.str text) = .ok (.passed language (tk.assess text).2.2) := by
  obtain ⟨reason, score, hassess⟩ : ∃ reason score, tk.assess text = (true, reason, score) :=
    ⟨_, _, Prod.ext h rfl⟩
  simp only [gate, hassess, detectLang, hdetect, if_pos hlang]

omit [FloatText F] in
theorem Judged.gate_ok {cfg : Config} {tk : Toolkit F} {env : Surroundings} {s t : State F}
    {acc acc' : Tally F × List (Row F)} {x : MsgId × Article F × Value F}
    (h : Judged cfg tk env s acc x acc' t) : ∃ g, gate cfg tk env x.1 x.2.2 = .ok g := by
  cases h with
  | rejected _ _ hgate _ => exact ⟨_, hgate⟩
  | lang hgate => exact ⟨_, hgate⟩
  | dup _ _ _ hgate _ _ _ => exact ⟨_, hgate⟩
  | kept _ _ _ _ hgate _ _ _ _ _ => exact ⟨_, hgate⟩

/-- What a batch of one message shows about the text it judges. -/
theorem digestibleText_of_returns {cfg : Config} {tk : Toolkit F} {env : Surroundings}
    {m : Message} {article : Article F} {content : Value F} {t : State F}
    (hdetect : ∀ text, ∃ language, env.detect m.id text = .language language ∧
      (cfg.langKeep ≠ [] → language ∈ cfg.langKeep))
    (h : Returns (processBatch cfg tk env [m]) (State.initial F) () t)
    (hitem : ∀ extraction u, ExtractedBatch cfg env [m] (State.initial F) extraction u →
      (m.id, article, content) ∈ extraction.2) :
    ∃ text, content = .str text ∧ DigestibleText cfg tk article text := by
  obtain ⟨tally, rows, v, extraction, u, w, hjudges, hstore⟩ := judges_of_returns h
  have hmem := hitem extraction u hjudges.extracts
  -- the item is the only one, so its turn is the whole loop
  have hone : extraction.2 = [(m.id, article, content)] := by
    have hlength := hjudges.extracts.ids.length_le
    rw [List.length_map, List.length_map] at hlength
    obtain ⟨x, hx⟩ := List.length_eq_one_iff.mp
      (le_antisymm hlength (List.length_pos_of_mem hmem))
    rw [hx, List.mem_singleton] at hmem
    rw [hx, hmem]
  have hturn : Judged cfg tk env u (extraction.1, []) (m.id, article, content) (tally, rows) v := by
    have hturns := hjudges.turns
    rw [hone] at hturns
    cases hturns with
    | cons hturn hrest =>
      cases hrest
      exact hturn
  obtain ⟨_, hgate⟩ := hturn.gate_ok
  obtain ⟨text, rfl⟩ := str_of_gate hgate
  refine ⟨text, rfl, ⟨fun hreject => ?_, fun hkeep hlang => ?_⟩⟩
  · have hgate := gate_of_reject cfg env m.id hreject
    cases hturn with
    | rejected reason tally hgate' htally => exact (reject_ok htally).1
    | lang hgate' => cases hgate.symm.trans hgate'
    | dup language score chash hgate' _ _ _ => cases hgate.symm.trans hgate'
    | kept language score chash url hgate' _ _ _ _ _ => cases hgate.symm.trans hgate'
  · -- nothing is indexed or remembered yet
    have hbuckets : u.buckets = fun _ => [] := hjudges.extracts.corpus.buckets
    have hseen : u.seenHashes = [] := hjudges.extracts.seen.seenHashes
    have hempty : u.articles = [] := hjudges.extracts.corpus.articles
    obtain ⟨language, hlanguage, hmem⟩ := hdetect (probeText tk text)
    have hgate := gate_of_keep hkeep hlanguage (hmem hlang)
    cases hturn with
    | rejected reason tally hgate' htally => cases hgate.symm.trans hgate'
    | lang hgate' => cases hgate.symm.trans hgate'
    | dup language score chash _ _ _ hdup =>
      rcases hdup with hdup | hdup
      · obtain ⟨key, -, hany⟩ := List.any_eq_true.mp hdup
        rw [hbuckets] at hany
        cases hany
      · rw [hseen] at hdup
        cases hdup
    | kept language score chash url hgate' hbands hchash hcaptured _ hurl =>
      have hsource := hashable_of_stored (by exact hempty) hstore
      rw [(rowFrom_rowOf hgate' hchash hcaptured hurl).sourceType] at hsource
      exact ⟨hbands, ⟨url, hurl⟩, hsource⟩

theorem digestible_of_consumes {cfg : Config} {tk : Toolkit F} {messages : List Message}
    (h : Consumes cfg tk messages) {m : Message} (hm : m ∈ messages) : Digestible cfg tk m := by
  have halone (env : Surroundings) (henv : Healthy env) :
      ∃ t, Returns (processBatch cfg tk env [m]) (State.initial F) () t := by
    obtain ⟨t, ht, -⟩ := h.1 (State.initial F) env [m] henv (List.cons_ne_nil _ _) fun m' hm' => by
      rwa [List.mem_singleton.mp hm']
    exact ⟨t, ht⟩
  -- a language that is kept when one is
  let language := cfg.langKeep.headD []
  have hlanguage (hlang : cfg.langKeep ≠ []) : language ∈ cfg.langKeep := by
    obtain ⟨l, ls, hls⟩ := List.exists_cons_of_ne_nil hlang
    simp [language, hls]
  obtain ⟨t, ht⟩ := halone _ (healthy_calm language)
  obtain ⟨_, _, _, extraction, u, _, hjudges, -⟩ := judges_of_returns ht
  obtain ⟨fetched, hfetched, -, hall⟩ := hjudges.extracts.obtained
  obtain ⟨hparses, hobj⟩ := hall m List.mem_cons_self
  refine ⟨hparses, fun v hv => ?_⟩
  obtain ⟨article, rfl, -, hsettled⟩ := hobj v hv
  have hcomplete (env : Surroundings) (extraction : Tally F × Direct F) (u : State F)
      (hu : ExtractedBatch cfg env [m] (State.initial F) extraction u) :
      ∃ fetched, env.fetched = some fetched ∧
        (truthy (contentMd article) = true → (m.id, article, contentMd article) ∈ extraction.2) ∧
        (truthy (contentMd article) = false →
          Settled env fetched extraction.2 (m.id, article)) := by
    obtain ⟨fetched, hfetched, -, hall⟩ := hu.obtained
    obtain ⟨article', heq, hin, hout⟩ := (hall m List.mem_cons_self).2 _ hv
    obtain rfl := Value.obj.inj heq
    exact ⟨fetched, hfetched, hin, hout⟩
  refine ⟨article, rfl, ⟨fun hmd => ?_, fun hmd => ?_⟩⟩
  · refine digestibleText_of_returns (fun _ => ⟨language, rfl, hlanguage⟩) ht
      fun extraction u hu => ?_
    obtain ⟨_, -, hin, -⟩ := hcomplete _ extraction u hu
    exact hin hmd
  · obtain ⟨content, hcontent, -, hsource⟩ := hsettled hmd
    cases hfetched
    refine ⟨hashable_of_fetched hcontent, hsource ?_, ?_⟩
    · rintro text rfl
      obtain ⟨⟨url, hurl⟩, -⟩ := fetchContent_text hcontent
      rw [hurl] at hcontent
      cases hcontent
    · intro url hurl text htext
      obtain ⟨t, ht⟩ := halone _ (healthy_paged language text)
      obtain ⟨text', heq, hjudge⟩ := digestibleText_of_returns
        (fun _ => ⟨language, rfl, hlanguage⟩) ht fun extraction u hu =>
          show (m.id, article, .str text) ∈ extraction.2 by
          obtain ⟨fetched, hfetched, -, hout⟩ := hcomplete _ extraction u hu
          obtain ⟨content, hcontent, hitem, -⟩ := hout hmd
          cases hfetched
          rw [hurl, fetchContent_paged language htext url] at hcontent
          exact hitem text (Except.ok.inj hcontent).symm
      obtain rfl := Value.str.inj heq
      exact hjudge

/-! ## The exact condition -/

theorem consumes_of_digestible {cfg : Config} {tk : Toolkit F} {messages : List Message}
    (hbatch : messages ≠ [] → 0 < cfg.batchSize) (hdigest : ∀ m ∈ messages, Digestible cfg tk m) :
    Consumes cfg tk messages := by
  refine ⟨fun s env batch henv hne hsub => ?_, fun s envs hpending henvs hlength => ?_⟩
  · have hends := digest_ends henv hne (fun m hm => hdigest m (hsub m hm)) s
    obtain ⟨_, t, ht, hfilter⟩ := hends.returns
    exact ⟨t, ht, hfilter⟩
  · subst hpending
    obtain ⟨_, t, ht, rfl, hnil⟩ := (recover_ends henvs hdigest hbatch hlength).returns
    exact ⟨t, ht, hnil⟩

/-- Messages are consumed exactly when each of them is digestible. -/
theorem consumes_iff (cfg : Config) (tk : Toolkit F) (messages : List Message) :
    Consumes cfg tk messages ↔
      (messages ≠ [] → 0 < cfg.batchSize) ∧ ∀ m ∈ messages, Digestible cfg tk m := by
  constructor
  · intro h
    refine ⟨fun hne => ?_, fun m hm => digestible_of_consumes h hm⟩
    by_contra hbatch
    obtain ⟨t, ht, hnil⟩ := h.2 { State.initial F with pending := messages }
      (List.replicate (messages.length + 1) (.calm [])) rfl
      (fun env henv => List.eq_of_mem_replicate henv ▸ healthy_calm []) (by simp)
    -- no message is asked for, so the loop ends at once
    have hends : Ends (recoverPending cfg tk (List.replicate (messages.length + 1) (.calm [])))
        { State.initial F with pending := messages } (fun _ t => t.pending = messages)
        fun _ _ => True := by
      rw [List.replicate_succ]
      refine ends_bind (ends_query (fun _ => ?_) fun _ => trivial)
      rw [if_pos (by rw [Nat.eq_zero_of_not_pos hbatch, List.take_zero])]
      exact ends_pure rfl
    exact hne ((hends.of_returns ht).symm.trans hnil)
  · exact fun h => consumes_of_digestible h.1 h.2

/-! ## A message that wedges the consumer -/

/-- The payload `[]` is valid JSON and not a dictionary: its batch raises. -/
theorem list_payload_wedges : ¬ ∀ messages : List Message,
    Consumes Config.standard (Toolkit.ofTables [] [] []) messages := by
  intro hconsumes
  let message : Message := ⟨0, some (lit "[]")⟩
  obtain ⟨t, ht, -⟩ := (hconsumes [message]).1 (State.initial TextFloat) (.calm (lit "en")) [message]
    (healthy_calm _) (List.cons_ne_nil _ _) fun _ hm => hm
  have hraises : (processBatch .standard (.ofTables [] [] []) (.calm (lit "en")) [message]
      (State.initial TextFloat)).1.toOption = none := by
    decide +kernel
  rw [ht] at hraises
  cases hraises

end WebSpider.Processor
