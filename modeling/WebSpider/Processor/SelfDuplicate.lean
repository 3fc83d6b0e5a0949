import WebSpider.Processor.Table

/-!
# Duplicates are duplicates of stored rows

A message acknowledged as a duplicate should have a row of the table near its
fingerprint. The fingerprints the process remembers and those of the index must
then be fingerprints of stored rows. Two steps of `process_batch` break this:
a fingerprint is remembered before its row is committed, so a retry in the same
process finds it (`retry_loses_article`), and a row skipped because its URL is
stored is indexed all the same. In a run where neither happens the property
holds in every state (`dup_has_row`).
-/

namespace WebSpider.Processor

open Text Json Bits Effects

variable {F : Type} [FloatText F] [DecidableEq F]

/-! ## The condition -/

/-- No URL of the batch clashes with another fingerprint: a message that passes
the gates and is not captured by the index finds its URL neither in the table
nor in the batch with a fingerprint different from its own. -/
def NoUrlClash (cfg : Config) (tk : Toolkit F) (s : State F) (env : Surroundings)
    (messages : List Message) : Prop :=
  ∀ m ∈ messages, ∀ article content url, Passes cfg tk env m article content →
    captured cfg s (fingerprint cfg tk content) = false →
    encodeUrl (urlOf article) = .ok url →
    (∀ row ∈ s.articles, row.urlHash = tk.sha256 url →
      row.contentHash = fingerprint cfg tk content) ∧
    ∀ m' ∈ messages, ∀ article' content' url', Passes cfg tk env m' article' content' →
      captured cfg s (fingerprint cfg tk content') = false →
      encodeUrl (urlOf article') = .ok url' → tk.sha256 url' = tk.sha256 url →
      fingerprint cfg tk content' = fingerprint cfg tk content

/-- The condition on a step: a batch is processed only by a process that holds
no fingerprint of an uncommitted row, and its URLs do not clash. -/
def CleanBatch (cfg : Config) (tk : Toolkit F) (s : State F) (e : Event) : Prop :=
  ∀ env messages, batchOf cfg s e = some (env, messages) →
    s.inFlight = [] ∧ NoUrlClash cfg tk s env messages

/-! ## The invariant -/

/-- A row within the threshold of this fingerprint is stored. -/
def NearRow (cfg : Config) (s : State F) (h : Nat) : Prop :=
  ∃ row ∈ s.articles, hamming h row.contentHash ≤ cfg.simhashHamming

structure Backed (cfg : Config) (s : State F) : Prop where
  seen : ∀ h ∈ s.seenHashes, h ∈ s.inFlight ∨ Stored s h
  index : Sound s (Stored s)
  acked : ∀ i h, (i, Verdict.dup h) ∈ s.acked → NearRow cfg s h

omit [FloatText F] [DecidableEq F] in
theorem Stored.near {cfg : Config} {s : State F} {h : Nat} (hs : Stored s h) :
    NearRow cfg s h := by
  obtain ⟨row, hrow, rfl⟩ := hs
  refine ⟨row, hrow, ?_⟩
  rw [hamming_self]
  exact Nat.zero_le _

omit [FloatText F] [DecidableEq F] in
theorem Sound.mono {s t : State F} {S S' : Nat → Prop} (h : Sound s S)
    (hbuckets : t.buckets = s.buckets) (hS : ∀ k, S k → S' k) : Sound t S' := by
  intro key raw hraw
  rw [hbuckets] at hraw
  obtain ⟨k, hk, heq⟩ := h key raw hraw
  exact ⟨k, hS k hk, heq⟩

omit [FloatText F] [DecidableEq F] in
/-- Judging keeps the invariant: what it remembers is in flight. -/
theorem Backed.judging {cfg : Config} {s t : State F} {hs : List Nat} (h : Backed cfg s)
    (hcorpus : SameCorpus s t) (hflight : t.inFlight = s.inFlight ++ hs)
    (hseen : ∀ k ∈ t.seenHashes, k ∈ s.seenHashes ∨ k ∈ hs) : Backed cfg t := by
  have hstored : ∀ k, Stored s k → Stored t k := by
    intro k hk
    rw [Stored, hcorpus.articles]
    exact hk
  refine ⟨fun k hk => ?_, h.index.mono hcorpus.buckets hstored, fun i k hk => ?_⟩
  · rw [hflight, List.mem_append]
    rcases hseen k hk with hk | hk
    · rcases h.seen k hk with hk | hk
      · exact Or.inl (Or.inl hk)
      · exact Or.inr (hstored k hk)
    · exact Or.inl (Or.inr hk)
  · rw [hcorpus.acked] at hk
    rw [NearRow, hcorpus.articles]
    exact h.acked i k hk

omit [FloatText F] [DecidableEq F] in
theorem Backed.frame {cfg : Config} {s t : State F} (h : Backed cfg s) (hcorpus : SameCorpus s t)
    (hseen : SameSeen s t) : Backed cfg t :=
  h.judging hcorpus (hseen.inFlight.trans (List.append_nil _).symm)
    fun _ hk => Or.inl (hseen.seenHashes ▸ hk)

/-- The invariant after the commit, together with what the rest of the batch needs. -/
structure Committed (cfg : Config) (tally : Tally F) (rows : List (Row F)) (t : State F) :
    Prop where
  backed : Backed cfg t
  rows : ∀ row ∈ rows, Stored t row.contentHash
  outcomes : ∀ o ∈ tally.outcomes, ∀ h, o.2 = .dup h → NearRow cfg t h

omit [FloatText F] in
theorem committed_counters (cfg : Config) (tally : Tally F) (rows : List (Row F)) :
    KeptByCounters (Committed cfg tally rows) :=
  fun _ _ _ h => ⟨⟨h.backed.1, h.backed.2, h.backed.3⟩, h.rows, h.outcomes⟩

omit [FloatText F] [DecidableEq F] in
theorem committed_index {cfg : Config} {tally : Tally F} {rows : List (Row F)} {row : Row F}
    (hrow : row ∈ rows) : KeptByIndex cfg row.contentHash (Committed cfg tally rows) := by
  refine ⟨fun key _ s h => ⟨⟨h.backed.1, fun k raw hraw => ?_, h.backed.3⟩, h.rows, h.outcomes⟩,
    fun _ key s h => ⟨⟨h.backed.1, h.backed.2, h.backed.3⟩, h.rows, h.outcomes⟩⟩
  rcases mem_buckets_sadd.mp hraw with hraw | ⟨-, rfl⟩
  · exact h.backed.index k raw hraw
  · exact ⟨row.contentHash, h.rows row hrow, rfl⟩

/-- Every fingerprint of the batch has a row after the commit: a message that passes the
gates and is not captured by the index has the fingerprint of a stored row, or its URL is
new and comes in the batch with this fingerprint only. -/
def NoGhost (cfg : Config) (tk : Toolkit F) (s : State F) (env : Surroundings)
    (messages : List Message) : Prop :=
  ∀ m ∈ messages, ∀ article content url, Passes cfg tk env m article content →
    captured cfg s (fingerprint cfg tk content) = false →
    encodeUrl (urlOf article) = .ok url →
    Stored s (fingerprint cfg tk content) ∨ (tk.sha256 url ∉ s.articles.map Row.urlHash ∧
      ∀ m' ∈ messages, ∀ article' content' url', Passes cfg tk env m' article' content' →
        captured cfg s (fingerprint cfg tk content') = false →
        encodeUrl (urlOf article') = .ok url' → tk.sha256 url' = tk.sha256 url →
        fingerprint cfg tk content' = fingerprint cfg tk content)

omit [DecidableEq F] in
theorem NoUrlClash.noGhost {cfg : Config} {tk : Toolkit F} {s : State F} {env : Surroundings}
    {messages : List Message} (h : NoUrlClash cfg tk s env messages) :
    NoGhost cfg tk s env messages := by
  intro m hm article content url hpasses hcaptured hurl
  obtain ⟨htable, hbatch⟩ := h m hm article content url hpasses hcaptured hurl
  by_cases hmem : tk.sha256 url ∈ s.articles.map Row.urlHash
  · obtain ⟨row, hrow, heq⟩ := List.mem_map.mp hmem
    exact .inl ⟨row, hrow, htable row hrow heq⟩
  · exact .inr ⟨hmem, hbatch⟩

omit [DecidableEq F] in
/-- The commit stores a row for every fingerprint of the batch. -/
theorem stored_commit {cfg : Config} {tk : Toolkit F} {env : Surroundings}
    {messages : List Message} {s t : State F} {rows : List (Row F)}
    (hghost : NoGhost cfg tk s env messages) (harticles : t.articles = s.articles)
    (hrows : ∀ row ∈ rows, RowOfMessage cfg tk env messages s row) :
    ∀ row ∈ rows, Stored (t.commit rows) row.contentHash := by
  intro row hrow
  obtain ⟨m, hm, article, content, url, hpasses, hchash, hcaptured, hurl, hhash⟩ := hrows row hrow
  have hcommit : (t.commit rows).articles = rows.foldl insertRow s.articles := by
    rw [State.commit, insertPages_articles, harticles]
  rw [Stored, hcommit, hchash]
  rcases hghost m hm article content url hpasses hcaptured hurl with hold | ⟨hnew, hbatch⟩
  · obtain ⟨r, hr, heq⟩ := hold
    exact ⟨r, mem_insertRows hr, heq⟩
  · -- the row with this URL comes from the batch
    obtain ⟨r, hr, heq⟩ := exists_urlHash_insertRows s.articles hrow
    refine ⟨r, hr, ?_⟩
    rcases insertRows_subset hr with hr | hr
    · refine absurd ?_ hnew
      rw [← hhash, ← heq]
      exact List.mem_map_of_mem hr
    · obtain ⟨m', hm', article', content', url', hpasses', hchash', hcaptured', hurl', hhash'⟩ :=
        hrows r hr
      rw [hchash']
      exact hbatch m' hm' article' content' url' hpasses' hcaptured' hurl'
        (hhash'.symm.trans (heq.trans hhash))

theorem committed_commit {cfg : Config} {tk : Toolkit F} {env : Surroundings}
    {messages : List Message} {s t u : State F} {tally : Tally F} {rows : List (Row F)}
    {extraction : Tally F × Direct F} (hs : Backed cfg s) (hflight : s.inFlight = [])
    (hclash : NoUrlClash cfg tk s env messages)
    (h : Judges cfg tk env messages s tally rows t extraction u) :
    Committed cfg tally rows (t.commit rows) := by
  have hloop := h.loop
  have hcorpus := h.extracts.corpus.trans hloop.corpus
  have hrows := stored_commit hclash.noGhost hcorpus.articles h.rowOfMessage
  have hgrow : ∀ row ∈ s.articles, row ∈ (t.commit rows).articles := by
    intro row hrow
    simp only [State.commit, insertPages_articles, hcorpus.articles]
    exact mem_insertRows hrow
  have hstored : ∀ k, Stored s k → Stored (t.commit rows) k := by
    rintro k ⟨row, hrow, heq⟩
    exact ⟨row, hgrow row hrow, heq⟩
  have hnear : ∀ k, NearRow cfg s k → NearRow cfg (t.commit rows) k := by
    rintro k ⟨row, hrow, hk⟩
    exact ⟨row, hgrow row hrow, hk⟩
  -- before the call the process remembered fingerprints of stored rows only
  have hold : ∀ k ∈ u.seenHashes, Stored s k := by
    intro k hk
    rw [h.extracts.seen.seenHashes] at hk
    rcases hs.seen k hk with hk | hk
    · rw [hflight] at hk
      cases hk
    · exact hk
  have hnew : ∀ k ∈ rows.map Row.contentHash, Stored (t.commit rows) k := by
    intro k hk
    obtain ⟨row, hrow, rfl⟩ := List.mem_map.mp hk
    exact hrows row hrow
  refine ⟨⟨fun k hk => Or.inr ?_, ?_, fun i k hk => ?_⟩, hrows, fun o ho k hk => ?_⟩
  · rcases hloop.seenHashes k hk with hk | hk
    · exact hstored k (hold k hk)
    · exact hnew k hk
  · exact hs.index.mono hcorpus.buckets hstored
  · refine hnear k (hs.acked i k ?_)
    rw [← hcorpus.acked]
    exact hk
  · rcases hloop.outcomes o ho with ho | ⟨_, ho⟩ | ho | ⟨_, ho⟩ | ⟨k', ho, -, hdup⟩
    · rcases h.extracts.outcomes o ho with ho | ⟨ho, -⟩
      · rw [ho] at hk
        cases hk
      · rw [ho] at hk
        cases hk
    · rw [ho] at hk
      cases hk
    · rw [ho] at hk
      cases hk
    · rw [ho] at hk
      cases hk
    · obtain rfl : k' = k := by
        rw [ho] at hk
        exact Verdict.dup.inj hk
      rcases hdup with hdup | hdup | hdup
      · rw [captured_congr cfg h.extracts.corpus.buckets] at hdup
        obtain ⟨k, hk, hnear'⟩ := captured_sound hs.index hdup
        obtain ⟨row, hrow, rfl⟩ := hk
        exact ⟨row, hgrow row hrow, hnear'⟩
      · exact (hstored _ (hold _ hdup)).near
      · exact (hnew _ hdup).near

/-! ## Runs -/

theorem backed_batch {cfg : Config} {tk : Toolkit F} {env : Surroundings}
    {messages : List Message} {s : State F} (hne : messages ≠ []) (hs : Backed cfg s)
    (hflight : s.inFlight = []) (hclash : NoUrlClash cfg tk s env messages) :
    Backed cfg (after (processBatch cfg tk env messages) s) := by
  have hends : Ends (processBatch cfg tk env messages) s (fun _ t => Backed cfg t)
      (fun _ t => Backed cfg t) := by
    refine processBatch_ends (J := Committed cfg) hne ?_ ?_ ?_ ?_ (committed_counters cfg) ?_ ?_
      ?_ ?_
    · exact fun t hframe _ => hs.frame hframe.corpus hframe.seen
    · intro t extraction u x hraises
      obtain ⟨hcorpus, -, hashes, hin, hseen⟩ := hraises.frame
      exact (hs.frame hraises.extracts.corpus hraises.extracts.seen).judging hcorpus hin hseen
    · intro tally rows t extraction u hjudges _
      have hloop := hjudges.loop
      exact (hs.frame hjudges.extracts.corpus hjudges.extracts.seen).judging hloop.corpus
        hloop.inFlight hloop.seenHashes
    · exact fun tally rows t extraction u => committed_commit hs hflight hclash
    · exact fun tally rows row hrow => committed_index hrow
    · exact fun tally rows t ht _ _ => ht.backed
    · exact fun tally rows t ht _ => ht.backed
    · intro tally rows t ht _
      have hacked : Backed cfg (t.xack (messages.map Message.id) tally.outcomes) := by
        refine ⟨ht.backed.seen, ht.backed.index, fun i h hmem => ?_⟩
        rcases List.mem_append.mp hmem with hmem | hmem
        · exact ht.backed.acked i h hmem
        · exact ht.outcomes _ hmem h rfl
      exact ⟨fun _ => hacked, fun _ => ⟨ht.backed, fun _ => hacked⟩⟩
  exact hends.after (fun _ _ h => h) fun _ _ h => h

/-- Every step that meets the condition keeps the invariant. -/
theorem backed_step {cfg : Config} {tk : Toolkit F} {s t : State F} {e : Event}
    (hs : Backed cfg s) (hclean : CleanBatch cfg tk s e) (hstep : step cfg tk s e = some t) :
    Backed cfg t := by
  cases stepped_of_step hstep with
  | publish article => exact ⟨hs.1, hs.2, hs.3⟩
  | deliver n => exact ⟨hs.1, hs.2, hs.3⟩
  | batch env messages u hbatch hne hbefore _ =>
    obtain ⟨hflight, hclash⟩ := hclean env messages hbatch
    rcases hbefore with rfl | ⟨n, rfl⟩
    · exact backed_batch hne hs hflight hclash
    · exact backed_batch hne ⟨hs.1, hs.2, hs.3⟩ hflight hclash
  | warm env =>
    have hends := warmFromDb_ends cfg env
      (I := fun t => Backed cfg t ∧ t.articles = s.articles) ⟨hs, rfl⟩ ?_ ?_
    · exact hends.after (fun _ _ h => h.1) fun _ _ h => h.1
    · intro row hrow
      refine ⟨fun key _ t ht => ⟨⟨ht.1.1, fun k raw hraw => ?_, ht.1.3⟩, ht.2⟩,
        fun _ key t ht => ⟨⟨ht.1.1, ht.1.2, ht.1.3⟩, ht.2⟩⟩
      rcases mem_buckets_sadd.mp hraw with hraw | ⟨-, rfl⟩
      · exact ht.1.index k raw hraw
      · exact ⟨row.contentHash, ⟨row, ht.2 ▸ hrow, rfl⟩, rfl⟩
    · exact fun t ht => ⟨⟨ht.1.1, ht.1.2, ht.1.3⟩, ht.2⟩
  | restart => exact ⟨nofun, hs.2, hs.3⟩
  | expire key =>
    refine ⟨hs.1, fun k raw hraw => ?_, hs.3⟩
    simp only [State.dropKey] at hraw
    split at hraw
    · cases hraw
    · exact hs.index k raw hraw

omit [FloatText F] [DecidableEq F] in
theorem backed_initial (cfg : Config) : Backed cfg (State.initial F) := by
  refine ⟨fun h hh => ?_, fun key raw hraw => ?_, fun i h hh => ?_⟩
  · cases hh
  · cases hraw
  · cases hh

/-! ## The property, and a run that breaks it -/

/-- A code block of 80 characters, and words. -/
def fenced (words : String) : Str :=
  lit "```\n" ++ List.replicate 80 61 ++ lit "\n```\n" ++ lit words

def sampleText : Str := fenced "this is how you read the file"

/-- A text three bits away from the sample. -/
def closeText : Str :=
  fenced "this is how you read the file this is how you read the file by code"

/-- A text 31 bits away from the sample. -/
def otherText : Str := fenced "some other words about a different topic"

def sampleToolkit : Toolkit TextFloat :=
  .ofTables
    [(lit "this", 13156687649317028261), (lit "is", 1940848846483342034),
      (lit "how", 12288314271330698700), (lit "you", 4460011161599768127),
      (lit "read", 4121683039699363535), (lit "the", 6834963867258796590),
      (lit "file", 889130149649393654), (lit "by", 7056482758532754675),
      (lit "code", 1099931928878319422), (lit "some", 4536812653411636418),
      (lit "other", 15443069966186025903), (lit "words", 5268617479337866752),
      (lit "about", 9011444568622900407), (lit "a", 4681665781835383343),
      (lit "different", 13219763878443977485), (lit "topic", 13331102021466717798)]
    [(lit "https://dev.to/a/1", lit "727e190f36b3f6599efe4924ee17e4bbfa10556980d2920d57990cbd831a3390"),
      (lit "https://dev.to/a/2", lit "b4b85c6446d2855614635e11c33a6062b0e28c4bb80ec6353a7a61dd89cc2d35")]
    [(sampleText, lit " \nthis is how you read the file", ⟨lit "0.346", by decide⟩),
      (closeText, lit " \nthis is how you read the file this is how you read the file by code",
        ⟨lit "0.351", by decide⟩),
      (otherText, lit " \nsome other words about a different topic", ⟨lit "0.348", by decide⟩)]

/-- The payload of an article with inline content. -/
def inlineArticle (url : String) (content : Str) : Str :=
  dumps (F := TextFloat) (.obj [(lit "url", .str (lit url)), (lit "content_md", .str content)])

omit [DecidableEq F] in
/-- A batch of one message is clean when the table is empty or the message is captured. -/
theorem cleanBatch_single {cfg : Config} {tk : Toolkit F} {s : State F} {n : Nat}
    {env : Surroundings} {m : Message} (hqueue : s.queue.take n = [m]) (hflight : s.inFlight = [])
    (h : s.articles = [] ∨ ∀ article content, Passes cfg tk env m article content →
      captured cfg s (fingerprint cfg tk content) = true) :
    CleanBatch cfg tk s (.consume n env) := by
  intro env' messages hbatch
  obtain ⟨rfl, rfl⟩ : env = env' ∧ [m] = messages := by
    rw [batchOf, hqueue] at hbatch
    split at hbatch
    · exact Prod.mk.inj (Option.some.inj hbatch)
    · cases hbatch
  refine ⟨hflight, fun m' hm' article content url hpasses hnot hurl => ?_⟩
  obtain rfl := List.mem_singleton.mp hm'
  rcases h with hempty | hcaptured
  · refine ⟨fun row hrow => ?_, fun m'' hm'' article' content' url' hpasses' _ _ _ => ?_⟩
    · rw [hempty] at hrow
      cases hrow
    · obtain rfl := List.mem_singleton.mp hm''
      obtain ⟨⟨fetched, hfetched, hobtained⟩, -⟩ := hpasses
      obtain ⟨⟨fetched', hfetched', hobtained'⟩, -⟩ := hpasses'
      obtain rfl : fetched' = fetched := by
        rw [hfetched] at hfetched'
        exact (Option.some.inj hfetched').symm
      rw [(hobtained.unique hobtained').2]
  · rw [hcaptured article content hpasses] at hnot
    cases hnot

/-- In a run whose batches are clean, every message acknowledged as a duplicate
has a row within the threshold of its fingerprint. -/
theorem dup_has_row (cfg : Config) (tk : Toolkit F) (es : List Event) (t : State F)
    (hclean : Along (step cfg tk) (CleanBatch cfg tk) (State.initial F) es)
    (hrun : run (step cfg tk) (State.initial F) es = some t) (i : MsgId) (h : Nat)
    (hdup : (i, Verdict.dup h) ∈ t.acked) :
    ∃ row ∈ t.articles, hamming h row.contentHash ≤ cfg.simhashHamming :=
  (run_invariant (fun _ _ _ => backed_step) (backed_initial cfg) hclean hrun).acked i h hdup

/-- The same content under two URLs. -/
def mirrorRun : List Event :=
  [.publish (some (inlineArticle "https://dev.to/a/1" sampleText)),
    .consume 1 (.calm (lit "en")),
    .publish (some (inlineArticle "https://dev.to/a/2" sampleText)),
    .consume 1 (.calm (lit "en"))]

theorem dup_has_row_mirror :
    ∃ t, run (step .standard sampleToolkit) (State.initial TextFloat) mirrorRun = some t ∧
      ∃ row ∈ t.articles, hamming 4528336084300408558 row.contentHash ≤ 3 := by
  have hend : (run (step .standard sampleToolkit) (State.initial TextFloat) mirrorRun).map
      (fun t => t.acked) = some [(0, .kept 4528336084300408558), (1, .dup 4528336084300408558)] := by
    decide +kernel
  obtain ⟨t, hrun, hacked⟩ := Option.map_eq_some_iff.mp hend
  refine ⟨t, hrun, dup_has_row .standard sampleToolkit mirrorRun t ?_ hrun 1 _
    (hacked ▸ List.mem_cons_of_mem _ List.mem_cons_self)⟩
  refine ⟨nofun, fun s hs => ?_⟩
  cases hs
  refine ⟨cleanBatch_single rfl rfl (Or.inl rfl), fun s hs => ?_⟩
  obtain rfl := Option.some.inj hs
  refine ⟨nofun, fun s hs => ?_⟩
  cases hs
  refine ⟨cleanBatch_single (m := ⟨1, some (inlineArticle "https://dev.to/a/2" sampleText)⟩)
    (by decide +kernel) (by decide +kernel) (Or.inr ?_), fun _ _ => trivial⟩
  rintro article content ⟨⟨fetched, -, hobtained⟩, -⟩
  have hpayload : payload .standard ⟨1, some (inlineArticle "https://dev.to/a/2" sampleText)⟩ =
      some (Value.obj [(lit "url", .str (lit "https://dev.to/a/2")),
        (lit "content_md", .str sampleText)] : Value TextFloat) := by
    decide +kernel
  obtain ⟨-, rfl⟩ := hobtained.unique (.direct _ hpayload (by decide +kernel))
  decide +kernel

/-- The insert fails, then the same process retries the message. -/
def retryRun : List Event :=
  [.publish (some (inlineArticle "https://dev.to/a/1" sampleText)),
    .consume 1 { Surroundings.calm (lit "en") with
      plan := fun site => if site = .insert then .lost else .returns },
    .recover (.calm (lit "en"))]

/-- After the retry the message is acknowledged as a duplicate and no row is stored. -/
theorem retry_loses_article :
    ¬ ∀ (es : List Event) (t : State TextFloat),
      run (step .standard sampleToolkit) (State.initial TextFloat) es = some t →
      ∀ i h, (i, Verdict.dup h) ∈ t.acked →
        ∃ row ∈ t.articles, hamming h row.contentHash ≤ Config.standard.simhashHamming := by
  intro hstored
  have hend : (run (step .standard sampleToolkit) (State.initial TextFloat) retryRun).map
      (fun t => (t.acked, t.articles.length)) = some ([(0, .dup 4528336084300408558)], 0) := by
    decide +kernel
  obtain ⟨t, hrun, hview⟩ := Option.map_eq_some_iff.mp hend
  obtain ⟨hacked, hrows⟩ := Prod.mk.inj hview
  obtain ⟨row, hrow, -⟩ := hstored retryRun t hrun 0 _ (hacked ▸ List.mem_cons_self)
  rw [List.eq_nil_of_length_eq_zero hrows] at hrow
  cases hrow

end WebSpider.Processor