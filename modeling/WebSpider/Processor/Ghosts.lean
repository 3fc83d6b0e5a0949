import WebSpider.Processor.Separation

/-!
# Soundness of the index

Every fingerprint of the index should be the `content_hash` of a row, or documents are
rejected for being near to content that was never stored. The rows of a batch are
inserted with `ON CONFLICT DO NOTHING` and all of them are indexed, so a document
under a stored URL with other content leaves its fingerprint in the index and no row
(`ghost_indexed`). In a run whose batches make no such fingerprint the index is sound in
every state, whatever calls fail (`index_has_rows`).
-/

namespace WebSpider.Processor

open Text Json Bits Effects

variable {F : Type} [FloatText F] [DecidableEq F]

/-- The condition on a step: a batch makes no fingerprint without a row. -/
def NoGhostBatch (cfg : Config) (tk : Toolkit F) (s : State F) (e : Event) : Prop :=
  ∀ env messages, batchOf cfg s e = some (env, messages) → NoGhost cfg tk s env messages

/-- The index stands for rows of the table. -/
def Grounded (s : State F) : Prop := Sound s (Stored s)

omit [FloatText F] [DecidableEq F] in
theorem Grounded.frame {s t : State F} (h : Grounded s) (hcorpus : SameCorpus s t) :
    Grounded t := by
  apply h.mono hcorpus.buckets
  intro k hk
  rw [Stored, hcorpus.articles]
  exact hk

omit [FloatText F] [DecidableEq F] in
/-- The registration of a stored fingerprint. -/
theorem Grounded.sadd {s : State F} (h : Grounded s) {chash : Nat} (hstored : Stored s chash)
    (key : Str) : Grounded (s.sadd key (decimal chash)) := by
  intro k raw hraw
  rcases mem_buckets_sadd.mp hraw with hraw | ⟨-, rfl⟩
  · exact h k raw hraw
  · exact ⟨chash, hstored, rfl⟩

theorem grounded_batch {cfg : Config} {tk : Toolkit F} {env : Surroundings}
    {messages : List Message} {s : State F} (hne : messages ≠ []) (hs : Grounded s)
    (hghost : NoGhost cfg tk s env messages) :
    Grounded (after (processBatch cfg tk env messages) s) := by
  have hends : Ends (processBatch cfg tk env messages) s (fun _ t => Grounded t)
      (fun _ t => Grounded t) := by
    refine processBatch_ends (J := fun _ rows t => Grounded t ∧
      ∀ row ∈ rows, Stored t row.contentHash) hne ?_ ?_ ?_ ?_ ?_ ?_ ?_ ?_ ?_
    · exact fun t hframe _ => hs.frame hframe.corpus
    · intro t extraction u x hraises
      obtain ⟨hcorpus, -⟩ := hraises.frame
      exact hs.frame (hraises.extracts.corpus.trans hcorpus)
    · intro tally rows t extraction u hjudges _
      exact hs.frame (hjudges.extracts.corpus.trans hjudges.loop.corpus)
    · intro tally rows t extraction u hjudges
      have hcorpus := hjudges.extracts.corpus.trans hjudges.loop.corpus
      have hrows := stored_commit hghost hcorpus.articles hjudges.rowOfMessage
      refine ⟨hs.mono hcorpus.buckets ?_, hrows⟩
      rintro k ⟨row, hrow, heq⟩
      refine ⟨row, ?_, heq⟩
      rw [State.commit, insertPages_articles, hcorpus.articles]
      exact mem_insertRows hrow
    · exact fun tally rows c n t ht => ht
    · intro tally rows row hrow
      exact ⟨fun key _ t ht => ⟨ht.1.sadd (ht.2 row hrow) key, ht.2⟩, fun _ _ t ht => ht⟩
    · exact fun tally rows t ht _ _ => ht.1
    · exact fun tally rows t ht _ => ht.1
    · exact fun tally rows t ht _ => ⟨fun _ => ht.1, fun _ => ⟨ht.1, fun _ => ht.1⟩⟩
  exact hends.after (fun _ _ h => h) fun _ _ h => h

theorem grounded_step {cfg : Config} {tk : Toolkit F} {s t : State F} {e : Event}
    (hs : Grounded s) (hghost : NoGhostBatch cfg tk s e) (hstep : step cfg tk s e = some t) :
    Grounded t := by
  cases stepped_of_step hstep with
  | publish article => exact hs
  | deliver n => exact hs
  | batch env messages u hbatch hne hbefore _ =>
    have hcond := hghost env messages hbatch
    rcases hbefore with rfl | ⟨n, rfl⟩
    · exact grounded_batch hne hs hcond
    · exact grounded_batch hne hs hcond
  | warm env =>
    have hends := warmFromDb_ends cfg env
      (I := fun t => Grounded t ∧ t.articles = s.articles) ⟨hs, rfl⟩ ?_ fun t ht => ht
    · exact hends.after (fun _ _ h => h.1) fun _ _ h => h.1
    · intro row hrow
      refine ⟨fun key _ t ht => ⟨ht.1.sadd ⟨row, ht.2 ▸ hrow, rfl⟩ key, ht.2⟩, fun _ _ t ht => ht⟩
  | restart => exact hs
  | expire key =>
    intro k raw hraw
    simp only [State.dropKey] at hraw
    split at hraw
    · cases hraw
    · exact hs k raw hraw

omit [FloatText F] [DecidableEq F] in
theorem grounded_initial : Grounded (State.initial F) := by
  intro key raw hraw
  cases hraw

/-- In a run whose batches make no fingerprint without a row, every member of every bucket
is the fingerprint of a stored row. -/
theorem index_has_rows (cfg : Config) (tk : Toolkit F) (es : List Event) (t : State F)
    (hghost : Along (step cfg tk) (NoGhostBatch cfg tk) (State.initial F) es)
    (hrun : run (step cfg tk) (State.initial F) es = some t) (key raw : Str)
    (hraw : raw ∈ t.buckets key) : ∃ row ∈ t.articles, raw = decimal row.contentHash := by
  obtain ⟨h, ⟨row, hrow, rfl⟩, heq⟩ :=
    run_invariant (fun _ _ _ => grounded_step) grounded_initial hghost hrun key raw hraw
  exact ⟨row, hrow, heq⟩

omit [DecidableEq F] in
/-- A batch of one message makes none when its URL is not stored. -/
theorem noGhostBatch_single {cfg : Config} {tk : Toolkit F} {s : State F} {n : Nat}
    {env : Surroundings} {m : Message} (hqueue : s.queue.take n = [m]) (article : Article F)
    (hpayload : payload cfg m = some (.obj article))
    (hnew : ∀ url, encodeUrl (urlOf article) = .ok url →
      tk.sha256 url ∉ s.articles.map Row.urlHash) :
    NoGhostBatch cfg tk s (.consume n env) := by
  intro env' messages hbatch
  obtain ⟨rfl, rfl⟩ := batchOf_consume hbatch
  rw [hqueue]
  intro m' hm' article' content url hpasses _ hurl
  obtain rfl := List.mem_singleton.mp hm'
  obtain ⟨⟨fetched, hfetched, hobtained⟩, -⟩ := hpasses
  obtain rfl : article' = article := by
    have hpayload' := hobtained.payload_eq
    rw [hpayload] at hpayload'
    simpa using hpayload'.symm
  refine .inr ⟨hnew url hurl, fun m'' hm'' article'' content'' url'' hpasses'' _ _ _ => ?_⟩
  obtain rfl := List.mem_singleton.mp hm''
  obtain ⟨⟨fetched'', hfetched'', hobtained''⟩, -⟩ := hpasses''
  obtain rfl : fetched'' = fetched := by
    rw [hfetched] at hfetched''
    exact (Option.some.inj hfetched'').symm
  rw [(hobtained.unique hobtained'').2]

theorem index_has_rows_distant :
    ∃ t, run (step .standard sampleToolkit) (State.initial TextFloat) distantRun = some t ∧
      t.articles.length = 2 ∧
      ∀ key, ∀ raw ∈ t.buckets key, ∃ row ∈ t.articles, raw = decimal row.contentHash := by
  have hend : (run (step .standard sampleToolkit) (State.initial TextFloat) distantRun).map
      (fun t => t.articles.length) = some 2 := by
    decide +kernel
  obtain ⟨t, hrun, hlength⟩ := Option.map_eq_some_iff.mp hend
  refine ⟨t, hrun, hlength, index_has_rows .standard sampleToolkit distantRun t ?_ hrun⟩
  refine ⟨nofun, fun s hs => ?_⟩
  cases hs
  refine ⟨noGhostBatch_single rfl
    [(lit "url", .str (lit "https://dev.to/a/1")), (lit "content_md", .str sampleText)]
    (by decide +kernel) (fun _ _ => List.not_mem_nil), fun s hs => ?_⟩
  obtain rfl := Option.some.inj hs
  refine ⟨nofun, fun s hs => ?_⟩
  cases hs
  refine ⟨noGhostBatch_single (m := ⟨1, some (inlineArticle "https://dev.to/a/2" otherText)⟩)
    (by decide +kernel)
    [(lit "url", .str (lit "https://dev.to/a/2")), (lit "content_md", .str otherText)]
    (by decide +kernel) ?_, fun _ _ => trivial⟩
  intro url hurl
  obtain rfl : url = lit "https://dev.to/a/2" := by
    have heq : encodeUrl (urlOf (F := TextFloat) [(lit "url", .str (lit "https://dev.to/a/2")),
        (lit "content_md", .str otherText)]) = .ok (lit "https://dev.to/a/2") := by
      decide +kernel
    rw [heq] at hurl
    exact (Except.ok.inj hurl).symm
  decide +kernel

/-- The same URL with other content, as a replayed message brings it. -/
def replayedRun : List Event :=
  [.publish (some (inlineArticle "https://dev.to/a/1" sampleText)),
    .consume 1 (.calm (lit "en")),
    .publish (some (inlineArticle "https://dev.to/a/1" otherText)),
    .consume 1 (.calm (lit "en"))]

/-- Nothing fails, and the second fingerprint is indexed without a row. -/
theorem ghost_indexed :
    ¬ ∀ (es : List Event) (t : State TextFloat),
      Along (step .standard sampleToolkit) (fun _ e => Answered e) (State.initial TextFloat) es →
      run (step .standard sampleToolkit) (State.initial TextFloat) es = some t →
      ∀ key, ∀ raw ∈ t.buckets key, ∃ row ∈ t.articles, raw = decimal row.contentHash := by
  intro hbacked
  have hend : (run (step .standard sampleToolkit) (State.initial TextFloat) replayedRun).map
      (fun t => (t.articles.map Row.contentHash, t.buckets (bandKey 0 32085))) =
        some ([4528336084300408558], [decimal 9031299658030356007]) := by
    decide +kernel
  obtain ⟨t, hrun, hview⟩ := Option.map_eq_some_iff.mp hend
  obtain ⟨harticles, hbucket⟩ := Prod.mk.inj hview
  have hanswered : Along (step .standard sampleToolkit) (fun _ e => Answered e)
      (State.initial TextFloat) replayedRun :=
    ⟨trivial, fun _ _ => ⟨fun _ => rfl, fun _ _ => ⟨trivial, fun _ _ => ⟨fun _ => rfl,
      fun _ _ => trivial⟩⟩⟩⟩
  obtain ⟨row, hrow, heq⟩ := hbacked replayedRun t hanswered hrun (bandKey 0 32085)
    (decimal 9031299658030356007) (by rw [hbucket]; exact List.mem_cons_self)
  have hhash : row.contentHash ∈ t.articles.map Row.contentHash := List.mem_map_of_mem hrow
  rw [harticles, List.mem_singleton, ← decimal_injective heq] at hhash
  exact absurd hhash (by decide)

end WebSpider.Processor
