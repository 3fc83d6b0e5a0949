import WebSpider.Processor.Ghosts

/-!
# Completeness of the index

Every row should be found under all keys of its fingerprint once `warm_from_db` has
completed and nothing is pending. A row is committed before it is indexed, and a call
that fails between the two leaves an orphan, which its pending message should repair.
The retry in the same process finds the fingerprint in `seen_hashes` and acknowledges
the message without indexing it (`orphan_acknowledged`). In a run whose batches repair
the orphans whose messages they acknowledge the index is complete
(`index_complete`).
-/

namespace WebSpider.Processor

open Text Json Bits Effects

variable {F : Type} [FloatText F] [DecidableEq F]

/-! ## Definitions -/

/-- The fingerprint is a member of all its buckets. -/
def Indexed (cfg : Config) (s : State F) (h : Nat) : Prop :=
  ∀ key ∈ keysOf cfg h, decimal h ∈ s.buckets key

/-- The article of the message has this URL. -/
def Carries (F : Type) [FloatText F] (cfg : Config) (tk : Toolkit F) (m : Message)
    (urlHash : Str) : Prop :=
  ∃ (article : Article F) (url : Str), payload cfg m = some (.obj article) ∧
    encodeUrl (urlOf article) = .ok url ∧ tk.sha256 url = urlHash

/-- A message of the batch is judged as new with this fingerprint: it is a candidate, and
the process does not remember the fingerprint. -/
def Renews (cfg : Config) (tk : Toolkit F) (s : State F) (env : Surroundings)
    (messages : List Message) (chash : Nat) : Prop :=
  chash ∉ s.seenHashes ∧ ∃ m ∈ messages, ∃ article urlHash,
    Candidate cfg tk s env m article chash urlHash

/-- The condition on a step: of an orphan whose message is in a batch that is acknowledged,
another message stays pending, or the batch makes its fingerprint anew. -/
def Repairs (cfg : Config) (tk : Toolkit F) (s : State F) (e : Event) : Prop :=
  ∀ env messages, batchOf cfg s e = some (env, messages) →
    (env.plan .xack).executed = true → s.warmed = true →
    ∀ row ∈ s.articles, ¬ Indexed cfg s row.contentHash →
      (∃ m ∈ messages, Carries F cfg tk m row.urlHash) →
      (∃ m ∈ s.pending, m ∉ messages ∧ Carries F cfg tk m row.urlHash) ∨
        Renews cfg tk s env messages row.contentHash

/-- Once the index is built every orphan has a pending message. -/
structure Repaired (cfg : Config) (tk : Toolkit F) (s : State F) : Prop where
  ids : DistinctIds s
  lasting : ∀ key, s.volatile key = false
  index : s.warmed = true → ∀ row ∈ s.articles, Indexed cfg s row.contentHash ∨
    ∃ m ∈ s.pending, Carries F cfg tk m row.urlHash

/-! ## Building the index -/

omit [FloatText F] [DecidableEq F] in
theorem execAll_append (cmds cmds' : List (State F → State F)) (s : State F) :
    execAll (cmds ++ cmds') s = execAll cmds' (execAll cmds s) := List.foldl_append

omit [FloatText F] [DecidableEq F] in
theorem keptByIndex_warmed (cfg : Config) (chash : Nat) (w : Bool) :
    KeptByIndex cfg chash fun s : State F => s.warmed = w := ⟨fun _ _ _ h => h, fun _ _ _ h => h⟩

/-- The loop of `warm_from_db` after the rows `done`: once the commands in the pipeline are
executed the rows are indexed, and the sentinel is untouched. -/
structure Warming (cfg : Config) (w : Bool) (done : List Nat)
    (acc : List (State F → State F) × Nat) (t : State F) : Prop where
  warmed : t.warmed = w
  cmds : ∀ c ∈ acc.1, ∀ u : State F, u.warmed = w → (c u).warmed = w
  indexed : ∀ h ∈ done, Indexed cfg (execAll acc.1 t) h

omit [FloatText F] [DecidableEq F] in
theorem Warming.add {cfg : Config} {w : Bool} {done : List Nat}
    {acc : List (State F → State F) × Nat} {t : State F} (h : Warming cfg w done acc t)
    {chash : Nat} {keys : List Nat} (count : Nat)
    (hkeys : bucketKeys chash cfg.simhashBits cfg.simhashBands = .ok keys) :
    Warming cfg w (done ++ [chash]) (acc.1 ++ indexCmds cfg chash keys, count) t := by
  refine ⟨h.warmed, fun c hc => ?_, fun k hk key hkey => ?_⟩
  · rcases List.mem_append.mp hc with hc | hc
    · exact h.cmds c hc
    · exact fun u hu => (keptByIndex_warmed cfg chash w).cmd hkeys hc hu
  · rw [execAll_append]
    rcases List.mem_append.mp hk with hk | hk
    · refine execAll_invariant (I := fun u : State F => decimal k ∈ u.buckets key)
        (fun c hc u hu => ?_) (h.indexed k hk key hkey)
      exact (keptByIndex_mem cfg chash key (decimal k)).cmd hkeys hc hu
    · obtain rfl := List.mem_singleton.mp hk
      exact mem_execAll_indexCmds hkeys _ key hkey

omit [FloatText F] [DecidableEq F] in
/-- The commands of the pipeline are executed. -/
theorem Warming.flush {cfg : Config} {w : Bool} {done : List Nat}
    {acc : List (State F → State F) × Nat} {t : State F} (h : Warming cfg w done acc t)
    (count : Nat) (hwarmed : (execAll acc.1 t).warmed = w) :
    Warming cfg w done ([], count) (execAll acc.1 t) :=
  ⟨hwarmed, fun _ hc => absurd hc List.not_mem_nil, h.indexed⟩

omit [FloatText F] [DecidableEq F] in
/-- `warm_from_db` sets the sentinel only when all rows are indexed. -/
theorem warmFromDb_complete (cfg : Config) (env : Surroundings) (s : State F) :
    Ends (warmFromDb cfg env) s
      (fun _ t => t.warmed = true → s.warmed = true ∨
        ∀ row ∈ s.articles, Indexed cfg t row.contentHash)
      (fun _ t => t.warmed = true → s.warmed = true ∨
        ∀ row ∈ s.articles, Indexed cfg t row.contentHash) := by
  have hsame : ∀ t : State F, t.warmed = s.warmed → (t.warmed = true → s.warmed = true ∨
      ∀ row ∈ s.articles, Indexed cfg t row.contentHash) := fun t ht htrue => .inl (ht ▸ htrue)
  refine ends_bind (ends_query (fun _ => ?_) fun _ => .inl)
  split
  · exact ends_pure .inl
  · refine ends_bind (ends_query (fun _ => ?_) fun _ => .inl)
    refine ends_bind (ends_mono (ends_foldlM (Warming cfg s.warmed)
      ⟨rfl, fun _ hc => absurd hc List.not_mem_nil, fun _ hh => absurd hh List.not_mem_nil⟩ ?_) ?_
      fun _ _ he => he)
    · rintro done h rest ⟨cmds, count⟩ t - hloop
      refine ends_bind (ends_lift (fun keys hkeys => ?_) fun _ _ => hsame t hloop.warmed)
      have hadded := hloop.add (count + 1) hkeys
      dsimp only
      split
      · refine ends_bind (ends_pipeline hadded.cmds hadded.warmed (fun _ hu => ?_)
          fun u _ hu => hsame u hu)
        exact ends_pure (hadded.flush (count + 1) hu)
      · exact ends_pure hadded
    · rintro ⟨cmds, count⟩ t hloop
      refine ends_bind (ends_pipeline hloop.cmds hloop.warmed (fun _ _ => ?_)
        fun u _ hu => hsame u hu)
      have hall : ∀ row ∈ s.articles, Indexed cfg (execAll cmds t) row.contentHash :=
        fun row hrow => hloop.indexed _ (List.mem_map_of_mem hrow)
      apply ends_call (fun _ _ => .inr hall) (fun _ _ _ _ => .inr hall)
      intro _ _ _
      exact fun _ => .inr hall

/-! ## What is made anew -/

omit [DecidableEq F] in
/-- A message that passes the gates reaches the loop of phase 3. -/
theorem ExtractedBatch.item {cfg : Config} {tk : Toolkit F} {env : Surroundings}
    {messages : List Message} {s u : State F} {extraction : Tally F × Direct F}
    (h : ExtractedBatch cfg env messages s extraction u) {m : Message} (hm : m ∈ messages)
    {article : Article F} {content : Value F} (hpasses : Passes cfg tk env m article content) :
    (m.id, article, content) ∈ extraction.2 := by
  obtain ⟨⟨fetched, hfetched, hobtained⟩, -⟩ := hpasses
  obtain ⟨fetched', hfetched', -, hall⟩ := h.obtained
  obtain rfl : fetched = fetched' := by
    rw [hfetched] at hfetched'
    exact Option.some.inj hfetched'
  obtain ⟨article', harticle, hdirect, hfetch⟩ := (hall m hm).2 _ hobtained.payload_eq
  cases harticle
  cases hobtained with
  | direct _ hmd => exact hdirect hmd
  | fetched text _ hmd hcontent =>
    obtain ⟨c, hc, htext, -⟩ := hfetch hmd
    rw [hcontent] at hc
    exact htext text (Except.ok.inj hc).symm

/-- After the turns `done` every new fingerprint among them has a row. -/
def Covered (cfg : Config) (tk : Toolkit F) (env : Surroundings) (u : State F)
    (done : List (MsgId × Article F × Value F)) (rows : List (Row F)) : Prop :=
  ∀ x ∈ done, (∃ language score, gate cfg tk env x.1 x.2.2 = .ok (.passed language score)) →
    captured cfg u (fingerprint cfg tk x.2.2) = false → fingerprint cfg tk x.2.2 ∉ u.seenHashes →
    fingerprint cfg tk x.2.2 ∈ rows.map Row.contentHash

omit [FloatText F] in
theorem covered_turn {cfg : Config} {tk : Toolkit F} {env : Surroundings} {u : State F}
    {outcomes : List (MsgId × Verdict)} {done : List (MsgId × Article F × Value F)}
    {x : MsgId × Article F × Value F} {acc acc' : Tally F × List (Row F)} {t t' : State F}
    (hloop : JudgeLoop cfg tk env u outcomes done acc t) (h : Covered cfg tk env u done acc.2)
    (hturn : Judged cfg tk env t acc x acc' t') :
    Covered cfg tk env u (done ++ [x]) acc'.2 := by
  -- The rows so far stay, so only the new item is left.
  have hgrow : (∀ c ∈ acc.2.map Row.contentHash, c ∈ acc'.2.map Row.contentHash) →
      ((∃ language score, gate cfg tk env x.1 x.2.2 = .ok (.passed language score)) →
        captured cfg u (fingerprint cfg tk x.2.2) = false →
        fingerprint cfg tk x.2.2 ∉ u.seenHashes →
        fingerprint cfg tk x.2.2 ∈ acc'.2.map Row.contentHash) →
      Covered cfg tk env u (done ++ [x]) acc'.2 := by
    intro hsub hnew y hy
    rcases List.mem_append.mp hy with hy | hy
    · exact fun hgate hcaptured hseen => hsub _ (h y hy hgate hcaptured hseen)
    · obtain rfl := List.mem_singleton.mp hy
      exact hnew
  cases hturn with
  | rejected reason tally hgate htally =>
    apply hgrow (fun _ hc => hc)
    rintro ⟨language, score, hpassed⟩
    rw [hgate] at hpassed
    cases hpassed
  | lang hgate =>
    apply hgrow (fun _ hc => hc)
    rintro ⟨language, score, hpassed⟩
    rw [hgate] at hpassed
    cases hpassed
  | dup language score chash hgate hbands hchash hdup =>
    apply hgrow (fun _ hc => hc)
    intro _ hcaptured hseen
    have hfp : fingerprint cfg tk x.2.2 = chash := hchash.symm
    rw [hfp] at hcaptured hseen ⊢
    rcases hdup with hdup | hdup
    · rw [captured_congr cfg hloop.corpus.buckets, hcaptured] at hdup
      cases hdup
    · exact (hloop.seenHashes chash hdup).resolve_left hseen
  | kept language score chash url hgate hbands hchash hnot hseen hurl =>
    have hfp : fingerprint cfg tk x.2.2 = chash := hchash.symm
    refine hgrow (fun c hc => ?_) fun _ _ _ => ?_
    · rw [List.map_append]
      exact List.mem_append_left _ hc
    · rw [hfp, List.map_append]
      exact List.mem_append_right _ List.mem_cons_self

theorem Judges.renewed {cfg : Config} {tk : Toolkit F} {env : Surroundings}
    {messages : List Message} {s t u : State F} {tally : Tally F} {rows : List (Row F)}
    {extraction : Tally F × Direct F}
    (h : Judges cfg tk env messages s tally rows t extraction u) {chash : Nat}
    (hrenews : Renews cfg tk s env messages chash) : chash ∈ rows.map Row.contentHash := by
  obtain ⟨hseen, m, hm, article, urlHash, hcand⟩ := hrenews
  obtain ⟨content, hpasses, rfl⟩ := hcand.content
  have hboth := h.turns.invariant (I := fun done acc t =>
    JudgeLoop cfg tk env u extraction.1.outcomes done acc t ∧ Covered cfg tk env u done acc.2)
    ⟨⟨SameCorpus.refl u, ⟨rfl, rfl, rfl⟩, (List.append_nil _).symm, fun _ hk => Or.inl hk,
      ⟨[], List.nil_sublist _, .nil⟩, fun _ ho => Or.inl ho⟩, fun _ hx => absurd hx List.not_mem_nil⟩
    fun _ _ _ _ _ _ _ hdone hturn =>
      ⟨judgeLoop_turn hdone.1 hturn, covered_turn hdone.1 hdone.2 hturn⟩
  refine hboth.2 _ (h.extracts.item hm hpasses) hpasses.2 ?_ ?_
  · rw [captured_congr cfg h.extracts.corpus.buckets]
    exact hcand.notCaptured
  · rw [h.extracts.seen.seenHashes]
    exact hseen

/-! ## One batch -/

omit [DecidableEq F] in
/-- A row of the batch is carried by a message of it. -/
theorem RowOfMessage.carries {cfg : Config} {tk : Toolkit F} {env : Surroundings}
    {messages : List Message} {s : State F} {row : Row F}
    (h : RowOfMessage cfg tk env messages s row) :
    ∃ m ∈ messages, Carries F cfg tk m row.urlHash := by
  obtain ⟨m, hm, article, content, url, ⟨⟨fetched, -, hobtained⟩, -⟩, -, -, hurl, hhash⟩ := h
  exact ⟨m, hm, article, url, hobtained.payload_eq, hurl, hhash.symm⟩

omit [DecidableEq F] in
/-- What happens before the commit keeps the invariant. -/
theorem Repaired.frame {cfg : Config} {tk : Toolkit F} {s t : State F} (h : Repaired cfg tk s)
    (hcorpus : SameCorpus s t) : Repaired cfg tk t := by
  refine ⟨h.ids.congr hcorpus.pending hcorpus.queue hcorpus.nextId,
    fun key => hcorpus.volatile ▸ h.lasting key, ?_⟩
  rw [hcorpus.warmed, hcorpus.articles, hcorpus.pending]
  unfold Indexed
  rw [hcorpus.buckets]
  exact h.index

/-- After the commit of a batch that starts in `s`: the rows of the batch are stored and
the index has lost nothing. -/
structure Filed (cfg : Config) (s : State F) (rows : List (Row F)) (t : State F) : Prop where
  ids : DistinctIds t
  lasting : ∀ key, t.volatile key = false
  warmed : t.warmed = s.warmed
  pending : t.pending = s.pending
  index : ∀ h, Indexed cfg s h → Indexed cfg t h
  origin : ∀ row ∈ t.articles, row ∈ s.articles ∨ row ∈ rows

omit [FloatText F] [DecidableEq F] in
theorem filed_sadd {cfg : Config} {s t : State F} {rows : List (Row F)}
    (h : Filed cfg s rows t) (key member : Str) : Filed cfg s rows (t.sadd key member) :=
  ⟨⟨h.ids.1, h.ids.2⟩, h.lasting, h.warmed, h.pending,
    fun k hk k' hk' => mem_buckets_sadd.mpr (Or.inl (h.index k hk k' hk')), h.origin⟩

omit [DecidableEq F] in
/-- While the messages of the batch are pending they carry its rows. -/
theorem Filed.unacknowledged {cfg : Config} {tk : Toolkit F} {env : Surroundings}
    {messages : List Message} {s t : State F} {rows : List (Row F)} (hs : Repaired cfg tk s)
    (hpending : ∀ m ∈ messages, m ∈ s.pending) (h : Filed cfg s rows t)
    (hrows : ∀ row ∈ rows, RowOfMessage cfg tk env messages s row) : Repaired cfg tk t := by
  refine ⟨h.ids, h.lasting, fun hwarmed row hrow => ?_⟩
  rw [h.pending]
  rcases h.origin row hrow with hold | hnew
  · exact (hs.index (h.warmed ▸ hwarmed) row hold).imp_left (h.index _)
  · obtain ⟨m, hm, hcarries⟩ := (hrows row hnew).carries
    exact .inr ⟨m, hpending m hm, hcarries⟩

omit [DecidableEq F] in
/-- The acknowledgement: the rows of the batch are indexed, and of an orphan that loses its
message here the fingerprint is among them. -/
theorem Filed.acknowledged {cfg : Config} {tk : Toolkit F} {messages : List Message}
    {s t : State F} {rows : List (Row F)} (outcomes : List (MsgId × Verdict))
    (hs : Repaired cfg tk s) (hpending : ∀ m ∈ messages, m ∈ s.pending) (h : Filed cfg s rows t)
    (hindexed : ∀ row ∈ rows, Indexed cfg t row.contentHash)
    (hrepairs : s.warmed = true → ∀ row ∈ s.articles, ¬ Indexed cfg s row.contentHash →
      (∃ m ∈ messages, Carries F cfg tk m row.urlHash) →
      (∃ m ∈ s.pending, m ∉ messages ∧ Carries F cfg tk m row.urlHash) ∨
        row.contentHash ∈ rows.map Row.contentHash) :
    Repaired cfg tk (t.xack (messages.map Message.id) outcomes) := by
  refine ⟨h.ids.xack _ _, h.lasting, fun hwarmed row hrow => ?_⟩
  have hwarmed' : s.warmed = true := h.warmed ▸ hwarmed
  -- A message outside the batch has another id, so it stays.
  have hstays : ∀ m ∈ s.pending, m ∉ messages →
      m ∈ (t.xack (messages.map Message.id) outcomes).pending := by
    intro m hm hnot
    refine List.mem_filter.mpr ⟨h.pending ▸ hm, decide_eq_true ?_⟩
    intro hid
    obtain ⟨m', hm', heq⟩ := List.mem_map.mp hid
    have hnodup : (s.pending.map Message.id).Nodup := by
      have hall := hs.ids.nodup
      rw [List.map_append] at hall
      exact hall.of_append_left
    obtain rfl := List.inj_on_of_nodup_map hnodup (hpending m' hm') hm heq
    exact hnot hm'
  rcases h.origin row hrow with hold | hnew
  · by_cases hin : Indexed cfg s row.contentHash
    · exact .inl (h.index _ hin)
    · obtain ⟨m, hm, hcarries⟩ := (hs.index hwarmed' row hold).resolve_left hin
      by_cases hbatch : m ∈ messages
      · rcases hrepairs hwarmed' row hold hin ⟨m, hbatch, hcarries⟩ with
          ⟨m', hm', hnot, hcarries'⟩ | hrow'
        · exact .inr ⟨m', hstays m' hm' hnot, hcarries'⟩
        · obtain ⟨row', hmem, heq⟩ := List.mem_map.mp hrow'
          exact .inl (heq ▸ hindexed row' hmem)
      · exact .inr ⟨m, hstays m hm hbatch, hcarries⟩
  · exact .inl (hindexed row hnew)

theorem filed_commit {cfg : Config} {tk : Toolkit F} {env : Surroundings}
    {messages : List Message} {s t u : State F} {tally : Tally F} {rows : List (Row F)}
    {extraction : Tally F × Direct F} (hs : Repaired cfg tk s)
    (h : Judges cfg tk env messages s tally rows t extraction u) :
    Filed cfg s rows (t.commit rows) := by
  have hcorpus : SameCorpus s t := h.extracts.corpus.trans h.loop.corpus
  refine ⟨hs.ids.congr hcorpus.pending hcorpus.queue hcorpus.nextId, ?_, hcorpus.warmed,
    hcorpus.pending, ?_, ?_⟩
  · exact fun key => hcorpus.volatile ▸ hs.lasting key
  · exact fun k hk key hkey => hcorpus.buckets ▸ hk key hkey
  · intro row hrow
    rw [State.commit, insertPages_articles, hcorpus.articles] at hrow
    exact insertRows_subset hrow

theorem repaired_batch {cfg : Config} {tk : Toolkit F} {env : Surroundings}
    {messages : List Message} {s : State F} (httl : cfg.neardupTtl = 0) (hne : messages ≠ [])
    (hs : Repaired cfg tk s) (hpending : ∀ m ∈ messages, m ∈ s.pending)
    (hrepairs : (env.plan .xack).executed = true → s.warmed = true →
      ∀ row ∈ s.articles, ¬ Indexed cfg s row.contentHash →
      (∃ m ∈ messages, Carries F cfg tk m row.urlHash) →
      (∃ m ∈ s.pending, m ∉ messages ∧ Carries F cfg tk m row.urlHash) ∨
        Renews cfg tk s env messages row.contentHash) :
    Repaired cfg tk (after (processBatch cfg tk env messages) s) := by
  have hends : Ends (processBatch cfg tk env messages) s (fun _ t => Repaired cfg tk t)
      (fun _ t => Repaired cfg tk t) := by
    refine processBatch_ends (J := fun _ rows t => Filed cfg s rows t ∧
      (∀ row ∈ rows, RowOfMessage cfg tk env messages s row) ∧
      ∀ chash, Renews cfg tk s env messages chash → chash ∈ rows.map Row.contentHash)
      hne ?_ ?_ ?_ ?_ ?_ ?_ ?_ ?_ ?_
    · exact fun t hframe _ => hs.frame hframe.corpus
    · intro t extraction u x hraises
      obtain ⟨hcorpus, -⟩ := hraises.frame
      exact hs.frame (hraises.extracts.corpus.trans hcorpus)
    · intro tally rows t extraction u hjudges _
      exact hs.frame (hjudges.extracts.corpus.trans hjudges.loop.corpus)
    · exact fun tally rows t extraction u hjudges =>
        ⟨filed_commit hs hjudges, hjudges.rowOfMessage, fun _ => hjudges.renewed⟩
    · exact fun tally rows c n t ⟨h, hrows⟩ =>
        ⟨⟨⟨h.ids.1, h.ids.2⟩, h.lasting, h.warmed, h.pending, h.index, h.origin⟩, hrows⟩
    · refine fun tally rows row _ =>
        ⟨fun key _ t h => ⟨filed_sadd h.1 key _, h.2⟩, fun hpos => ?_⟩
      omega
    · exact fun tally rows t h _ _ => h.1.unacknowledged hs hpending h.2.1
    · exact fun tally rows t h _ => h.1.unacknowledged hs hpending h.2.1
    · rintro tally rows t ⟨h, hrows, hrenews⟩ hindexed
      have hacked (hdone : (env.plan .xack).executed = true) :
          Repaired cfg tk (t.xack (messages.map Message.id) tally.outcomes) := by
        apply h.acknowledged tally.outcomes hs hpending hindexed
        intro hwarmed row hrow hin hcarried
        exact (hrepairs hdone hwarmed row hrow hin hcarried).imp_right (hrenews _)
      exact ⟨hacked, fun _ => ⟨h.unacknowledged hs hpending hrows, hacked⟩⟩
  exact hends.after (fun _ _ h => h) fun _ _ h => h

/-! ## Runs -/

omit [DecidableEq F] in
theorem Repaired.publish {cfg : Config} {tk : Toolkit F} {s : State F} (h : Repaired cfg tk s)
    (article : Option Str) : Repaired cfg tk (s.publish article) :=
  ⟨h.ids.publish article, h.lasting, h.index⟩

omit [DecidableEq F] in
theorem Repaired.deliver {cfg : Config} {tk : Toolkit F} {s : State F} (h : Repaired cfg tk s)
    (n : Nat) : Repaired cfg tk (s.deliver n) := by
  refine ⟨h.ids.deliver n, h.lasting, fun hwarmed row hrow => ?_⟩
  apply (h.index hwarmed row hrow).imp_right
  rintro ⟨m, hm, hcarries⟩
  exact ⟨m, List.mem_append_left _ hm, hcarries⟩

omit [DecidableEq F] in
/-- A start-up builds the index, or leaves the sentinel as it was. -/
theorem repaired_warm {cfg : Config} {tk : Toolkit F} {env : Surroundings} {s : State F}
    (httl : cfg.neardupTtl = 0) (hs : Repaired cfg tk s) :
    Repaired cfg tk (after (warmFromDb cfg env) s) := by
  have hkept := warmFromDb_ends cfg env (s := s) (I := fun t : State F => DistinctIds t ∧
    (∀ key, t.volatile key = false) ∧ t.articles = s.articles ∧ t.pending = s.pending ∧
    ∀ h, Indexed cfg s h → Indexed cfg t h) ⟨hs.ids, hs.lasting, rfl, rfl, fun _ h => h⟩ ?_
    fun t ht => ⟨⟨ht.1.1, ht.1.2⟩, ht.2⟩
  · have hboth : ∀ t : State F, (DistinctIds t ∧ (∀ key, t.volatile key = false) ∧
        t.articles = s.articles ∧ t.pending = s.pending ∧ ∀ h, Indexed cfg s h → Indexed cfg t h) ∧
        (t.warmed = true → s.warmed = true ∨ ∀ row ∈ s.articles, Indexed cfg t row.contentHash) →
        Repaired cfg tk t := by
      rintro t ⟨⟨hids, hlasting, harticles, hpending, hindexed⟩, hcomplete⟩
      refine ⟨hids, hlasting, fun hwarmed row hrow => ?_⟩
      rw [harticles] at hrow
      rw [hpending]
      rcases hcomplete hwarmed with hold | hall
      · exact (hs.index hold row hrow).imp_left (hindexed _)
      · exact .inl (hall row hrow)
    exact (ends_and hkept (warmFromDb_complete cfg env s)).after (fun _ => hboth) fun _ => hboth
  · refine fun row _ => ⟨fun key _ t ht => ?_, fun hpos => ?_⟩
    · obtain ⟨hids, hlasting, harticles, hpending, hindexed⟩ := ht
      exact ⟨⟨hids.1, hids.2⟩, hlasting, harticles, hpending,
        fun h hh k hk => mem_buckets_sadd.mpr (Or.inl (hindexed h hh k hk))⟩
    · omega

theorem repaired_step {cfg : Config} {tk : Toolkit F} {s t : State F} {e : Event}
    (httl : cfg.neardupTtl = 0) (hs : Repaired cfg tk s) (hrepairs : Repairs cfg tk s e)
    (hstep : step cfg tk s e = some t) : Repaired cfg tk t := by
  cases stepped_of_step hstep with
  | publish article => exact hs.publish article
  | deliver n => exact hs.deliver n
  | batch env messages u hbatch hne hbefore hpending =>
    have hcond := hrepairs env messages hbatch
    rcases hbefore with rfl | ⟨n, rfl⟩
    · exact repaired_batch httl hne hs hpending hcond
    · apply repaired_batch httl hne (hs.deliver n) hpending
      intro hdone hwarmed row hrow hin hcarried
      refine (hcond hdone hwarmed row hrow hin hcarried).imp ?_ ?_
      · rintro ⟨m, hm, hnot, hcarries⟩
        exact ⟨m, List.mem_append_left _ hm, hnot, hcarries⟩
      · rintro ⟨hseen, m, hm, article, urlHash, hcand⟩
        exact ⟨hseen, m, hm, article, urlHash, hcand.content, hcand.notCaptured, hcand.url⟩
  | warm env => exact repaired_warm httl hs
  | restart => exact ⟨⟨hs.ids.1, hs.ids.2⟩, hs.lasting, hs.index⟩
  | expire key hvolatile =>
    rw [hs.lasting key] at hvolatile
    cases hvolatile

omit [DecidableEq F] in
theorem repaired_initial (cfg : Config) (tk : Toolkit F) : Repaired cfg tk (State.initial F) := by
  refine ⟨⟨List.nodup_nil, fun _ hm => absurd hm List.not_mem_nil⟩, fun _ => rfl, fun h => ?_⟩
  cases h

/-- In a run whose batches repair the orphans they acknowledge, once the index is built
and nothing is pending every row is found under all its keys. -/
theorem index_complete (cfg : Config) (tk : Toolkit F) (httl : cfg.neardupTtl = 0)
    (es : List Event) (t : State F)
    (hrepairs : Along (step cfg tk) (Repairs cfg tk) (State.initial F) es)
    (hrun : run (step cfg tk) (State.initial F) es = some t) (hwarmed : t.warmed = true)
    (hpending : t.pending = []) : ∀ row ∈ t.articles, ∀ key ∈ keysOf cfg row.contentHash,
      decimal row.contentHash ∈ t.buckets key := by
  intro row hrow
  have hrepaired := run_invariant (fun _ _ _ => repaired_step httl) (repaired_initial cfg tk)
    hrepairs hrun
  rcases hrepaired.index hwarmed row hrow with hindexed | ⟨m, hm, -⟩
  · exact hindexed
  · rw [hpending] at hm
    cases hm

/-! ## An orphan that is repaired, and one that is not -/

/-- The index cannot be written. -/
def Surroundings.unindexed (language : Str) : Surroundings :=
  { Surroundings.calm language with
    plan := fun site => if site = .index 0 then .lost else .returns }

/-- The process ends after the failure, so that the retry remembers nothing. -/
def restartedRun : List Event :=
  [.warm (.calm (lit "en")), .publish (some (inlineArticle "https://dev.to/a/1" sampleText)),
    .consume 1 (.unindexed (lit "en")), .restart, .recover (.calm (lit "en"))]

theorem index_complete_restarted :
    ∃ t, run (step .standard sampleToolkit) (State.initial TextFloat) restartedRun = some t ∧
      t.articles.length = 1 ∧ ∀ row ∈ t.articles, ∀ key ∈ keysOf .standard row.contentHash,
        decimal row.contentHash ∈ t.buckets key := by
  have hend : (run (step .standard sampleToolkit) (State.initial TextFloat) restartedRun).map
      (fun t => (t.articles.length, t.warmed, t.pending)) = some (1, true, []) := by
    decide +kernel
  obtain ⟨t, hrun, hview⟩ := Option.map_eq_some_iff.mp hend
  obtain ⟨hlength, hrest⟩ := Prod.mk.inj hview
  obtain ⟨hwarmed, hpending⟩ := Prod.mk.inj hrest
  refine ⟨t, hrun, hlength, index_complete .standard sampleToolkit rfl restartedRun t ?_ hrun
    hwarmed hpending⟩
  refine ⟨nofun, fun s hs => ?_⟩
  obtain rfl := Option.some.inj hs
  refine ⟨nofun, fun s hs => ?_⟩
  obtain rfl := Option.some.inj hs
  refine ⟨?_, fun s hs => ?_⟩
  · intro env messages _ _ _ row hrow
    cases hrow
  · refine ⟨nofun, fun u hu => ?_⟩
    refine ⟨?_, fun _ _ => trivial⟩
    obtain rfl := Option.some.inj hu
    -- The message is judged as before, and the new process remembers nothing.
    intro env messages hbatch _ _ row hrow _ _
    have hview : (some s).map (fun s => (s.articles.map Row.contentHash, s.pending,
        captured .standard s 4528336084300408558)) = some ([4528336084300408558],
          [⟨0, some (inlineArticle "https://dev.to/a/1" sampleText)⟩], false) := by
      rw [← hs]
      decide +kernel
    obtain ⟨hhashes, hview⟩ := Prod.mk.inj (Option.some.inj hview)
    obtain ⟨hpending, hcaptured⟩ := Prod.mk.inj hview
    obtain ⟨rfl, rfl⟩ := batchOf_recover hbatch
    have hhash : row.contentHash ∈ s.articles.map Row.contentHash := List.mem_map_of_mem hrow
    rw [hhashes, List.mem_singleton] at hhash
    rw [hhash]
    have hgate : gate .standard sampleToolkit (.calm (lit "en")) 0 (.str sampleText) =
        .ok (.passed (lit "en") ⟨lit "0.346", by decide⟩) := by
      rfl
    refine .inr ⟨List.not_mem_nil, ⟨0, some (inlineArticle "https://dev.to/a/1" sampleText)⟩, ?_,
      [(lit "url", .str (lit "https://dev.to/a/1")), (lit "content_md", .str sampleText)], _,
      ⟨.str sampleText, ⟨⟨_, rfl, .direct _ (by decide +kernel) (by decide +kernel)⟩,
        lit "en", _, hgate⟩, by decide +kernel⟩, hcaptured,
      ⟨lit "https://dev.to/a/1", by decide +kernel, rfl⟩⟩
    change _ ∈ s.pending.take _
    rw [hpending]
    exact List.mem_cons_self

/-- The index fails once and the same process retries. -/
def retriedRun : List Event :=
  [.warm (.calm (lit "en")), .publish (some (inlineArticle "https://dev.to/a/1" sampleText)),
    .consume 1 (.unindexed (lit "en")), .recover (.calm (lit "en"))]

/-- The message of the row is acknowledged and the row is in no bucket. -/
theorem orphan_acknowledged :
    ¬ ∀ (es : List Event) (t : State TextFloat),
      run (step .standard sampleToolkit) (State.initial TextFloat) es = some t →
      t.warmed = true → t.pending = [] →
      ∀ row ∈ t.articles, ∀ key ∈ keysOf .standard row.contentHash,
        decimal row.contentHash ∈ t.buckets key := by
  intro hindexed
  have hend : (run (step .standard sampleToolkit) (State.initial TextFloat) retriedRun).map
      (fun t => (t.warmed, t.pending, t.articles.map Row.contentHash, t.buckets (bandKey 0 16087))) =
        some (true, [], [4528336084300408558], []) := by
    decide +kernel
  obtain ⟨t, hrun, hview⟩ := Option.map_eq_some_iff.mp hend
  obtain ⟨hwarmed, hview⟩ := Prod.mk.inj hview
  obtain ⟨hpending, hview⟩ := Prod.mk.inj hview
  obtain ⟨hhashes, hbucket⟩ := Prod.mk.inj hview
  obtain ⟨row, hrow, hhash⟩ := List.mem_map.mp (hhashes ▸ List.mem_cons_self)
  have hmem := hindexed retriedRun t hrun hwarmed hpending row hrow (bandKey 0 16087) (by
    rw [hhash]
    decide +kernel)
  rw [hbucket] at hmem
  cases hmem

end WebSpider.Processor
