import WebSpider.Processor.SelfDuplicate

/-!
# Stored rows are far apart

Two rows of the table should have fingerprints further apart than the
threshold. Rows of different batches do: the index is exact when the later one
is looked up. Rows of one batch are compared for equality only, since the batch
is indexed at its end, so two near duplicates of one batch are both stored
(`near_rows_stored`). In a run where no batch holds such a pair, and none stops
between its insert and its index, the property holds in every state
(`rows_separated`).
-/

namespace WebSpider.Processor

open Text Json Bits Effects

variable {F : Type} [FloatText F] [DecidableEq F]

/-! ## The condition -/

/-- Redis and Postgres answer every call of the batch. -/
def Answered : Event → Prop
  | .consume _ env | .recover env => ∀ site, env.plan site = .returns
  | _ => True

/-- A message that `process_batch` makes a row from when nothing else of its
batch has the same fingerprint. -/
structure Candidate (cfg : Config) (tk : Toolkit F) (s : State F) (env : Surroundings)
    (m : Message) (article : Article F) (chash : Nat) (urlHash : Str) : Prop where
  content : ∃ content, Passes cfg tk env m article content ∧ chash = fingerprint cfg tk content
  notCaptured : captured cfg s chash = false
  url : ∃ url, encodeUrl (urlOf article) = .ok url ∧ urlHash = tk.sha256 url

/-- The condition on a batch: the sources of its candidates can be counted, and
of two candidates with different new URLs the fingerprints are further apart
than the threshold, or equal and still remembered at the end of the batch. -/
structure Separates (cfg : Config) (tk : Toolkit F) (s : State F) (env : Surroundings)
    (messages : List Message) : Prop where
  sources : ∀ m ∈ messages, ∀ article chash urlHash,
    Candidate cfg tk s env m article chash urlHash → hashable (sourceOf article) = true
  pairs : ∀ m ∈ messages, ∀ m' ∈ messages, m ≠ m' →
    ∀ article chash urlHash article' chash' urlHash',
    Candidate cfg tk s env m article chash urlHash →
    Candidate cfg tk s env m' article' chash' urlHash' → urlHash ≠ urlHash' →
    urlHash ∉ s.articles.map Row.urlHash → urlHash' ∉ s.articles.map Row.urlHash →
    cfg.simhashHamming < hamming chash chash' ∨
      (chash = chash' ∧ messages.length ≤ cfg.seenMaxlen + 1)

/-- The condition on a step. -/
def SeparatesBatch (cfg : Config) (tk : Toolkit F) (s : State F) (e : Event) : Prop :=
  Answered e ∧ ∀ env messages, batchOf cfg s e = some (env, messages) →
    Separates cfg tk s env messages

/-! ## The rows of a batch -/

omit [FloatText F] [DecidableEq F] in
theorem pairwise_of_forall₂ {α β : Type} {R : α → β → Prop} {S : α → α → Prop} {as : List α}
    {bs : List β} (h : List.Forall₂ R as bs) (hS : as.Pairwise S) :
    bs.Pairwise fun b b' => ∃ a ∈ as, ∃ a' ∈ as, S a a' ∧ R a b ∧ R a' b' := by
  induction h with
  | nil => exact .nil
  | @cons a b as bs hab hrest ih =>
    obtain ⟨hhead, htail⟩ := List.pairwise_cons.mp hS
    refine List.pairwise_cons.mpr ⟨fun b' hb' => ?_, (ih htail).imp ?_⟩
    · obtain ⟨a', ha', hR⟩ := exists_of_forall₂ hrest b' hb'
      exact ⟨a, List.mem_cons_self, a', List.mem_cons_of_mem _ ha', hhead a' ha', hab, hR⟩
    · rintro b' b'' ⟨x, hx, x', hx', hrel⟩
      exact ⟨x, List.mem_cons_of_mem _ hx, x', List.mem_cons_of_mem _ hx', hrel⟩

/-- The deque holds at its end the fingerprints of the rows so far, as long as
they fit, and then they differ. -/
structure Remembers (maxlen : Nat) (n : Nat) (rows : List (Row F)) (seen : List Nat) : Prop where
  length : rows.length ≤ n
  differ : n ≤ maxlen + 1 → (rows.map Row.contentHash).Nodup
  suffix : rows.length ≤ maxlen → rows.map Row.contentHash <:+ seen

omit [FloatText F] [DecidableEq F] in
theorem suffix_pushSeen {maxlen chash : Nat} {hashes seen : List Nat} (h : hashes <:+ seen)
    (hlen : hashes.length + 1 ≤ maxlen) : hashes ++ [chash] <:+ pushSeen maxlen seen chash := by
  obtain ⟨before, rfl⟩ := h
  refine ⟨before.drop ((before ++ hashes ++ [chash]).length - maxlen), ?_⟩
  rw [pushSeen, List.append_assoc before, List.drop_append_of_le_length]
  simp only [List.length_append, List.length_cons, List.length_nil]
  omega

omit [FloatText F] in
theorem remembers_turn {cfg : Config} {tk : Toolkit F} {env : Surroundings}
    {done : List (MsgId × Article F × Value F)} {x : MsgId × Article F × Value F}
    {acc acc' : Tally F × List (Row F)} {t t' : State F}
    (h : Remembers cfg.seenMaxlen done.length acc.2 t.seenHashes)
    (hturn : Judged cfg tk env t acc x acc' t') :
    Remembers cfg.seenMaxlen (done ++ [x]).length acc'.2 t'.seenHashes := by
  have hlength : (done ++ [x]).length = done.length + 1 := by simp
  rw [hlength]
  have hsame : Remembers cfg.seenMaxlen (done.length + 1) acc.2 t.seenHashes :=
    ⟨h.length.trans (Nat.le_succ _), fun hn => h.differ (by omega), h.suffix⟩
  cases hturn with
  | rejected _ _ _ _ => exact hsame
  | lang _ => exact hsame
  | dup _ _ _ _ _ _ _ => exact hsame
  | kept language score chash url _ _ _ _ hseen _ =>
    have hrows : (acc.2 ++ [rowOf tk x.2.1 url (contentText x.2.2) language chash score]).map
        Row.contentHash = acc.2.map Row.contentHash ++ [chash] := by
      rw [List.map_append]
      rfl
    refine ⟨?_, fun hn => ?_, fun hfits => ?_⟩
    · simpa using h.length
    · have hsuffix := h.suffix (by have := h.length; omega)
      rw [hrows]
      apply List.Nodup.append (h.differ (by omega)) (List.nodup_singleton _)
      intro k hk hk'
      rw [List.mem_singleton] at hk'
      exact hseen (hk' ▸ hsuffix.subset hk)
    · rw [hrows]
      have hfits' : acc.2.length + 1 ≤ cfg.seenMaxlen := by simpa using hfits
      apply suffix_pushSeen (h.suffix (by omega))
      simpa using hfits'

/-- An item of the loop that ends in a row comes from a candidate. -/
theorem Judges.candidate {cfg : Config} {tk : Toolkit F} {env : Surroundings}
    {messages : List Message} {s t u : State F} {tally : Tally F} {rows : List (Row F)}
    {extraction : Tally F × Direct F}
    (h : Judges cfg tk env messages s tally rows t extraction u)
    {x : MsgId × Article F × Value F} (hx : x ∈ extraction.2) {row : Row F}
    (hfrom : RowFrom cfg tk env u x row) : ∃ m ∈ messages, m.id = x.1 ∧
      Candidate cfg tk s env m x.2.1 row.contentHash row.urlHash := by
  obtain ⟨fetched, hfetched, hobtained, -⟩ := h.extracts.obtained
  obtain ⟨m, hm, hid, hcontent⟩ := hobtained x hx
  obtain ⟨url, hurl, -, hhash⟩ := hfrom.url
  refine ⟨m, hm, hid, ⟨x.2.2, ⟨⟨fetched, hfetched, hcontent⟩, ?_⟩, hfrom.contentHash⟩, ?_,
    ⟨url, hurl, hhash⟩⟩
  · rw [hid]
    exact hfrom.passed
  · rw [← captured_congr cfg h.extracts.corpus.buckets]
    exact hfrom.notCaptured

theorem Judges.row_candidate {cfg : Config} {tk : Toolkit F} {env : Surroundings}
    {messages : List Message} {s t u : State F} {tally : Tally F} {rows : List (Row F)}
    {extraction : Tally F × Direct F}
    (h : Judges cfg tk env messages s tally rows t extraction u) {row : Row F}
    (hrow : row ∈ rows) : ∃ m ∈ messages, ∃ article,
      Candidate cfg tk s env m article row.contentHash row.urlHash ∧
      hashable row.sourceType = hashable (sourceOf article) := by
  obtain ⟨items, hsub, hrows⟩ := h.loop.rows
  obtain ⟨x, hx, hfrom⟩ := exists_of_forall₂ hrows row hrow
  obtain ⟨m, hm, -, hcand⟩ := h.candidate (hsub.subset hx) hfrom
  exact ⟨m, hm, x.2.1, hcand, hfrom.sourceType⟩

/-- Two rows of a batch come from two candidates, and have different
fingerprints when the batch fits the deque. -/
theorem Judges.rows_pairwise {cfg : Config} {tk : Toolkit F} {env : Surroundings}
    {messages : List Message} {s t u : State F} {tally : Tally F} {rows : List (Row F)}
    {extraction : Tally F × Direct F}
    (h : Judges cfg tk env messages s tally rows t extraction u)
    (hids : (messages.map Message.id).Nodup) :
    rows.Pairwise fun r r' => (∃ m ∈ messages, ∃ m' ∈ messages, m ≠ m' ∧
      (∃ article, Candidate cfg tk s env m article r.contentHash r.urlHash) ∧
      ∃ article, Candidate cfg tk s env m' article r'.contentHash r'.urlHash) ∧
      (messages.length ≤ cfg.seenMaxlen + 1 → r.contentHash ≠ r'.contentHash) := by
  obtain ⟨items, hsub, hrows⟩ := h.loop.rows
  have hdistinct : items.Pairwise fun x x' => x.1 ≠ x'.1 := by
    obtain ⟨ids, hperm, hids'⟩ := h.extracts.ids
    have hnodup : (extraction.2.map Prod.fst).Nodup :=
      hperm.nodup_iff.mp (hids.sublist hids')
    exact (List.pairwise_map.mp hnodup).sublist hsub
  have hstart : Remembers cfg.seenMaxlen 0 ([] : List (Row F)) u.seenHashes :=
    ⟨Nat.le_refl 0, fun _ => List.nodup_nil, fun _ => List.nil_suffix⟩
  have hremembers : Remembers cfg.seenMaxlen extraction.2.length rows t.seenHashes :=
    h.turns.invariant (I := fun done acc t =>
      Remembers cfg.seenMaxlen done.length acc.2 t.seenHashes) hstart fun _ _ _ _ _ _ _ hdone hturn => remembers_turn hdone hturn
  have hdiffer : messages.length ≤ cfg.seenMaxlen + 1 →
      rows.Pairwise fun r r' => r.contentHash ≠ r'.contentHash := by
    intro hfits
    have hlength := h.extracts.ids.length_le
    rw [List.length_map, List.length_map] at hlength
    exact List.pairwise_map.mp (hremembers.differ (by omega))
  refine List.Pairwise.and ((pairwise_of_forall₂ hrows hdistinct).imp ?_) ?_
  · rintro r r' ⟨x, hx, x', hx', hne, hfrom, hfrom'⟩
    obtain ⟨m, hm, hid, hcand⟩ := h.candidate (hsub.subset hx) hfrom
    obtain ⟨m', hm', hid', hcand'⟩ := h.candidate (hsub.subset hx') hfrom'
    refine ⟨m, hm, m', hm', ?_, ⟨_, hcand⟩, ⟨_, hcand'⟩⟩
    rintro rfl
    exact hne (hid.symm.trans hid')
  · by_cases hfits : messages.length ≤ cfg.seenMaxlen + 1
    · exact (hdiffer hfits).imp fun hne _ => hne
    · exact List.pairwise_of_forall fun _ _ hfits' => (hfits hfits').elim

/-! ## The invariant -/

/-- The rows are further apart than the threshold. -/
def Apart (cfg : Config) (rows : List (Row F)) : Prop :=
  rows.Pairwise fun r r' => cfg.simhashHamming < hamming r.contentHash r'.contentHash

/-- The ids of the messages differ, those to come included. -/
structure DistinctIds (s : State F) : Prop where
  nodup : ((s.pending ++ s.queue).map Message.id).Nodup
  bound : ∀ m ∈ s.pending ++ s.queue, m.id < s.nextId

structure Separated (cfg : Config) (s : State F) : Prop where
  ids : DistinctIds s
  lasting : ∀ key, s.volatile key = false
  hashes : ∀ row ∈ s.articles, row.contentHash < 2 ^ cfg.simhashBits
  index : Complete cfg s (Stored s)
  apart : Apart cfg s.articles

omit [FloatText F] [DecidableEq F] in
theorem DistinctIds.congr {s t : State F} (h : DistinctIds s) (hpending : t.pending = s.pending)
    (hqueue : t.queue = s.queue) (hnext : t.nextId = s.nextId) : DistinctIds t := by
  obtain ⟨hnodup, hbound⟩ := h
  rw [← hpending, ← hqueue] at hnodup hbound
  rw [← hnext] at hbound
  exact ⟨hnodup, hbound⟩

omit [FloatText F] [DecidableEq F] in
theorem DistinctIds.publish {s : State F} (h : DistinctIds s) (article : Option Str) :
    DistinctIds (s.publish article) := by
  constructor
  · rw [State.publish, ← List.append_assoc, List.map_append]
    apply List.Nodup.append h.nodup (List.nodup_singleton _)
    intro i hi hi'
    obtain ⟨m, hm, rfl⟩ := List.mem_map.mp hi
    have hid : m.id = s.nextId := List.mem_singleton.mp hi'
    exact Nat.lt_irrefl _ (hid ▸ h.bound m hm)
  · intro m hm
    rw [State.publish, ← List.append_assoc, List.mem_append, List.mem_singleton] at hm
    rcases hm with hm | rfl
    · exact (h.bound m hm).trans (Nat.lt_succ_self _)
    · exact Nat.lt_succ_self _

omit [FloatText F] [DecidableEq F] in
theorem DistinctIds.deliver {s : State F} (h : DistinctIds s) (n : Nat) :
    DistinctIds (s.deliver n) := by
  have hsame : (s.deliver n).pending ++ (s.deliver n).queue = s.pending ++ s.queue := by
    rw [State.deliver, List.append_assoc, List.take_append_drop]
  constructor
  · rw [hsame]
    exact h.nodup
  · rw [hsame]
    exact h.bound

omit [FloatText F] [DecidableEq F] in
theorem DistinctIds.xack {s : State F} (h : DistinctIds s) (ids : List MsgId)
    (outcomes : List (MsgId × Verdict)) : DistinctIds (s.xack ids outcomes) := by
  have hsub : ((s.xack ids outcomes).pending ++ s.queue).Sublist (s.pending ++ s.queue) :=
    List.filter_sublist.append (List.Sublist.refl _)
  exact ⟨h.nodup.sublist (hsub.map _), fun m hm => h.bound m (hsub.subset hm)⟩

omit [FloatText F] [DecidableEq F] in
/-- What happens before the commit keeps the invariant. -/
theorem Separated.frame {cfg : Config} {s t : State F} (h : Separated cfg s)
    (hcorpus : SameCorpus s t) : Separated cfg t := by
  have hstored : Stored t = Stored s := by
    funext k
    rw [Stored, hcorpus.articles]
    rfl
  refine ⟨h.ids.congr hcorpus.pending hcorpus.queue hcorpus.nextId, ?_, ?_, ?_, ?_⟩
  · exact fun key => hcorpus.volatile ▸ h.lasting key
  · exact fun row hrow => h.hashes row (hcorpus.articles ▸ hrow)
  · rw [hstored]
    exact fun k hk key hkey => hcorpus.buckets ▸ h.index k hk key hkey
  · rw [hcorpus.articles]
    exact h.apart

/-! ## One batch -/

/-- After the commit: the rows are stored and apart, those of the batch are not
all indexed yet. -/
structure Inserted (cfg : Config) (s : State F) (rows : List (Row F)) (t : State F) : Prop where
  ids : DistinctIds t
  lasting : ∀ key, t.volatile key = false
  hashes : ∀ row ∈ t.articles, row.contentHash < 2 ^ cfg.simhashBits
  index : Complete cfg t (Stored s)
  apart : Apart cfg t.articles
  origin : ∀ row ∈ t.articles, row ∈ s.articles ∨ row ∈ rows
  sources : ∀ row ∈ rows, hashable row.sourceType = true

theorem inserted_commit {cfg : Config} {tk : Toolkit F} {env : Surroundings}
    {messages : List Message} {s t u : State F} {tally : Tally F} {rows : List (Row F)}
    {extraction : Tally F × Direct F} (hcfg : BandsDivide cfg)
    (hH : cfg.simhashHamming ≤ cfg.simhashBands - 1) (hs : Separated cfg s)
    (hids : (messages.map Message.id).Nodup) (hsep : Separates cfg tk s env messages)
    (h : Judges cfg tk env messages s tally rows t extraction u) :
    Inserted cfg s rows (t.commit rows) := by
  have hcorpus : SameCorpus s t := h.extracts.corpus.trans h.loop.corpus
  have hfrom := h.rowOfMessage
  have hhash (row : Row F) (hrow : row ∈ rows) : row.contentHash < 2 ^ cfg.simhashBits := by
    obtain ⟨_, _, _, _, _, _, heq, -⟩ := hfrom row hrow
    rw [heq]
    exact simhash_lt tk _ _
  obtain ⟨new, hnew, hsub, hfresh, hdiffer⟩ := insertRows_eq s.articles rows
  have harticles : (t.commit rows).articles = s.articles ++ new := by
    rw [State.commit, insertPages_articles, hcorpus.articles, hnew]
  refine ⟨hs.ids.congr hcorpus.pending hcorpus.queue hcorpus.nextId, ?_, ?_, ?_, ?_, ?_, ?_⟩
  · exact fun key => hcorpus.volatile ▸ hs.lasting key
  · intro row hrow
    rw [harticles, List.mem_append] at hrow
    rcases hrow with hrow | hrow
    · exact hs.hashes row hrow
    · exact hhash row (hsub.subset hrow)
  · exact fun k hk key hkey => hcorpus.buckets ▸ hs.index k hk key hkey
  · rw [harticles]
    refine List.pairwise_append.mpr ⟨hs.apart, ?_, fun r hr r' hr' => ?_⟩
    · -- two rows of the batch are compared by the condition
      have hboth := List.Pairwise.and_mem.mp (((h.rows_pairwise hids).sublist hsub).and hdiffer)
      refine hboth.imp fun {r r'} hrel => ?_
      obtain ⟨hr, hr', ⟨⟨m, hm, m', hm', hne, ⟨article, hcand⟩, ⟨article', hcand'⟩⟩, hnodup⟩,
        hurls⟩ := hrel
      rcases hsep.pairs m hm m' hm' hne article _ _ article' _ _ hcand hcand' hurls (hfresh r hr)
        (hfresh r' hr') with hfar | ⟨hsame, hfits⟩
      · exact hfar
      · exact (hnodup hfits hsame).elim
    · -- a stored row is in the index the new one was looked up in
      by_contra hnear
      obtain ⟨m, hm, article, content, url, hpasses, heq, hnot, -⟩ := hfrom r' (hsub.subset hr')
      have hcaptured : captured cfg s r'.contentHash = true := by
        refine captured_complete hcfg hH hs.index ⟨r, hr, rfl⟩ (hhash r' (hsub.subset hr'))
          (hs.hashes r hr) ?_
        rw [hamming_comm]
        omega
      rw [heq, hnot] at hcaptured
      cases hcaptured
  · intro row hrow
    rw [harticles, List.mem_append] at hrow
    exact hrow.imp_right fun hrow => hsub.subset hrow
  · intro row hrow
    obtain ⟨m, hm, article, hcand, hsource⟩ := h.row_candidate hrow
    exact hsource.trans (hsep.sources m hm article _ _ hcand)

omit [FloatText F] [DecidableEq F] in
theorem inserted_sadd {cfg : Config} {s t : State F} {rows : List (Row F)}
    (h : Inserted cfg s rows t) (key member : Str) : Inserted cfg s rows (t.sadd key member) :=
  ⟨⟨h.ids.1, h.ids.2⟩, h.lasting, h.hashes,
    fun k hk k' hk' => mem_buckets_sadd.mpr (Or.inl (h.index k hk k' hk')), h.apart, h.origin,
    h.sources⟩

theorem separated_batch {cfg : Config} {tk : Toolkit F} {env : Surroundings}
    {messages : List Message} {s : State F} (hcfg : BandsDivide cfg)
    (hH : cfg.simhashHamming ≤ cfg.simhashBands - 1) (httl : cfg.neardupTtl = 0)
    (hne : messages ≠ []) (hs : Separated cfg s) (henv : ∀ site, env.plan site = .returns)
    (hids : (messages.map Message.id).Nodup) (hsep : Separates cfg tk s env messages) :
    Separated cfg (after (processBatch cfg tk env messages) s) := by
  have hends : Ends (processBatch cfg tk env messages) s (fun _ t => Separated cfg t)
      (fun _ t => Separated cfg t) := by
    refine processBatch_ends (J := fun _ rows => Inserted cfg s rows) hne ?_ ?_ ?_ ?_ ?_ ?_ ?_ ?_ ?_
    · exact fun t hframe _ => hs.frame hframe.corpus
    · intro t extraction u x hraises
      obtain ⟨hcorpus, -⟩ := hraises.frame
      exact hs.frame (hraises.extracts.corpus.trans hcorpus)
    · intro tally rows t extraction u hjudges _
      exact hs.frame (hjudges.extracts.corpus.trans hjudges.loop.corpus)
    · exact fun tally rows t extraction u => inserted_commit hcfg hH hs hids hsep
    · exact fun tally rows c n t h =>
        ⟨⟨h.ids.1, h.ids.2⟩, h.lasting, h.hashes, h.index, h.apart, h.origin, h.sources⟩
    · refine fun tally rows row _ => ⟨fun key _ t h => inserted_sadd h key _, fun hpos => ?_⟩
      omega
    · rintro tally rows t h - (hinsert | hcause)
      · exact (hinsert (henv _)).elim
      · rcases hcause with hincr | ⟨row, hrow, hnot⟩ | hby | hdivide | ⟨k, hindex⟩
        · exact (hincr (henv _)).elim
        · rw [h.sources row hrow] at hnot
          cases hnot
        · exact (hby (henv _)).elim
        · exact (hdivide hcfg).elim
        · exact (hindex (henv _)).elim
    · exact fun tally rows t _ hreject => (hreject (henv _)).elim
    · intro tally rows t h hindexed
      refine ⟨fun _ => ⟨h.ids.xack _ _, h.lasting, h.hashes, ?_, h.apart⟩,
        fun hack => (hack (henv _)).elim⟩
      rintro k ⟨row, hrow, rfl⟩
      rcases h.origin row hrow with hold | hnew
      · exact h.index _ ⟨row, hold, rfl⟩
      · exact hindexed row hnew
  exact hends.after (fun _ _ h => h) fun _ _ h => h

/-! ## Runs -/

omit [FloatText F] [DecidableEq F] in
theorem batchOf_ids {cfg : Config} {s : State F} {e : Event} {env : Surroundings}
    {messages : List Message} (hs : DistinctIds s) (h : batchOf cfg s e = some (env, messages)) :
    (messages.map Message.id).Nodup := by
  have hsub : messages.Sublist (s.pending ++ s.queue) := by
    cases e with
    | consume n env' =>
      obtain ⟨-, rfl⟩ := batchOf_consume h
      exact (List.take_sublist _ _).trans (List.sublist_append_right _ _)
    | recover env' =>
      obtain ⟨-, rfl⟩ := batchOf_recover h
      exact (List.take_sublist _ _).trans (List.sublist_append_left _ _)
    | _ => cases h
  exact hs.nodup.sublist (hsub.map _)

omit [DecidableEq F] in
theorem Separates.deliver {cfg : Config} {tk : Toolkit F} {s : State F} {env : Surroundings}
    {messages : List Message} (h : Separates cfg tk s env messages) (n : Nat) :
    Separates cfg tk (s.deliver n) env messages := by
  have hcand {m : Message} {article : Article F} {chash : Nat} {urlHash : Str}
      (hc : Candidate cfg tk (s.deliver n) env m article chash urlHash) :
      Candidate cfg tk s env m article chash urlHash := ⟨hc.content, hc.notCaptured, hc.url⟩
  exact ⟨fun m hm article chash urlHash hc => h.sources m hm article chash urlHash (hcand hc),
    fun m hm m' hm' hne _ _ _ _ _ _ hc hc' =>
      h.pairs m hm m' hm' hne _ _ _ _ _ _ (hcand hc) (hcand hc')⟩

theorem separated_step {cfg : Config} {tk : Toolkit F} (hcfg : BandsDivide cfg)
    (hH : cfg.simhashHamming ≤ cfg.simhashBands - 1) (httl : cfg.neardupTtl = 0) {s t : State F}
    {e : Event} (hs : Separated cfg s) (hsep : SeparatesBatch cfg tk s e)
    (hstep : step cfg tk s e = some t) : Separated cfg t := by
  obtain ⟨hanswered, hbatches⟩ := hsep
  have hdeliver (n : Nat) : Separated cfg (s.deliver n) :=
    ⟨hs.ids.deliver n, hs.lasting, hs.hashes, hs.index, hs.apart⟩
  cases stepped_of_step hstep with
  | publish article => exact ⟨hs.ids.publish article, hs.lasting, hs.hashes, hs.index, hs.apart⟩
  | deliver n => exact hdeliver n
  | batch env messages u hbatch hne hbefore _ =>
    have hids := batchOf_ids hs.ids hbatch
    have hcond := hbatches env messages hbatch
    have henv : ∀ site, env.plan site = .returns := by
      cases e with
      | consume n env' => exact (batchOf_consume hbatch).1 ▸ hanswered
      | recover env' => exact (batchOf_recover hbatch).1 ▸ hanswered
      | _ => cases hbatch
    rcases hbefore with rfl | ⟨n, rfl⟩
    · exact separated_batch hcfg hH httl hne hs henv hids hcond
    · exact separated_batch hcfg hH httl hne (hdeliver n) henv hids (hcond.deliver n)
  | warm env =>
    have hends := warmFromDb_ends cfg env (I := Separated cfg) hs ?_
      fun t ht => ⟨⟨ht.ids.1, ht.ids.2⟩, ht.lasting, ht.hashes, ht.index, ht.apart⟩
    · exact hends.after (fun _ _ h => h) fun _ _ h => h
    · refine fun row _ => ⟨fun key _ t ht => ?_, fun hpos => ?_⟩
      · exact ⟨⟨ht.ids.1, ht.ids.2⟩, ht.lasting, ht.hashes,
          fun k hk k' hk' => mem_buckets_sadd.mpr (Or.inl (ht.index k hk k' hk')), ht.apart⟩
      · omega
  | restart => exact ⟨⟨hs.ids.1, hs.ids.2⟩, hs.lasting, hs.hashes, hs.index, hs.apart⟩
  | expire key hvolatile =>
    rw [hs.lasting key] at hvolatile
    cases hvolatile

omit [FloatText F] [DecidableEq F] in
theorem separated_initial (cfg : Config) : Separated cfg (State.initial F) := by
  refine ⟨⟨List.nodup_nil, fun m hm => ?_⟩, fun _ => rfl, fun row hrow => ?_, ?_, .nil⟩
  · cases hm
  · cases hrow
  · rintro k ⟨row, hrow, -⟩
    cases hrow

/-- In a run whose batches separate their candidates, any two rows of the table
are further apart than the threshold. -/
theorem rows_separated (cfg : Config) (tk : Toolkit F) (hbands : 1 ≤ cfg.simhashBands)
    (hdvd : cfg.simhashBands ∣ cfg.simhashBits) (hH : cfg.simhashHamming ≤ cfg.simhashBands - 1)
    (httl : cfg.neardupTtl = 0) (es : List Event) (t : State F)
    (hsep : Along (step cfg tk) (SeparatesBatch cfg tk) (State.initial F) es)
    (hrun : run (step cfg tk) (State.initial F) es = some t) :
    t.articles.Pairwise fun r r' => cfg.simhashHamming < hamming r.contentHash r'.contentHash := by
  have hcfg : BandsDivide cfg := ⟨by omega, Nat.mod_eq_zero_of_dvd hdvd⟩
  exact (run_invariant (fun _ _ _ => separated_step hcfg hH httl) (separated_initial cfg) hsep
    hrun).apart

/-! ## A run that keeps its rows apart, and one that does not -/

omit [DecidableEq F] in
/-- A batch of one message has no pair. -/
theorem separatesBatch_single {cfg : Config} {tk : Toolkit F} {s : State F} {n : Nat}
    {env : Surroundings} {m : Message} (article : Article F)
    (henv : ∀ site, env.plan site = .returns) (hqueue : s.queue.take n = [m])
    (hpayload : payload cfg m = some (.obj article)) (hsource : hashable (sourceOf article) = true) :
    SeparatesBatch cfg tk s (.consume n env) := by
  refine ⟨henv, fun env' messages hbatch => ?_⟩
  obtain ⟨rfl, hmessages⟩ := batchOf_consume hbatch
  rw [hqueue] at hmessages
  subst hmessages
  constructor
  · intro m' hm' article' chash urlHash hcand
    obtain rfl := List.mem_singleton.mp hm'
    obtain ⟨content, ⟨⟨fetched, -, hobtained⟩, -⟩, -⟩ := hcand.content
    obtain rfl : article' = article := by
      have hpayload' := hobtained.payload_eq
      rw [hpayload] at hpayload'
      simpa using hpayload'.symm
    exact hsource
  · intro m' hm' m'' hm'' hne
    exact (hne ((List.mem_singleton.mp hm').trans (List.mem_singleton.mp hm'').symm)).elim

/-- Two articles far apart, in two batches. -/
def distantRun : List Event :=
  [.publish (some (inlineArticle "https://dev.to/a/1" sampleText)),
    .consume 1 (.calm (lit "en")),
    .publish (some (inlineArticle "https://dev.to/a/2" otherText)),
    .consume 1 (.calm (lit "en"))]

theorem rows_separated_distant :
    ∃ t, run (step .standard sampleToolkit) (State.initial TextFloat) distantRun = some t ∧
      t.articles.length = 2 ∧
      t.articles.Pairwise fun r r' => 3 < hamming r.contentHash r'.contentHash := by
  have hend : (run (step .standard sampleToolkit) (State.initial TextFloat) distantRun).map
      (fun t => t.articles.length) = some 2 := by
    decide +kernel
  obtain ⟨t, hrun, hlength⟩ := Option.map_eq_some_iff.mp hend
  refine ⟨t, hrun, hlength, rows_separated .standard sampleToolkit (by decide) (by decide)
    (by decide) rfl distantRun t ?_ hrun⟩
  have hsource (url : String) (text : Str) : hashable (sourceOf (F := TextFloat)
      [(lit "url", .str (lit url)), (lit "content_md", .str text)]) = true := by
    rfl
  refine ⟨⟨trivial, nofun⟩, fun s hs => ?_⟩
  cases hs
  refine ⟨separatesBatch_single
    [(lit "url", .str (lit "https://dev.to/a/1")), (lit "content_md", .str sampleText)]
    (fun _ => rfl) rfl (by decide +kernel) (hsource _ _), fun s hs => ?_⟩
  obtain rfl := Option.some.inj hs
  refine ⟨⟨trivial, nofun⟩, fun s hs => ?_⟩
  cases hs
  refine ⟨separatesBatch_single (m := ⟨1, some (inlineArticle "https://dev.to/a/2" otherText)⟩)
    [(lit "url", .str (lit "https://dev.to/a/2")), (lit "content_md", .str otherText)]
    (fun _ => rfl) (by decide +kernel) (by decide +kernel) (hsource _ _), fun _ _ => trivial⟩

/-- Two articles three bits apart, in one batch. -/
def closeRun : List Event :=
  [.publish (some (inlineArticle "https://dev.to/a/1" sampleText)),
    .publish (some (inlineArticle "https://dev.to/a/2" closeText)),
    .consume 2 (.calm (lit "en"))]

/-- Nothing fails and both are stored. -/
theorem near_rows_stored :
    ¬ ∀ (es : List Event) (t : State TextFloat),
      Along (step .standard sampleToolkit) (fun _ e => Answered e) (State.initial TextFloat) es →
      run (step .standard sampleToolkit) (State.initial TextFloat) es = some t →
      t.articles.Pairwise fun r r' =>
        Config.standard.simhashHamming < hamming r.contentHash r'.contentHash := by
  intro hseparated
  have hend : (run (step .standard sampleToolkit) (State.initial TextFloat) closeRun).map
      (fun t => t.articles.map Row.contentHash) =
        some [4528336084300408558, 4523762115928336110] := by
    decide +kernel
  obtain ⟨t, hrun, hhashes⟩ := Option.map_eq_some_iff.mp hend
  have hapart := hseparated closeRun t
    ⟨trivial, fun _ _ => ⟨trivial, fun _ _ => ⟨fun _ => rfl, fun _ _ => trivial⟩⟩⟩ hrun
  have hpair : (t.articles.map Row.contentHash).Pairwise fun h h' =>
      Config.standard.simhashHamming < hamming h h' := List.pairwise_map.mpr hapart
  rw [hhashes] at hpair
  exact absurd hpair (by decide)

end WebSpider.Processor
