import WebSpider.Crawler.Time
import WebSpider.Json.Marshal
import WebSpider.Processor.Progress
import WebSpider.Processor.SelfDuplicate
import WebSpider.Sources.Source

/-!
# The messages on the stream

`Publish` writes an article as JSON, and `process_batch` reads it. The strings of the
crawler are bytes, those of the processor are texts. The two agree on every field
(`split_published`), no article that is published can make the processor raise or wait
(`published_consumed`), and whatever calls fail, every row that is stored is made from one
published article, field by field (`row_of_published`).
-/

namespace WebSpider.Wire

open Text Json Effects Processor
open Crawler (Time IsCivil format formatFraction)
open Sources (ArticleRaw)

/-! ## Writing -/

/-- A nil slice is `null`. -/
def tagsText (tags : Option (List (List Nat))) : Str :=
  match tags with
  | none => lit "null"
  | some tags => goArray (tags.map goString)

/-- The payload is copied; it is nil when it could not be written. -/
def payloadText (payload : Str) : Str := if payload = [] then lit "null" else payload

/-- The fields of `ArticleRaw` by their tags; `content_md` is omitted when it is empty. -/
def messageFields (a : ArticleRaw) (published : Time) : List (List Nat × Str) :=
  [(lit "url", goString a.url), (lit "title", goString a.title),
    (lit "author", goString a.author), (lit "published_at", goString (format published)),
    (lit "tags", tagsText a.tags), (lit "source_type", goString a.sourceType),
    (lit "payload", payloadText a.payload)] ++
  if a.contentMd = [] then [] else [(lit "content_md", goString a.contentMd)]

/-- `json.Marshal` of an article whose strings are bytes; `published` is its time in UTC. -/
def message (a : ArticleRaw) (published : Time) : Str := goObject (messageFields a published)

/-! ## Reading -/

variable {F : Type} [FloatText F]

def tagsValue (tags : Option (List (List Nat))) : Value F :=
  match tags with
  | none => .null
  | some tags => .arr (tags.map fun tag => .str (runes tag))

/-- The dictionary the processor gets, with what its decoder makes of the payload. -/
def articleValue (a : ArticleRaw) (published : Time) (p : Value F) : Article F :=
  [(lit "url", .str (runes a.url)), (lit "title", .str (runes a.title)),
    (lit "author", .str (runes a.author)), (lit "published_at", .str (format published)),
    (lit "tags", tagsValue a.tags), (lit "source_type", .str (runes a.sourceType)),
    (lit "payload", p)] ++
  if a.contentMd = [] then [] else [(lit "content_md", .str (runes a.contentMd))]

theorem format_ascii (t : Time) : ∀ c ∈ format t, c < 0x80 := by
  have hdigit {w n c : Nat} (hc : c ∈ pad w n) : c < 0x80 := by
    have := List.all_eq_true.mp (all_isDigit_pad w n) c hc
    simp only [isDigit, decide_eq_true_eq] at this
    omega
  have hfraction {n c : Nat} (hc : c ∈ formatFraction n) : c < 0x80 := by
    unfold formatFraction at hc
    split at hc
    · cases hc
    · rcases List.mem_cons.mp hc with rfl | hc
      · decide
      · exact hdigit ((trimZeros_initial _).subset hc)
  intro c hc
  simp only [format, List.mem_append, List.mem_cons, List.not_mem_nil, or_false] at hc
  rcases hc with h | rfl | h | rfl | h | rfl | h | rfl | h | rfl | h | h | rfl
  all_goals first | exact hdigit h | exact hfraction h | decide

theorem reads_tags (d : Nat) (tags : Option (List (List Nat))) :
    Reads (d + 1) (tagsText tags) (tagsValue tags : Value F) := by
  cases tags with
  | none => exact reads_null _
  | some tags =>
    apply reads_array
    induction tags with
    | nil => exact .nil
    | cons tag tags ih => exact .cons (reads_string d tag) ih

/-- A field under a key without characters outside ASCII. -/
theorem readsField {d : Nat} {k t : Str} {v : Value F} (hk : ∀ c ∈ k, c < 0x80)
    (h : Reads d t v) : ReadsField d (k, t) (k, v) :=
  ⟨(runes_ascii hk).symm, h⟩

omit [FloatText F] in
theorem keys_articleValue (a : ArticleRaw) (published : Time) (p : Value F) :
    ((articleValue a published p).map Prod.fst).Nodup := by
  have hkeys : [lit "url", lit "title", lit "author", lit "published_at", lit "tags",
      lit "source_type", lit "payload", lit "content_md"].Nodup := by decide +kernel
  unfold articleValue
  split
  · exact hkeys.sublist (List.sublist_append_left _ [lit "content_md"])
  · exact hkeys

/-- The decoder reads what `Publish` writes. -/
theorem reads_message {d : Nat} {a : ArticleRaw} {p : Value F}
    (hp : Reads (d + 1) (payloadText a.payload) p) (published : Time) :
    Reads (d + 2) (message a published) (.obj (articleValue a published p)) := by
  apply reads_object _ (keys_articleValue a published p)
  have hcontent : List.Forall₂ (ReadsField (d + 1))
      (if a.contentMd = [] then [] else [(lit "content_md", goString a.contentMd)])
      (if a.contentMd = [] then [] else
        [(lit "content_md", (.str (runes a.contentMd) : Value F))]) := by
    split
    · exact .nil
    · exact .cons (readsField (by decide) (reads_string _ _)) .nil
  have htime := reads_string (F := F) (d + 1) (format published)
  rw [runes_ascii (format_ascii published)] at htime
  apply List.rel_append _ hcontent
  apply List.Forall₂.cons (readsField (by decide) (reads_string _ _))
  apply List.Forall₂.cons (readsField (by decide) (reads_string _ _))
  apply List.Forall₂.cons (readsField (by decide) (reads_string _ _))
  apply List.Forall₂.cons (readsField (by decide) htime)
  apply List.Forall₂.cons (readsField (by decide) (reads_tags d a.tags))
  apply List.Forall₂.cons (readsField (by decide) (reads_string _ _))
  exact .cons (readsField (by decide) hp) .nil

/-! ## What the processor makes of it -/

/-- A published article: its time, and what the decoder makes of its payload. -/
structure Published (F : Type) where
  article : ArticleRaw
  published : Time
  payload : Value F

namespace Published

/-- The payload is JSON text that the decoder reads, at the depth at which it stands. -/
def PayloadRead (d : Nat) (x : Published F) : Prop :=
  Reads (d + 1) (payloadText x.article.payload) x.payload

def text (x : Published F) : Str := message x.article x.published

def value (x : Published F) : Article F := articleValue x.article x.published x.payload

end Published

section Fields

variable (a : ArticleRaw) (published : Time) (p : Value F)

omit [FloatText F] in
theorem urlOf_articleValue : urlOf (articleValue a published p) = .str (runes a.url) := rfl

omit [FloatText F] in
theorem contentMd_articleValue : contentMd (articleValue a published p) =
    if a.contentMd = [] then .null else .str (runes a.contentMd) := by
  unfold articleValue
  split <;> rfl

theorem truthy_contentMd :
    truthy (contentMd (articleValue a published p)) = decide (a.contentMd ≠ []) := by
  rw [contentMd_articleValue]
  by_cases hnil : a.contentMd = []
  · simp [hnil, truthy]
  · have hne : runes a.contentMd ≠ [] := mt runes_eq_nil.mp hnil
    simp [hnil, truthy, hne]

end Fields

variable {cfg : Config} {d : Nat} {x : Published F}

theorem loads_text (hd : cfg.nesting = d + 2) (hx : x.PayloadRead d) :
    loads cfg.nesting x.text = .ok (.obj x.value) := by
  rw [hd]
  exact (reads_message hx x.published).loads

omit [FloatText F] in
theorem text_ne_nil (x : Published F) : x.text ≠ [] := by
  simp [Published.text, message, goObject]

theorem payload_text (hd : cfg.nesting = d + 2) (hx : x.PayloadRead d) {m : Message}
    (hm : m.article = some x.text) : payload cfg m = some (.obj x.value) := by
  have hloads := loads_text hd hx
  obtain ⟨c, t, htext⟩ := List.exists_cons_of_ne_nil (text_ne_nil x)
  rw [htext] at hm hloads
  rw [payload, hm]
  simp only [hloads]
  rfl

/-! ## Fields across the stream -/

/-- The messages of published articles. -/
def messagesOf (xs : List (MsgId × Published F)) : List Message :=
  xs.map fun x => ⟨x.1, some x.2.text⟩

theorem parse_published (hd : cfg.nesting = d + 2) {xs : List (MsgId × Published F)}
    (hxs : ∀ x ∈ xs, x.2.PayloadRead d) :
    parse cfg (messagesOf xs) = .ok (xs.map fun x => (x.1, .obj x.2.value)) := by
  induction xs with
  | nil => rfl
  | cons x xs ih =>
    have hloads := loads_text hd (hxs x List.mem_cons_self)
    obtain ⟨c, t, htext⟩ := List.exists_cons_of_ne_nil (text_ne_nil x.2)
    rw [htext] at hloads
    rw [messagesOf, List.map_cons, htext, parse]
    simp only [hloads]
    have hrest := ih fun y hy => hxs y (List.mem_cons_of_mem _ hy)
    rw [messagesOf] at hrest
    rw [hrest]
    rfl

/-- The articles with a body, with that body. -/
def withBody (xs : List (MsgId × Published F)) : Direct F :=
  (xs.filter fun x => decide (x.2.article.contentMd ≠ [])).map fun x =>
    (x.1, x.2.value, .str (runes x.2.article.contentMd))

def withoutBody (xs : List (MsgId × Published F)) : List (MsgId × Article F) :=
  (xs.filter fun x => decide (x.2.article.contentMd = [])).map fun x => (x.1, x.2.value)

theorem splitDirect_values (xs : List (MsgId × Published F)) :
    splitDirect (xs.map fun x => (x.1, .obj x.2.value)) = .ok (withBody xs, withoutBody xs) := by
  induction xs with
  | nil => rfl
  | cons x xs ih =>
    have htruthy := truthy_contentMd x.2.article x.2.published x.2.payload
    have hcontent := contentMd_articleValue x.2.article x.2.published x.2.payload
    rw [List.map_cons, splitDirect, ih]
    change (if truthy (contentMd x.2.value) then _ else _) = _
    by_cases hnil : x.2.article.contentMd = []
    · have hfalse : truthy (contentMd x.2.value) = false := by
        rw [Published.value, htruthy]
        simp [hnil]
      simp [hfalse, withBody, withoutBody, hnil]
    · have htrue : truthy (contentMd x.2.value) = true := by
        rw [Published.value, htruthy]
        simp [hnil]
      have hbody : getField x.2.value (lit "content_md") .null =
          .str (runes x.2.article.contentMd) := by
        change contentMd x.2.value = _
        rw [Published.value, hcontent, if_neg hnil]
      simp [htrue, hbody, withBody, withoutBody, hnil]

/-- The first two phases of `process_batch` on messages that were published: none is
skipped, an article with a body is judged with exactly that body, and the others are
fetched at their URLs; in both cases with the fields that were published. -/
theorem split_published (cfg : Config) (d : Nat) (hd : cfg.nesting = d + 2)
    (xs : List (MsgId × Published F)) (hxs : ∀ x ∈ xs, x.2.PayloadRead d) :
    (parse cfg (messagesOf xs) >>= splitDirect) = .ok (withBody xs, withoutBody xs) := by
  rw [parse_published hd hxs]
  exact splitDirect_values xs

theorem sample_civil : IsCivil 2026 9 1 12 0 0 0 := by decide

/-- An article of a source with an inline body. -/
def sampleArticle : ArticleRaw where
  url := lit "https://dev.to/a/1"
  title := lit "Files & <streams>"
  author := lit "ann"
  published := 0
  tags := some [lit "go"]
  sourceType := lit "devto"
  payload := lit "\x7b\x7d"
  contentMd := sampleText

def samplePublished : Published TextFloat :=
  ⟨sampleArticle, ⟨2026, 9, 1, 12, 0, 0, 0, sample_civil⟩, .obj []⟩

theorem samplePublished_read : samplePublished.PayloadRead 998 :=
  reads_object .nil List.nodup_nil

/-- A feed item, which has no body. -/
def sampleLink : Published TextFloat :=
  { samplePublished with
    article :=
      { sampleArticle with url := lit "https://blog.example/1", tags := none, contentMd := [] } }

theorem sampleLink_read : sampleLink.PayloadRead 998 := samplePublished_read

theorem split_published_sample :
    (parse .standard (messagesOf [(0, samplePublished), (1, sampleLink)]) >>= splitDirect) =
      .ok ([(0, samplePublished.value, .str (runes sampleText))], [(1, sampleLink.value)]) := by
  apply split_published .standard 998 rfl [(0, samplePublished), (1, sampleLink)]
  intro x hx
  rcases List.mem_cons.mp hx with rfl | hx
  · exact samplePublished_read
  · obtain rfl := List.mem_singleton.mp hx
    exact sampleLink_read

/-! ## Published messages are consumed -/

omit [FloatText F] in
/-- Whatever is judged for a published article, its URL can be encoded and its source can
be counted. -/
theorem digestibleText_value (hbands : BandsDivide cfg) (tk : Toolkit F) (x : Published F)
    (text : Str) : DigestibleText cfg tk x.value text where
  rejected _ := rfl
  kept _ _ := by
    refine ⟨hbands, ⟨runes x.article.url, ?_⟩, rfl⟩
    rw [Published.value, urlOf_articleValue, encodeUrl,
      if_pos (encodable_of_isScalar (isScalar_runes _))]

theorem digestible_text (hd : cfg.nesting = d + 2) (hbands : BandsDivide cfg) (tk : Toolkit F)
    (hx : x.PayloadRead d) {m : Message} (hm : m.article = some x.text) :
    Digestible cfg tk m := by
  refine ⟨fun raw e hraw hne he => ?_, fun v hv => ?_⟩
  · rw [hm, Option.some.injEq] at hraw
    rw [← hraw, loads_text hd hx] at he
    cases he
  · rw [payload_text hd hx hm, Option.some.injEq] at hv
    subst hv
    refine ⟨x.value, rfl, ⟨fun htruthy => ?_, fun _ => ⟨rfl, rfl, fun _ _ text _ => ?_⟩⟩⟩
    · rw [Published.value, truthy_contentMd, decide_eq_true_eq] at htruthy
      refine ⟨runes x.article.contentMd, ?_, digestibleText_value hbands tk x _⟩
      rw [Published.value, contentMd_articleValue, if_neg htruthy]
    · exact digestibleText_value hbands tk x text

/-- A row made from a published article. -/
structure RowOf (cfg : Config) (tk : Toolkit F) (x : Published F) (row : Row F) : Prop where
  url : row.url = runes x.article.url
  urlHash : row.urlHash = tk.sha256 (runes x.article.url)
  title : row.title = .str (runes x.article.title)
  author : row.author = .str (runes x.article.author)
  publishedAt : row.publishedAt = .str (format x.published)
  tags : row.tags = tagsValue x.article.tags
  sourceType : row.sourceType = .str (runes x.article.sourceType)
  /-- Only an article without a body gets another text. -/
  contentMd : x.article.contentMd ≠ [] → row.contentMd = runes x.article.contentMd
  kept : (tk.assess row.contentMd).1 = true
  qualityScore : row.qualityScore = (tk.assess row.contentMd).2.2
  language : row.language ∈ cfg.langKeep
  contentHash : row.contentHash = simhash tk row.contentMd cfg.simhashBits

section Rows

variable [DecidableEq F] {tk : Toolkit F} {env : Surroundings} {messages : List Message}

omit [FloatText F] [DecidableEq F] in
theorem gate_passed_iff {i : MsgId} {text language : Str} {score : F}
    (h : gate cfg tk env i (.str text) = .ok (.passed language score)) :
    (tk.assess text).1 = true ∧ score = (tk.assess text).2.2 ∧ language ∈ cfg.langKeep := by
  unfold gate at h
  simp only at h
  split at h
  · cases h
  · rename_i hassess
    split at h
    · cases h
    · split at h
      · rename_i hmem
        cases h
        exact ⟨by rw [hassess], by rw [hassess], hmem⟩
      · cases h

omit [FloatText F] [DecidableEq F] in
theorem rowOf_value {x : Published F} {i : MsgId} {text language url : Str} {score : F}
    (htext : x.article.contentMd ≠ [] → text = runes x.article.contentMd)
    (hgate : gate cfg tk env i (.str text) = .ok (.passed language score))
    (hurl : encodeUrl (urlOf x.value) = .ok url) :
    RowOf cfg tk x
      (rowOf tk x.value url text language (simhash tk text cfg.simhashBits) score) := by
  obtain ⟨hkept, hscore, hlanguage⟩ := gate_passed_iff hgate
  obtain rfl : url = runes x.article.url := by
    rw [Published.value, urlOf_articleValue, encodeUrl] at hurl
    split at hurl
    · cases hurl
      rfl
    · cases hurl
  exact ⟨rfl, rfl, rfl, rfl, rfl, rfl, rfl, htext, hkept, hscore, hlanguage, rfl⟩

omit [DecidableEq F] in
/-- What is judged for a published article is its body, if it has one. -/
theorem obtained_value {fetched : Fetched} {m : Message} {x : Published F} {article : Article F}
    {content : Value F} (hd : cfg.nesting = d + 2) (hx : x.PayloadRead d)
    (hm : m.article = some x.text) (h : Obtained cfg env fetched m article content) :
    article = x.value ∧ ∃ text, content = .str text ∧
      (x.article.contentMd ≠ [] → text = runes x.article.contentMd) := by
  have hvalue := payload_text hd hx hm
  have htruthy := truthy_contentMd x.article x.published x.payload
  cases h with
  | direct hpayload hmd =>
    rw [hvalue] at hpayload
    obtain rfl := Value.obj.inj (Option.some.inj hpayload)
    rw [Published.value, htruthy, decide_eq_true_eq] at hmd
    refine ⟨rfl, runes x.article.contentMd, ?_, fun _ => rfl⟩
    rw [Published.value, contentMd_articleValue, if_neg hmd]
  | fetched text hpayload hmd hcontent =>
    rw [hvalue] at hpayload
    obtain rfl := Value.obj.inj (Option.some.inj hpayload)
    rw [Published.value, htruthy, decide_eq_false_iff_not, not_not] at hmd
    exact ⟨rfl, text, rfl, fun hne => absurd hmd hne⟩

/-- Every row of a batch of published messages is made from one of their articles. -/
theorem rows_published {P : Published F → Prop} (hd : cfg.nesting = d + 2)
    (hP : ∀ x, P x → x.PayloadRead d) {s t u : State F} {tally : Tally F} {rows : List (Row F)}
    {extraction : Tally F × Direct F}
    (hmessages : ∀ m ∈ messages, ∃ x, P x ∧ m.article = some x.text)
    (h : Judges cfg tk env messages s tally rows t extraction u) :
    ∀ row ∈ rows, ∃ x, P x ∧ RowOf cfg tk x row := by
  obtain ⟨fetched, -, hobtained, -⟩ := h.extracts.obtained
  refine h.turns.invariant (I := fun _ acc _ => ∀ row ∈ acc.2, ∃ x, P x ∧ RowOf cfg tk x row)
    (fun row hrow => by cases hrow) ?_
  intro done item acc s acc' s' hitem hacc hturn
  cases hturn with
  | rejected reason tally hgate htally => exact hacc
  | lang hgate => exact hacc
  | dup language score chash hgate hbands hchash hdup => exact hacc
  | kept language score chash url hgate hbands hchash hcaptured hseen hurl =>
    intro row hrow
    rcases List.mem_append.mp hrow with hrow | hrow
    · exact hacc row hrow
    · obtain rfl := List.mem_singleton.mp hrow
      obtain ⟨m, hm, -, hcontent⟩ := hobtained item hitem
      obtain ⟨x, hx, htext⟩ := hmessages m hm
      obtain ⟨harticle, text, hstr, hbody⟩ := obtained_value hd (hP x hx) htext hcontent
      rw [hstr] at hgate hchash ⊢
      rw [harticle] at hurl ⊢
      subst hchash
      exact ⟨x, hx, rowOf_value hbody hgate hurl⟩

/-- Messages and rows come from published articles. -/
structure Sourced (cfg : Config) (tk : Toolkit F) (P : Published F → Prop) (s : State F) :
    Prop where
  queue : ∀ m ∈ s.queue, ∃ x, P x ∧ m.article = some x.text
  pending : ∀ m ∈ s.pending, ∃ x, P x ∧ m.article = some x.text
  rows : ∀ row ∈ s.articles, ∃ x, P x ∧ RowOf cfg tk x row

variable {P : Published F → Prop} {s t : State F}

omit [FloatText F] [DecidableEq F] in
theorem Sourced.frame (h : Sourced cfg tk P s) (hcorpus : SameCorpus s t) : Sourced cfg tk P t := by
  obtain ⟨hqueue, hpending, hrows⟩ := h
  rw [← hcorpus.queue] at hqueue
  rw [← hcorpus.pending] at hpending
  rw [← hcorpus.articles] at hrows
  exact ⟨hqueue, hpending, hrows⟩

omit [FloatText F] [DecidableEq F] in
theorem Sourced.deliver (h : Sourced cfg tk P s) (n : Nat) : Sourced cfg tk P (s.deliver n) := by
  refine ⟨fun m hm => h.queue m (List.mem_of_mem_drop hm), fun m hm => ?_, h.rows⟩
  rcases List.mem_append.mp hm with hm | hm
  · exact h.pending m hm
  · exact h.queue m (List.mem_of_mem_take hm)

omit [FloatText F] [DecidableEq F] in
theorem Sourced.commit (h : Sourced cfg tk P s) {rows : List (Row F)}
    (hrows : ∀ row ∈ rows, ∃ x, P x ∧ RowOf cfg tk x row) : Sourced cfg tk P (s.commit rows) := by
  refine ⟨h.queue, h.pending, fun row hrow => ?_⟩
  rw [State.commit, insertPages_articles] at hrow
  rcases insertRows_subset hrow with hrow | hrow
  · exact h.rows row hrow
  · exact hrows row hrow

omit [FloatText F] [DecidableEq F] in
theorem Sourced.xack (h : Sourced cfg tk P s) (ids : List MsgId)
    (outcomes : List (MsgId × Verdict)) : Sourced cfg tk P (s.xack ids outcomes) :=
  ⟨h.queue, fun m hm => h.pending m (List.mem_of_mem_filter hm), h.rows⟩

omit [FloatText F] [DecidableEq F] in
/-- The index does not matter. -/
theorem keptByIndex_sourced (chash : Nat) : KeptByIndex cfg chash (Sourced cfg tk P) :=
  ⟨fun _ _ _ hs => ⟨hs.queue, hs.pending, hs.rows⟩,
    fun _ _ _ hs => ⟨hs.queue, hs.pending, hs.rows⟩⟩

theorem sourced_batch (hd : cfg.nesting = d + 2) (hP : ∀ x, P x → x.PayloadRead d)
    (hne : messages ≠ []) (hs : Sourced cfg tk P s)
    (hmessages : ∀ m ∈ messages, ∃ x, P x ∧ m.article = some x.text) :
    Sourced cfg tk P (after (processBatch cfg tk env messages) s) := by
  have hends : Ends (processBatch cfg tk env messages) s (fun _ t => Sourced cfg tk P t)
      (fun _ t => Sourced cfg tk P t) := by
    refine processBatch_ends (J := fun _ _ t => Sourced cfg tk P t) hne ?_ ?_ ?_ ?_ ?_ ?_ ?_ ?_ ?_
    · exact fun t hframe _ => hs.frame hframe.corpus
    · intro t extraction u x hraises
      exact hs.frame (hraises.extracts.corpus.trans hraises.frame.1)
    · intro tally rows t extraction u hjudges _
      exact hs.frame (hjudges.extracts.corpus.trans hjudges.loop.corpus)
    · intro tally rows t extraction u hjudges
      have ht := hs.frame (hjudges.extracts.corpus.trans hjudges.loop.corpus)
      exact ht.commit (rows_published hd hP hmessages hjudges)
    · exact fun tally rows c n t ht => ⟨ht.queue, ht.pending, ht.rows⟩
    · exact fun tally rows row _ => keptByIndex_sourced row.contentHash
    · exact fun tally rows t ht _ _ => ht
    · exact fun tally rows t ht _ => ht
    · exact fun tally rows t ht _ => ⟨fun _ => ht.xack _ _, fun _ => ⟨ht, fun _ => ht.xack _ _⟩⟩
  exact hends.after (fun _ _ h => h) fun _ _ h => h

/-- What is added to the stream is a published article. -/
def AddsPublished (P : Published F → Prop) (e : Event) : Prop :=
  ∀ article, e = .publish article → ∃ x, P x ∧ article = some x.text

omit [FloatText F] [DecidableEq F] in
/-- The batch of an event is made of pending messages, or of new ones. -/
theorem sourced_call {e : Event} (hs : Sourced cfg tk P s)
    (hbatch : batchOf cfg s e = some (env, messages)) :
    Sourced cfg tk P (beforeBatch s e) ∧ messages ≠ [] ∧
      ∀ m ∈ messages, ∃ x, P x ∧ m.article = some x.text := by
  cases e with
  | consume n env' =>
    simp only [batchOf] at hbatch
    split at hbatch
    · rename_i hn
      cases hbatch
      exact ⟨hs.deliver n, hn.2, fun m hm => hs.queue m (List.mem_of_mem_take hm)⟩
    · cases hbatch
  | recover env' =>
    simp only [batchOf] at hbatch
    split at hbatch
    · rename_i hne
      cases hbatch
      exact ⟨hs, hne, fun m hm => hs.pending m (List.mem_of_mem_take hm)⟩
    · cases hbatch
  | publish article => cases hbatch
  | deliver n => cases hbatch
  | warm env' => cases hbatch
  | restart => cases hbatch
  | expire key => cases hbatch

theorem sourced_step (hd : cfg.nesting = d + 2) (hP : ∀ x, P x → x.PayloadRead d) {e : Event}
    (hs : Sourced cfg tk P s) (he : AddsPublished P e) (hstep : step cfg tk s e = some t) :
    Sourced cfg tk P t := by
  have hbatch (h : (batchOf cfg s e).map (fun call =>
      after (processBatch cfg tk call.1 call.2) (beforeBatch s e)) = some t) :
      Sourced cfg tk P t := by
    obtain ⟨⟨env, messages⟩, hcall, rfl⟩ := Option.map_eq_some_iff.mp h
    obtain ⟨hbefore, hne, hmessages⟩ := sourced_call hs hcall
    exact sourced_batch hd hP hne hbefore hmessages
  cases e with
  | publish article =>
    cases hstep
    refine ⟨fun m hm => ?_, hs.pending, hs.rows⟩
    rcases List.mem_append.mp hm with hm | hm
    · exact hs.queue m hm
    · obtain rfl := List.mem_singleton.mp hm
      exact he article rfl
  | deliver n =>
    cases hstep
    exact hs.deliver n
  | consume n env => exact hbatch hstep
  | recover env => exact hbatch hstep
  | warm env =>
    cases hstep
    have hends := warmFromDb_ends cfg env hs (fun row _ => keptByIndex_sourced row.contentHash)
      fun t ht => ⟨ht.queue, ht.pending, ht.rows⟩
    exact hends.after (fun _ _ h => h) fun _ _ h => h
  | restart =>
    cases hstep
    exact ⟨hs.queue, hs.pending, hs.rows⟩
  | expire key =>
    simp only [step] at hstep
    split at hstep
    · cases hstep
      exact ⟨hs.queue, hs.pending, hs.rows⟩
    · cases hstep

/-- Whatever calls fail and however often the process restarts: where the messages on the
stream are published articles, every stored row is made from one of them, field by field. -/
theorem row_of_published (cfg : Config) (tk : Toolkit F) (d : Nat) (hd : cfg.nesting = d + 2)
    (P : Published F → Prop) (hP : ∀ x, P x → x.PayloadRead d) (es : List Event) (t : State F)
    (hadds : ∀ e ∈ es, AddsPublished P e)
    (hrun : run (step cfg tk) (State.initial F) es = some t) :
    ∀ row ∈ t.articles, ∃ x, P x ∧ RowOf cfg tk x row := by
  have hinitial : Sourced cfg tk P (State.initial F) := by
    constructor
    · intro m hm
      cases hm
    · intro m hm
      cases hm
    · intro row hrow
      cases hrow
  have hend := run_invariant (K := fun _ e => AddsPublished P e)
    (fun _ _ _ hs he hstep => sourced_step hd hP hs he hstep) hinitial
    (along_of_mem hadds) hrun
  exact hend.rows

end Rows

/-- One article is published and consumed. -/
def sampleRun : List Event :=
  [.publish (some samplePublished.text), .consume 1 (.calm (lit "en"))]

theorem row_of_published_sample :
    ∃ t, run (step .standard sampleToolkit) (State.initial TextFloat) sampleRun = some t ∧
      t.articles.length = 1 ∧
      ∀ row ∈ t.articles, ∃ x, x = samplePublished ∧ RowOf .standard sampleToolkit x row := by
  have hend : (run (step .standard sampleToolkit) (State.initial TextFloat) sampleRun).map
      (fun t => t.articles.length) = some 1 := by
    decide +kernel
  obtain ⟨t, hrun, hlength⟩ := Option.map_eq_some_iff.mp hend
  refine ⟨t, hrun, hlength, ?_⟩
  apply row_of_published .standard sampleToolkit 998 rfl (fun x => x = samplePublished) ?_
    sampleRun t ?_ hrun
  · rintro x rfl
    exact samplePublished_read
  · intro e he article heq
    subst heq
    obtain rfl : article = some samplePublished.text := by
      simpa [sampleRun] using he
    exact ⟨samplePublished, rfl, rfl⟩

end WebSpider.Wire
