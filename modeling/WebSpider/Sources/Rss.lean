import WebSpider.Crawler.FiniteSource
import WebSpider.Wire.Message

/-!
# The feeds

`RSS.FetchSince` polls every feed on page 1, and the other pages are empty. The `break`
at `perPage` articles leaves the loop over the items of one feed only; the articles are
still the first ones of all feeds that are in the window (`fetchSince_articles`). The
scheduler starts a page for each slot before it sees that page 2 is empty, and however
its steps interleave a run passes those articles to `Publish`, each once
(`polls_once`). The summary in the payload is cut after 500 bytes, and not between two
characters: what the processor reads of it are the characters that fit
(`summary_read`).
-/

namespace WebSpider.Sources.Rss

open Text Json Crawler.Workers Wire
open Crawler (Time)

/-! ## Definitions -/

/-- `gofeed.Item`; a nil pointer is none. -/
structure Item where
  link : Str
  title : Str
  guid : Str
  description : Str
  author : Option Str
  authors : List (Option Str)
  publishedParsed : Option Int
  updatedParsed : Option Int
  deriving DecidableEq

/-- A feed of the configuration, and its items if it can be fetched. -/
structure Feed where
  feedUrl : Str
  items : Option (List Item)
  deriving DecidableEq

def itemTime (item : Item) : Int :=
  match item.publishedParsed with
  | some t => t
  | none => match item.updatedParsed with
    | some t => t
    | none => 0

/-- The name of the first of `Authors`, unless it is missing. -/
def firstAuthor (item : Item) : Str :=
  match item.authors with
  | some name :: _ => name
  | _ => []

def itemAuthor (item : Item) : Str :=
  match item.author with
  | some name => if name ≠ [] then name else firstAuthor item
  | none => firstAuthor item

def truncate (s : List Nat) (n : Nat) : List Nat := if s.length ≤ n then s else s.take n

/-- `json.Marshal` of the payload, whose keys are sorted. -/
def payloadOf (feedUrl : Str) (item : Item) : Str :=
  goObject [(lit "feed", goString feedUrl), (lit "guid", goString item.guid),
    (lit "summary", goString (truncate item.description 500))]

def articleOf (feedUrl : Str) (item : Item) : ArticleRaw where
  url := item.link
  title := item.title
  author := itemAuthor item
  published := itemTime item
  tags := none
  sourceType := lit "rss"
  payload := payloadOf feedUrl item
  contentMd := []

/-- The loop over the items of a feed. -/
def collect (perPage : Nat) (since : Int) (feedUrl : Str) :
    List Item → List ArticleRaw × Int → List ArticleRaw × Int
  | [], acc => acc
  | item :: items, acc =>
    if item.link = [] then collect perPage since feedUrl items acc
    else if since ≠ 0 ∧ itemTime item < since then collect perPage since feedUrl items acc
    else if perPage ≤ acc.1.length then acc
    else
      collect perPage since feedUrl items (acc.1 ++ [articleOf feedUrl item],
        if acc.2 = 0 ∨ itemTime item < acc.2 then itemTime item else acc.2)

/-- One turn of the loop over the feeds. -/
def pollFeed (perPage : Nat) (since : Int) (acc : List ArticleRaw × Int) (feed : Feed) :
    List ArticleRaw × Int :=
  match feed.items with
  | none => acc
  | some items => collect perPage since feed.feedUrl items acc

/-- `FetchSince` -/
def fetchSince (feeds : List Feed) (perPage : Nat) (since : Int) (page : Nat) : Page :=
  if 1 < page then ⟨[], 0, true⟩
  else if feeds = [] then ⟨[], 0, true⟩
  else
    let acc := feeds.foldl (pollFeed perPage since) ([], 0)
    ⟨acc.1, acc.2, acc.1.isEmpty⟩

/-! ## The articles of a poll -/

/-- The item has a link and is in the window. -/
def listed (since : Int) (item : Item) : Bool :=
  decide (item.link ≠ []) && decide (since = 0 ∨ since ≤ itemTime item)

/-- The articles of a feed that is in reach. -/
def Feed.articles (since : Int) (feed : Feed) : List ArticleRaw :=
  ((feed.items.getD []).filter (listed since)).map (articleOf feed.feedUrl)

/-- The articles of all feeds, up to the size of a page. -/
def polled (feeds : List Feed) (perPage : Nat) (since : Int) : List ArticleRaw :=
  (feeds.flatMap (Feed.articles since)).take perPage

/-- What is cut off before more is added would be cut off afterwards. -/
theorem take_take_append {α : Type} (n : Nat) (xs ys : List α) :
    (xs.take n ++ ys).take n = (xs ++ ys).take n := by
  rw [List.take_append, List.take_append, List.take_take, Nat.min_self, List.length_take]
  by_cases hroom : n ≤ xs.length
  · rw [Nat.min_eq_left hroom, Nat.sub_self, Nat.sub_eq_zero_of_le hroom]
  · rw [Nat.min_eq_right (Nat.le_of_not_le hroom)]

theorem listed_iff {since : Int} {item : Item} : listed since item = true ↔
    item.link ≠ [] ∧ ¬ (since ≠ 0 ∧ itemTime item < since) := by
  have hwindow : since = 0 ∨ since ≤ itemTime item ↔ ¬ (since ≠ 0 ∧ itemTime item < since) := by
    omega
  simp only [listed, Bool.and_eq_true, decide_eq_true_eq, hwindow]

theorem collect_articles (perPage : Nat) (since : Int) (feedUrl : Str) (items : List Item)
    (acc : List ArticleRaw × Int) (hacc : acc.1.length ≤ perPage) :
    (collect perPage since feedUrl items acc).1 = (acc.1 ++
      (items.filter (listed since)).map (articleOf feedUrl)).take perPage := by
  induction items generalizing acc with
  | nil =>
    rw [List.filter_nil, List.map_nil, List.append_nil, List.take_of_length_le hacc]
    rfl
  | cons item items ih =>
    rw [collect]
    split
    · rename_i hlink
      have hout : listed since item = false := by
        simp [listed, hlink]
      rw [ih acc hacc, List.filter_cons_of_neg (by simp [hout])]
    · rename_i hlink
      split
      · rename_i hold
        have hout : ¬ listed since item = true := fun h => (listed_iff.mp h).2 hold
        rw [ih acc hacc, List.filter_cons_of_neg hout]
      · rename_i hwindow
        have hin : listed since item = true := listed_iff.mpr ⟨hlink, hwindow⟩
        rw [List.filter_cons_of_pos hin, List.map_cons]
        split
        · -- The page is full, so whatever follows is cut off.
          rename_i hfull
          have hlength : acc.1.length = perPage := Nat.le_antisymm hacc hfull
          rw [← hlength, List.take_left]
        · rename_i hroom
          rw [ih _ (by rw [List.length_append, List.length_singleton]; omega), List.append_assoc]
          rfl

theorem pollFeed_articles (perPage : Nat) (since : Int) (feed : Feed)
    (acc : List ArticleRaw × Int) (hacc : acc.1.length ≤ perPage) :
    (pollFeed perPage since acc feed).1 = (acc.1 ++ feed.articles since).take perPage := by
  unfold pollFeed Feed.articles
  cases feed.items with
  | none => simp [List.take_of_length_le hacc]
  | some items => exact collect_articles perPage since feed.feedUrl items acc hacc

theorem poll_articles (perPage : Nat) (since : Int) (feeds : List Feed)
    (acc : List ArticleRaw × Int) (hacc : acc.1.length ≤ perPage) :
    (feeds.foldl (pollFeed perPage since) acc).1 =
      (acc.1 ++ feeds.flatMap (Feed.articles since)).take perPage := by
  induction feeds generalizing acc with
  | nil => simp [List.take_of_length_le hacc]
  | cons feed feeds ih =>
    have hpoll := pollFeed_articles perPage since feed acc hacc
    have hle : (pollFeed perPage since acc feed).1.length ≤ perPage := by
      rw [hpoll]
      exact List.length_take_le _ _
    rw [List.foldl_cons, ih _ hle, hpoll, List.flatMap_cons, ← List.append_assoc]
    exact take_take_append _ _ _

theorem fetchSince_articles (feeds : List Feed) (perPage : Nat) (since : Int) :
    (fetchSince feeds perPage since 1).articles = polled feeds perPage since := by
  rw [fetchSince, if_neg (Nat.lt_irrefl 1)]
  split
  · rename_i hnil
    rw [hnil]
    exact List.take_nil.symm
  · exact poll_articles perPage since feeds ([], 0) (Nat.zero_le _)

/-! ## A run over the feeds -/

/-- The source as the workers call it. Page 1 is fetched once in a run, so what the feeds
answer then is all they answer. -/
def source (feeds : List Feed) (perPage : Nat) (since : Int) (page : Nat) :
    List ArticleRaw × Bool :=
  ((fetchSince feeds perPage since page).articles, (fetchSince feeds perPage since page).empty)

theorem fetchSince_empty (feeds : List Feed) (perPage : Nat) (since : Int) (page : Nat) :
    (fetchSince feeds perPage since page).empty =
      (fetchSince feeds perPage since page).articles.isEmpty := by
  unfold fetchSince
  split
  · rfl
  · split
    · rfl
    · rfl

theorem source_one (feeds : List Feed) (perPage : Nat) (since : Int) :
    source feeds perPage since 1 =
      (polled feeds perPage since, (polled feeds perPage since).isEmpty) := by
  rw [source, fetchSince_empty, fetchSince_articles]

theorem source_after (feeds : List Feed) (perPage : Nat) (since : Int) {page : Nat}
    (hpage : 1 < page) : source feeds perPage since page = ([], true) := by
  rw [source, fetchSince, if_pos hpage]

/-- The pages end after the first, or before it when nothing is polled. -/
theorem source_ends (feeds : List Feed) (perPage : Nat) (since : Int) :
    ∃ k ≤ 2, EndsAt (source feeds perPage since) k ∧
      allArticles (source feeds perPage since) k = polled feeds perPage since := by
  by_cases hnil : polled feeds perPage since = []
  · refine ⟨1, by omega, ⟨Nat.le_refl 1, fun page hone hlt => by omega, fun page hone => ?_⟩, ?_⟩
    · rcases Nat.eq_or_lt_of_le hone with rfl | hlt
      · rw [source_one, hnil]
        rfl
      · exact source_after feeds perPage since hlt
    · rw [hnil]
      rfl
  · refine ⟨2, Nat.le_refl 2, ⟨by omega, fun page hone hlt => ?_, fun page htwo => ?_⟩, ?_⟩
    · obtain rfl : page = 1 := by omega
      rw [source_one]
      exact Bool.eq_false_iff.mpr fun hempty => hnil (List.isEmpty_iff.mp hempty)
    · exact source_after feeds perPage since htwo
    · change (source feeds perPage since 1).1 ++ [] = _
      rw [source_one, List.append_nil]

section Runs

variable {feeds : List Feed} {perPage : Nat} {since : Int} {cfg : Settings}
  {s : State ArticleRaw} {es : List (Crawler.Workers.Event ArticleRaw)}

/-- A run that was neither cancelled nor refused by the limiter has launched page 1. -/
theorem launched_one (hrun : Effects.run (Crawler.Workers.step cfg) start es = some s)
    (hrate : 0 < cfg.ratePerSec) (hcancelled : ¬ s.cancelled) (hover : s.pc = .returned) :
    1 ≤ (launches s.acts).length := by
  rcases (ended hrun).left (.inr (.inr hover)) with h | h | ⟨hpos, h⟩ | ⟨pre, r, post, hsplit, -⟩
  · contradiction
  · omega
  · have hnext := (numbered hrun).next fun page hpc => by cases hover.symm.trans hpc
    omega
  · have hr : Act.absorb r ∈ s.acts := by
      rw [hsplit]
      exact List.mem_append_right _ List.mem_cons_self
    exact List.length_pos_of_mem (launched_of_absorbed hrun hr)

/-- The workers are gone when such a run returns. -/
theorem idle_of_returned (hrun : Effects.run (Crawler.Workers.step cfg) start es = some s)
    (hrate : 0 < cfg.ratePerSec) (hcancelled : ¬ s.cancelled) (hover : s.pc = .returned) :
    s.tasks = [] ∧ s.results = [] := by
  rcases (ended hrun).finished hover with h | h | h
  · contradiction
  · omega
  · exact h

theorem published_polled (hrun : Effects.run (Crawler.Workers.step cfg) start es = some s)
    (hsrc : Serves (source feeds perPage since) s.acts) (hrate : 0 < cfg.ratePerSec)
    (hcancelled : ¬ s.cancelled) (hover : s.pc = .returned) :
    (s.acts.filterMap Act.publishedArticle).Perm (polled feeds perPage since) := by
  obtain ⟨k, hk, hends, hall⟩ := source_ends feeds perPage since
  have hone := launched_one hrun hrate hcancelled hover
  obtain ⟨htasks, hresults⟩ := idle_of_returned hrun hrate hcancelled hover
  have hfetched := fetched_eq hrun
  have hpublished := published_eq hrun
  rw [fetchedArticles_eq hsrc] at hpublished
  simp only [Balance.held, htasks, hresults, List.map_nil, List.sum_nil, add_zero]
    at hfetched hpublished
  have hperm : (launches s.acts).Perm (s.acts.filterMap Act.fetchedPage) :=
    Multiset.coe_eq_coe.mp hfetched
  have hpages := (articles_upTo hends (launches s.acts).length).2 (by omega)
  rw [← (numbered hrun).order, hall] at hpages
  rw [← hpages]
  exact (Multiset.coe_eq_coe.mp hpublished).symm.trans (hperm.symm.flatMap_right _)

/-- What has been passed to `Publish` so far was polled. -/
theorem passed_subperm (hrun : Effects.run (Crawler.Workers.step cfg) start es = some s)
    (hsrc : Serves (source feeds perPage since) s.acts) :
    (s.acts.filterMap Act.publishedArticle).Subperm (polled feeds perPage since) := by
  obtain ⟨k, hk, hends, hall⟩ := source_ends feeds perPage since
  have hpassed : (s.acts.filterMap Act.publishedArticle).Subperm
      ((s.acts.filterMap Act.fetchedPage).flatMap fun page =>
        (source feeds perPage since page).1) := by
    apply Multiset.coe_le.mp
    rw [← fetchedArticles_eq hsrc, published_eq hrun]
    exact Multiset.le_add_right _ _
  have hfetched : (s.acts.filterMap Act.fetchedPage).Subperm (launches s.acts) := by
    apply Multiset.coe_le.mp
    rw [fetched_eq hrun]
    exact Multiset.le_add_right _ _
  obtain ⟨pages, hperm, hpages⟩ := hfetched
  have hflat := (hperm.flatMap_right fun page =>
    (source feeds perPage since page).1).symm.subperm.trans
      (hpages.flatMap fun page => (source feeds perPage since page).1).subperm
  apply (hpassed.trans hflat).trans
  rw [(numbered hrun).order]
  -- With page 1 the pages launched hold what is polled, and before it nothing.
  rcases Nat.eq_zero_or_pos (launches s.acts).length with hzero | hpos
  · rw [hzero]
    exact List.nil_subperm
  · rw [(articles_upTo hends (launches s.acts).length).2 (by omega), hall]

/-- A run over the feeds, with any number of slots and any page limit, whatever `Publish`
answers and however the steps interleave: no page fails, at most two pages more than
there are slots are started, and only polled articles are passed to `Publish`, none of
them twice. If the limiter admits something and the run is not cancelled, its length is
bounded, and when it returns all of them have been. -/
theorem polls_once (hrun : Effects.run (Crawler.Workers.step cfg) start es = some s)
    (hsrc : Serves (source feeds perPage since) s.acts) :
    (∀ r, Act.absorb r ∈ s.acts → r.failed = false) ∧
    (launches s.acts).length ≤ 2 + cfg.concurrency ∧
    (s.acts.filterMap Act.publishedArticle).Subperm (polled feeds perPage since) ∧
    (0 < cfg.ratePerSec → Crawler.Workers.Event.cancel ∉ es →
      es.length ≤ 8 * (2 + cfg.concurrency) + (polled feeds perPage since).length + 4 ∧
      (s.pc = .returned →
        (s.acts.filterMap Act.publishedArticle).Perm (polled feeds perPage since))) := by
  obtain ⟨k, hk, hends, hall⟩ := source_ends feeds perPage since
  have hlaunches := launches_le_of_ends hends hrun hsrc
  refine ⟨fun r hr => (absorbed_of_serves hrun hsrc hr).1, by omega, ?_, fun hrate hes => ?_⟩
  · exact passed_subperm hrun hsrc
  · obtain ⟨hcancelled, hlength⟩ := length_le_granted hrun hes
    have hpublishes := publishes_le hends hrun hsrc
    rw [hall] at hpublishes
    unfold granted at hlength
    exact ⟨by omega, published_polled hrun hsrc hrate hcancelled⟩

end Runs

/-- Two feeds, one of which cannot be fetched, and a page of two articles. -/
def sampleItem : Item where
  link := lit "https://blog.example/1"
  title := lit "One"
  guid := lit "1"
  description := lit "First"
  author := some []
  authors := [some (lit "ann")]
  publishedParsed := none
  updatedParsed := some 5

def laterItem : Item := { sampleItem with link := lit "https://blog.example/2", guid := lit "2" }

def sampleFeeds : List Feed :=
  [⟨lit "https://a.example/feed", none⟩,
    ⟨lit "https://b.example/feed", some [{ sampleItem with link := [] }, sampleItem, laterItem]⟩]

/-- The run of two workers over the feeds; the second asks for a page while the first publishes. -/
def sampleRun : List (Crawler.Workers.Event ArticleRaw) :=
  [.limiter true, .spawn, .fetch 0 (some (source sampleFeeds 30 0 1)), .publish 0 (some true),
    .default, .limiter true, .spawn, .fetch 1 (some ([], true)), .send 1, .publish 0 none, .send 0,
    .release 0, .release 1, .exit 0, .exit 0, .take, .drain, .close, .finish, .record]

/-- What the source answered, if it was asked, is what the feeds hold. -/
def servedBy (feeds : List Feed) (perPage : Nat) (since : Int) : Act ArticleRaw → Bool
  | .fetch page answer => decide (answer = some (source feeds perPage since page))
  | _ => true

theorem polls_once_sample : ∃ s,
    Effects.run (Crawler.Workers.step twoSlots) start sampleRun = some s ∧
    (s.acts.filterMap Act.publishedArticle).Perm
      [articleOf (lit "https://b.example/feed") sampleItem,
        articleOf (lit "https://b.example/feed") laterItem] := by
  have hview : (Effects.run (Crawler.Workers.step twoSlots) start sampleRun).map (fun s =>
      (s.pc, s.acts.all (servedBy sampleFeeds 30 0))) = some (.returned, true) := by decide +kernel
  obtain ⟨s, hs, heq⟩ := Option.map_eq_some_iff.mp hview
  obtain ⟨hpc, hall⟩ := Prod.mk.inj heq
  have hsrc : Serves (source sampleFeeds 30 0) s.acts := fun page answer h =>
    of_decide_eq_true (List.all_eq_true.mp hall _ h)
  have hpolled : polled sampleFeeds 30 0 = [articleOf (lit "https://b.example/feed") sampleItem,
      articleOf (lit "https://b.example/feed") laterItem] := by decide +kernel
  refine ⟨s, hs, ?_⟩
  rw [← hpolled]
  exact ((polls_once hs hsrc).2.2.2 (by decide) (by decide)).2 hpc

/-! ## The summary -/

variable {F : Type} [FloatText F]

/-- What the decoder makes of the payload. -/
def payloadValue (feedUrl : Str) (item : Item) : Value F :=
  .obj [(lit "feed", .str (runes feedUrl)), (lit "guid", .str (runes item.guid)),
    (lit "summary", .str (runes (truncate item.description 500)))]

/-- An item of a feed as it is published at a time. -/
def posted (feedUrl : Str) (item : Item) (published : Time) : Published F :=
  ⟨articleOf feedUrl item, published, payloadValue feedUrl item⟩

theorem reads_payload (d : Nat) (feedUrl : Str) (item : Item) :
    Reads (d + 1) (payloadOf feedUrl item) (payloadValue feedUrl item : Value F) := by
  have hkeys : [lit "feed", lit "guid", lit "summary"].Nodup := by decide +kernel
  unfold payloadOf payloadValue
  refine reads_object ?_ hkeys
  apply List.Forall₂.cons (readsField (by decide) (reads_string _ _))
  apply List.Forall₂.cons (readsField (by decide) (reads_string _ _))
  exact .cons (readsField (by decide) (reads_string _ _)) .nil

theorem payload_read (d : Nat) (feedUrl : Str) (item : Item) (published : Time) :
    (posted feedUrl item published : Published F).PayloadRead d := by
  have hne : payloadOf feedUrl item ≠ [] := by simp [payloadOf, goObject]
  have htext : payloadText (articleOf feedUrl item).payload = payloadOf feedUrl item := if_neg hne
  rw [Published.PayloadRead, posted, htext]
  exact reads_payload d feedUrl item

/-- The payload of a message the processor has read, and the summary in it. -/
def summaryOf (a : Processor.Article F) : Value F :=
  match Processor.getField a (lit "payload") .null with
  | .obj payload => Processor.getField payload (lit "summary") .null
  | _ => .null

/-- The processor reads an item whose description is a text. In the summary it finds the
characters that fit into 500 bytes, and as many replacement characters as bytes of the
next one do; a description that fits is the summary. -/
theorem summary_read (d : Nat) (feedUrl : Str) (item : Item) (published : Time) (s : Str)
    (hs : s.all isScalar = true) (hdescription : item.description = encode s) :
    ∃ a : Processor.Article F,
      loads (d + 2) (message (articleOf feedUrl item) published) = .ok (.obj a) ∧
      ∃ k ≤ s.length, ∃ j ≤ 3,
        summaryOf a = .str (s.take k ++ List.replicate j replacement) ∧
        (encode (s.take k)).length + j = min 500 (encode s).length ∧
        (k < s.length → 500 < (encode (s.take (k + 1))).length) := by
  have hread := payload_read (F := F) d feedUrl item published
  have hcut : truncate (encode s) 500 = (encode s).take 500 := by
    unfold truncate
    split
    · rename_i hshort
      exact (List.take_of_length_le hshort).symm
    · rfl
  obtain ⟨k, hk, j, hj, htext, hlength, hmost⟩ := runes_take_encode hs 500
  refine ⟨(posted feedUrl item published : Published F).value, ?_, k, hk, j, hj, ?_, hlength, hmost⟩
  · exact (reads_message hread published).loads
  · rw [← htext, ← hcut, ← hdescription]
    rfl

/-- 499 letters and one of two bytes. -/
def longItem : Item := { sampleItem with description := encode (List.replicate 499 97 ++ [233]) }

theorem summary_read_sample : ∃ a : Processor.Article TextFloat,
    loads 1000 (message (articleOf (lit "https://b.example/feed") longItem)
      ⟨2026, 9, 1, 12, 0, 0, 0, sample_civil⟩) = .ok (.obj a) := by
  have hscalar : (List.replicate 499 97 ++ [233]).all isScalar = true := by decide +kernel
  obtain ⟨a, ha, -⟩ := summary_read (F := TextFloat) 998 (lit "https://b.example/feed") longItem
    ⟨2026, 9, 1, 12, 0, 0, 0, sample_civil⟩ _ hscalar rfl
  exact ⟨a, ha⟩

end WebSpider.Sources.Rss
