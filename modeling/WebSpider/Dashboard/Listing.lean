import WebSpider.Text.Like
import Mathlib.Data.List.Nodup
import Mathlib.Data.List.Perm.Subperm
import Mathlib.Data.Nat.Find

/-!
# The article list

`articles` of `queries.py` and the pages of the dashboard. Rows are only ever added to
the table, so the newest first moves none of them up: whoever goes through the pages one
by one while articles come in sees every article that was there, unless one comes in between
the count and the list of the last request (`browse_complete`). The
search field goes into a pattern as it is, and finds the articles that contain it exactly
when it has no character with a meaning there (`search_iff_plain`).
-/

namespace WebSpider.Dashboard

open Text Text.Like

namespace Listing

/-! ## Definitions -/

/-- A row of `articles`, as far as it is listed. -/
structure Article where
  id : Int
  url : Str
  title : Option Str
  language : Option Str
  sourceType : Str
  contentMd : Option Str
  crawledAt : Option Int
  deriving DecidableEq

/-- The filters of a request. -/
structure Filter where
  lang : Option Str
  q : Option Str
  source : Option Str

/-- An empty value is like none. -/
def given (value : Option Str) : Option Str := value.filter fun s => decide (s ≠ [])

/-- The condition of the query. A comparison with NULL does not hold. -/
def Filter.selects (f : Fold) (flt : Filter) (a : Article) : Bool :=
  ((given flt.lang).all fun lang => decide (a.language = some lang)) &&
  ((given flt.source).all fun source => decide (a.sourceType = source)) &&
  (given flt.q).all fun q =>
    ilike f a.url (around q) || a.contentMd.any fun content => ilike f content (around q)

/-- An element of `items`. -/
structure Item where
  id : Int
  url : Str
  title : Option Str
  language : Option Str
  sourceType : Str
  mdLen : Option Nat
  preview : Option Str
  createdAt : Option Int
  deriving DecidableEq

def Article.item (a : Article) : Item where
  id := a.id
  url := a.url
  title := a.title
  language := a.language
  sourceType := a.sourceType
  mdLen := a.contentMd.map List.length
  preview := a.contentMd.map (List.take 300)
  createdAt := a.crawledAt

structure Response where
  page : Int
  pageSize : Int
  total : Nat
  items : List Item

/-- The rows of the query in their order. -/
def newestFirst (f : Fold) (flt : Filter) (table : List Article) : List Article :=
  (table.filter (flt.selects f)).mergeSort fun a b => decide (b.id ≤ a.id)

/-- `articles`; the rows may have changed between the two statements. -/
def articles (f : Fold) (counted listed : List Article) (flt : Filter) (page pageSize : Int) :
    Response :=
  let page := max 1 page
  let pageSize := max 1 (min 100 pageSize)
  let offset := (page - 1) * pageSize
  { page := page
    pageSize := pageSize
    total := (counted.filter (flt.selects f)).length
    items := (((newestFirst f flt listed).drop offset.toNat).take pageSize.toNat).map Article.item }

/-- `PAGE_SIZE` -/
def pageSize : Nat := 20

/-- `maxPg` -/
def maxPage (total : Nat) : Nat := max 1 ((total + (pageSize - 1)) / pageSize)

/-! ## Positions -/

/-- How many listed articles are newer. -/
def position (f : Fold) (flt : Filter) (table : List Article) (a : Article) : Nat :=
  (table.filter (flt.selects f)).countP fun b => decide (a.id < b.id)

section Pages

variable {f : Fold} {flt : Filter}

/-- An article stands after those that are newer. -/
theorem newestFirst_split {table : List Article} (hids : (table.map Article.id).Nodup)
    {a : Article} (ha : a ∈ table) (hselects : flt.selects f a = true) :
    ∃ newer older, newestFirst f flt table = newer ++ a :: older ∧
      newer.length = position f flt table a := by
  have hperm : (newestFirst f flt table).Perm (table.filter (flt.selects f)) :=
    List.mergeSort_perm _ _
  have hmem : a ∈ newestFirst f flt table :=
    hperm.mem_iff.mpr (List.mem_filter.mpr ⟨ha, hselects⟩)
  have hsorted : (newestFirst f flt table).Pairwise fun a b => decide (b.id ≤ a.id) = true := by
    apply List.pairwise_mergeSort
    · intro a b c hab hbc
      rw [decide_eq_true_eq] at hab hbc ⊢
      omega
    · intro a b
      simp only [Bool.or_eq_true, decide_eq_true_eq]
      omega
  have hdistinct : ((newestFirst f flt table).map Article.id).Nodup :=
    (hperm.map _).nodup_iff.mpr (hids.sublist (List.filter_sublist.map _))
  obtain ⟨newer, older, hsplit⟩ := List.append_of_mem hmem
  refine ⟨newer, older, hsplit, ?_⟩
  rw [hsplit] at hsorted hdistinct
  have hbefore := (List.pairwise_append.mp hsorted).2.2
  have hafter := (List.pairwise_cons.mp (List.pairwise_append.mp hsorted).2.1).1
  rw [List.map_append, List.nodup_append] at hdistinct
  have hnewer : newer.countP (fun b => decide (a.id < b.id)) = newer.length := by
    rw [List.countP_eq_length]
    intro b hb
    have hle := of_decide_eq_true (hbefore b hb a List.mem_cons_self)
    have hne := hdistinct.2.2 b.id (List.mem_map_of_mem hb) a.id
      (List.mem_map_of_mem List.mem_cons_self)
    rw [decide_eq_true_eq]
    omega
  have holder : (a :: older).countP (fun b => decide (a.id < b.id)) = 0 := by
    rw [List.countP_eq_zero]
    intro b hb
    rw [decide_eq_true_eq]
    rcases List.mem_cons.mp hb with rfl | hb
    · omega
    · have hle := of_decide_eq_true (hafter b hb)
      omega
  rw [position, ← hperm.countP_eq, hsplit, List.countP_append, hnewer, holder]
  rfl

/-- The article is on the page its position is on. -/
theorem mem_page {counted table : List Article} (hids : (table.map Article.id).Nodup)
    {a : Article} (ha : a ∈ table) (hselects : flt.selects f a = true) {p : Nat} (hp : 1 ≤ p)
    (hlow : (p - 1) * pageSize ≤ position f flt table a)
    (hhigh : position f flt table a < p * pageSize) :
    a.item ∈ (articles f counted table flt p pageSize).items := by
  obtain ⟨newer, older, hsplit, hlength⟩ := newestFirst_split hids ha hselects
  have hpage : max 1 (p : Int) = p := by omega
  have hsize : max 1 (min 100 (pageSize : Int)) = pageSize := by decide
  have hoffset : (((p : Int) - 1) * (pageSize : Int)).toNat = (p - 1) * pageSize := by
    obtain ⟨k, rfl⟩ := Nat.exists_eq_add_of_le' hp
    simp [pageSize]
    omega
  apply List.mem_map_of_mem
  rw [hpage, hsize, hoffset, hsplit, Int.toNat_natCast, List.drop_append_of_le_length (by omega)]
  rw [List.take_append]
  apply List.mem_append_right
  have hroom : 0 < pageSize - (newer.drop ((p - 1) * pageSize)).length := by
    rw [List.length_drop]
    obtain ⟨k, rfl⟩ := Nat.exists_eq_add_of_le' hp
    rw [Nat.add_sub_cancel] at *
    rw [Nat.add_mul] at hhigh
    omega
  obtain ⟨m, hm⟩ := Nat.exists_eq_add_of_lt hroom
  rw [hm, Nat.zero_add]
  exact List.mem_cons_self

/-- An article does not move up when rows are added. -/
theorem position_mono {table table' : List Article} (hids : (table.map Article.id).Nodup)
    (hsub : table ⊆ table') (a : Article) :
    position f flt table a ≤ position f flt table' a := by
  have hsubperm : (table.filter (flt.selects f)).Subperm (table'.filter (flt.selects f)) := by
    have hnodup : table.Nodup := List.Nodup.of_map _ hids
    apply List.subperm_of_subset (hnodup.filter _)
    intro b hb
    rw [List.mem_filter] at hb ⊢
    exact ⟨hsub hb.1, hb.2⟩
  exact hsubperm.countP_le _

theorem position_lt {table : List Article} {a : Article} (ha : a ∈ table)
    (hselects : flt.selects f a = true) :
    position f flt table a < (table.filter (flt.selects f)).length := by
  rw [position, List.countP_eq_length_filter]
  apply Nat.lt_of_le_of_ne (List.length_filter_le _ _)
  intro hlength
  have hall := List.length_filter_eq_length_iff.mp hlength a (List.mem_filter.mpr ⟨ha, hselects⟩)
  simp at hall

end Pages

/-- The pages `1` to `n` are requested one after the other while rows are added to the
table, until a response says that its page is the last one, and nothing that is listed was
added between the two statements of that request. Every article that was listed at the
first request has been on one of the pages. -/
theorem browse_complete (f : Fold) (flt : Filter) (counted listed : Nat → List Article) (n : Nat)
    (hn : 1 ≤ n) (hids : ∀ p, ((listed p).map Article.id).Nodup)
    (hgrows : ∀ p, listed p ⊆ listed (p + 1))
    (hlast : maxPage (articles f (counted n) (listed n) flt n pageSize).total ≤ n)
    (hstill : ((listed n).filter (flt.selects f)).length ≤
      (articles f (counted n) (listed n) flt n pageSize).total)
    (a : Article) (ha : a ∈ listed 1) (hselects : flt.selects f a = true) :
    ∃ p, 1 ≤ p ∧ p ≤ n ∧ a.item ∈ (articles f (counted p) (listed p) flt p pageSize).items := by
  have hmem (p : Nat) : a ∈ listed (p + 1) := by
    induction p with
    | zero => exact ha
    | succ p ih => exact hgrows (p + 1) ih
  have hin (p : Nat) (hp : 1 ≤ p) : a ∈ listed p := by
    obtain ⟨k, rfl⟩ := Nat.exists_eq_add_of_le' hp
    exact hmem k
  -- The article is not behind the last page, so there is a first page it is not behind.
  have hend : position f flt (listed n) a < n * pageSize := by
    have hlt := (position_lt (hin n hn) hselects).trans_le hstill
    simp only [maxPage, pageSize] at hlast hlt ⊢
    omega
  have hexists : ∃ p, 1 ≤ p ∧ position f flt (listed p) a < p * pageSize := ⟨n, hn, hend⟩
  obtain ⟨hone, hhigh⟩ := Nat.find_spec hexists
  have hle : Nat.find hexists ≤ n := Nat.find_le ⟨hn, hend⟩
  generalize hp : Nat.find hexists = p at hone hhigh hle
  refine ⟨p, hone, hle, mem_page (hids p) (hin p hone) hselects hone ?_ hhigh⟩
  obtain ⟨k, rfl⟩ := Nat.exists_eq_add_of_le' hone
  rw [Nat.add_sub_cancel]
  rcases Nat.eq_zero_or_pos k with rfl | hk
  · rw [Nat.zero_mul]
    exact Nat.zero_le _
  · have hbehind := Nat.find_min hexists (m := k) (by omega)
    rw [not_and, Nat.not_lt] at hbehind
    exact (hbehind hk).trans (position_mono (hids k) (hgrows k) a)

/-- The lower case of ASCII. -/
def lowerAscii (c : Nat) : Nat := if 65 ≤ c ∧ c ≤ 90 then c + 32 else c

theorem lowerAscii_wild (c : Nat) : isWild (lowerAscii c) = isWild c := by
  unfold lowerAscii
  split
  · rename_i hupper
    have hlower : isWild (c + 32) = false := by
      simp only [isWild, decide_eq_false_iff_not]
      omega
    have hold : isWild c = true → c = 92 := by
      simp only [isWild, decide_eq_true_eq]
      omega
    rw [hlower]
    symm
    rw [Bool.eq_false_iff]
    intro h
    have := hold h
    omega
  · rfl

theorem lowerAscii_lowerAscii (c : Nat) : lowerAscii (lowerAscii c) = lowerAscii c := by
  unfold lowerAscii
  split
  · rw [if_neg (by omega)]
  · rfl

theorem lowerAscii_of_wild {c : Nat} (h : isWild c = true) : lowerAscii c = c := by
  rw [isWild, decide_eq_true_eq] at h
  unfold lowerAscii
  rw [if_neg (by omega)]

def asciiFold : Fold where
  lower := lowerAscii
  lower_lower := lowerAscii_lowerAscii
  lower_wild _ := lowerAscii_of_wild
  wild_lower c h := (lowerAscii_wild c).symm.trans h

def sampleArticle (id : Int) : Article :=
  ⟨id, lit "https://dev.to/a", none, some (lit "en"), lit "devto", some (lit "Text"), none⟩

/-- Nineteen articles, and two more from the second page on. -/
def sampleTables (p : Nat) : List Article :=
  ((List.range 19).map fun k => sampleArticle k) ++
    if p ≤ 1 then [] else [sampleArticle 19, sampleArticle 20]

/-- One article is added between the statements of the first request. -/
def sampleCounted (p : Nat) : List Article :=
  if p ≤ 1 then (List.range 18).map fun k => sampleArticle k else sampleTables p

theorem browse_complete_sample : ∃ p, 1 ≤ p ∧ p ≤ 2 ∧ (sampleArticle 0).item ∈ (articles asciiFold
    (sampleCounted p) (sampleTables p) ⟨none, none, none⟩ p pageSize).items := by
  have htables : ∀ p, sampleTables p = sampleTables 1 ∨ sampleTables p = sampleTables 2 := by
    intro p
    by_cases hp : p ≤ 1
    · left
      simp [sampleTables, hp]
    · right
      simp [sampleTables, hp]
  have hids : ∀ p, ((sampleTables p).map Article.id).Nodup := by
    intro p
    rcases htables p with h | h
    · rw [h]
      decide +kernel
    · rw [h]
      decide +kernel
  have hgrows : ∀ p, sampleTables p ⊆ sampleTables (p + 1) := by
    intro p a ha
    rcases List.mem_append.mp ha with ha | ha
    · exact List.mem_append_left _ ha
    · apply List.mem_append_right
      by_cases hp : p ≤ 1
      · rw [if_pos hp] at ha
        cases ha
      · rw [if_neg hp] at ha
        rwa [if_neg (by omega)]
  exact browse_complete asciiFold ⟨none, none, none⟩ sampleCounted sampleTables 2 (by omega) hids
    hgrows (by decide +kernel) (by decide +kernel) (sampleArticle 0) (by decide +kernel)
    (by decide +kernel)

/-! ## The search -/

/-- The text is part of the URL or of the content. -/
def Mentions (f : Fold) (q : Str) (a : Article) : Prop :=
  PartOf f q a.url ∨ ∃ content, a.contentMd = some content ∧ PartOf f q content

theorem selects_of_search (f : Fold) {q : Str} (hq : q ≠ []) (a : Article) :
    (Filter.mk none (some q) none).selects f a = true ↔
      ilike f a.url (around q) = true ∨
        ∃ content, a.contentMd = some content ∧ ilike f content (around q) = true := by
  simp [Filter.selects, given, hq, Option.any_eq_true]

/-- The search finds the articles that mention the text, whatever they are, exactly when
it has no percent sign, no underscore and no backslash. -/
theorem search_iff_plain (f : Fold) (q : Str) :
    (∀ a, (Filter.mk none (some q) none).selects f a = true ↔ Mentions f q a) ↔
      plain q = true := by
  by_cases hq : q = []
  · subst hq
    refine iff_of_true (fun a => iff_of_true rfl (Or.inl ?_)) rfl
    exact List.nil_infix
  rw [← contains_iff_plain f q]
  constructor
  · intro h t
    have hurl := h ⟨0, t, none, none, [], none, none⟩
    rw [selects_of_search f hq] at hurl
    simpa [Mentions] using hurl
  · intro h a
    rw [selects_of_search f hq, Mentions, h]
    simp only [h]

end Listing

end WebSpider.Dashboard
