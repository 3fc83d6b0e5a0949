import WebSpider.Sft.Pairs
import WebSpider.Lists.Grouped
import WebSpider.Json.Lines
import Mathlib.Order.WithBot
import Mathlib.Data.Rat.Cast.Order

/-!
# The training set

`export_sft.py` goes through the StackExchange articles from the best to the worst and
writes a record for each document that can be taken apart, unless its title was written
before. The file reads back as the records of exactly the articles that qualify and that no
article of the same title outranks (`dataset_exact`).
-/

namespace WebSpider.Sft.Dataset

open Text Json Json.Lines WebSpider.Lists

variable {F : Type}

/-! ## Rows and records -/

/-- The columns of `articles` that the export reads. -/
structure Article where
  id : Int
  url : Str
  contentMd : Option Str
  score : Option ℚ
  tags : Option (List Str)
  sourceType : Option Str
  deriving DecidableEq

/-- What `parse_qa` takes a document apart into. -/
structure Pair where
  title : Str
  questionMd : Str
  answerMd : Str
  deriving DecidableEq

inductive Format where
  | alpaca
  | sharegpt
  deriving DecidableEq

/-- `fmt.lower()`; other formats exit. -/
def formatOf (lower : Str → Str) (fmt : Str) : Option Format :=
  if lower fmt = lit "alpaca" then some .alpaca
  else if lower fmt = lit "sharegpt" then some .sharegpt
  else none

def tagList (tags : Option (List Str)) : Value F := .arr ((tags.getD []).map .str)

/-- `to_alpaca` -/
def toAlpaca (pair : Pair) (url : Str) (tags : Option (List Str)) : List (Str × Value F) :=
  [(lit "instruction", .str pair.title),
    (lit "input", .str pair.questionMd),
    (lit "output", .str pair.answerMd),
    (lit "url", .str url),
    (lit "tags", tagList tags)]

/-- `to_sharegpt` -/
def toSharegpt (pair : Pair) (url : Str) (tags : Option (List Str)) : List (Str × Value F) :=
  [(lit "conversations", .arr
      [.obj [(lit "from", .str (lit "human")),
          (lit "value", .str (strip (pair.title ++ [10, 10] ++ pair.questionMd)))],
        .obj [(lit "from", .str (lit "gpt")), (lit "value", .str pair.answerMd)]]),
    (lit "url", .str url),
    (lit "tags", tagList tags)]

def record (format : Format) (sample : Article × Pair) : List (Str × Value F) :=
  match format with
  | .alpaca => toAlpaca sample.2 sample.1.url sample.1.tags
  | .sharegpt => toSharegpt sample.2 sample.1.url sample.1.tags

/-! ## The export -/

def Article.worth (a : Article) : WithBot ℚ := a.score

/-- `ORDER BY quality_score DESC NULLS LAST, id` -/
def ranked (a b : Article) : Bool :=
  decide (b.worth < a.worth ∨ a.worth = b.worth ∧ a.id ≤ b.id)

/-- `WHERE source_type = 'stackexchange' AND content_md IS NOT NULL`, in order. -/
def select (table : List Article) : List Article :=
  (table.filter fun a => decide (a.sourceType = some (lit "stackexchange")) &&
    a.contentMd.isSome).mergeSort ranked

/-- The loop over the rows, with the titles that were seen. -/
def exportRows (lower : Str → Str) (format : Format) (minQuality : ℚ) (minAnswerChars : Nat) :
    List Str → List Article → List (List (Str × Value F))
  | _, [] => []
  | seen, a :: rows =>
    if a.score.any (fun score => decide (score < minQuality)) then
      exportRows lower format minQuality minAnswerChars seen rows
    else
      match parseQa (a.contentMd.getD []) minAnswerChars with
      | none => exportRows lower format minQuality minAnswerChars seen rows
      | some (qaTitle, questionMd, answerMd) =>
        if lower qaTitle ∈ seen then exportRows lower format minQuality minAnswerChars seen rows
        else record format (a, ⟨qaTitle, questionMd, answerMd⟩) ::
          exportRows lower format minQuality minAnswerChars (lower qaTitle :: seen) rows

/-- `export_sft`: the text of the file, unless it exits. -/
def exportSft (F : Type) [FloatText F] (lower : Str → Str) (fmt : Str) (minQuality : ℚ)
    (minAnswerChars : Nat) (table : List Article) : Option Str :=
  (formatOf lower fmt).map fun format =>
    writeLines (F := F) (exportRows lower format minQuality minAnswerChars [] (select table))

/-! ## What the file is to hold -/

/-- The article is good enough, and its document is that pair. -/
def Qualifies (minQuality : ℚ) (minAnswerChars : Nat) (a : Article) (pair : Pair) : Prop :=
  a.sourceType = some (lit "stackexchange") ∧ (∀ score, a.score = some score → minQuality ≤ score) ∧
    ∃ content, a.contentMd = some content ∧
      parseQa content minAnswerChars = some (pair.title, pair.questionMd, pair.answerMd)

/-- It has a better score, or came first with the same one. -/
def Outranks (a b : Article) : Prop := b.worth < a.worth ∨ a.worth = b.worth ∧ a.id < b.id

theorem outranks_asymm (a b : Article) (h : Outranks a b) : ¬ Outranks b a := by
  rintro (hlt | ⟨heq, hid⟩)
  · rcases h with hlt' | ⟨heq', -⟩
    · exact lt_asymm hlt hlt'
    · exact (ne_of_lt hlt) heq'
  · rcases h with hlt' | ⟨-, hid'⟩
    · exact (ne_of_lt hlt') heq
    · omega

theorem ranked_trans (a b c : Article) (hab : ranked a b = true) (hbc : ranked b c = true) :
    ranked a c = true := by
  simp only [ranked, decide_eq_true_eq] at *
  rcases hab with hab | ⟨hab, hid⟩
  · rcases hbc with hbc | ⟨hbc, -⟩
    · exact Or.inl (hbc.trans hab)
    · exact Or.inl (hbc ▸ hab)
  · rcases hbc with hbc | ⟨hbc, hid'⟩
    · exact Or.inl (hab ▸ hbc)
    · exact Or.inr ⟨hab.trans hbc, hid.trans hid'⟩

theorem ranked_total (a b : Article) : (ranked a b || ranked b a) = true := by
  simp only [ranked, Bool.or_eq_true, decide_eq_true_eq]
  rcases lt_trichotomy a.worth b.worth with h | h | h
  · exact Or.inr (Or.inl h)
  · rcases Int.le_total a.id b.id with hid | hid
    · exact Or.inl (Or.inr ⟨h, hid⟩)
    · exact Or.inr (Or.inr ⟨h.symm, hid⟩)
  · exact Or.inl (Or.inl h)

theorem mem_select {table : List Article} {a : Article} :
    a ∈ select table ↔
      a ∈ table ∧ a.sourceType = some (lit "stackexchange") ∧ a.contentMd.isSome = true := by
  simp [select]

/-- The rows come in strict order. -/
theorem outranks_select {table : List Article} (hids : (table.map Article.id).Nodup) :
    (select table).Pairwise Outranks := by
  have hsorted : (select table).Pairwise fun a b => ranked a b = true :=
    List.pairwise_mergeSort ranked_trans ranked_total _
  have hdistinct : (select table).Pairwise fun a b => a.id ≠ b.id := by
    have hfiltered := (List.pairwise_map.mp hids).sublist (List.filter_sublist (p := fun a =>
      decide (a.sourceType = some (lit "stackexchange")) && a.contentMd.isSome))
    exact ((List.mergeSort_perm _ ranked).pairwise_iff fun h => Ne.symm h).mpr hfiltered
  refine (hsorted.and hdistinct).imp fun ⟨hranked, hne⟩ => ?_
  simp only [ranked, decide_eq_true_eq] at hranked
  rcases hranked with hlt | ⟨heq, hle⟩
  · exact Or.inl hlt
  · exact Or.inr ⟨heq, lt_of_le_of_ne hle hne⟩

/-! ## The loop -/

section Loop

variable {lower : Str → Str} {format : Format} {minQuality : ℚ} {minAnswerChars : Nat}

/-- The sample a row makes, if it is good enough and can be taken apart. -/
def sampleOf (minQuality : ℚ) (minAnswerChars : Nat) (a : Article) : Option (Article × Pair) :=
  if a.score.any (fun score => decide (score < minQuality)) then none
  else (parseQa (a.contentMd.getD []) minAnswerChars).map fun qa => (a, ⟨qa.1, qa.2.1, qa.2.2⟩)

theorem sampleOf_eq_some {a b : Article} {pair : Pair}
    (hsource : a.sourceType = some (lit "stackexchange")) (hcontent : a.contentMd.isSome = true) :
    sampleOf minQuality minAnswerChars a = some (b, pair) ↔
      b = a ∧ Qualifies minQuality minAnswerChars a pair := by
  obtain ⟨content, hcontent⟩ := Option.isSome_iff_exists.mp hcontent
  unfold sampleOf Qualifies
  rw [hcontent, Option.getD_some]
  constructor
  · intro h
    split at h
    · cases h
    · rename_i hscore
      obtain ⟨⟨title, questionMd, answerMd⟩, hqa, heq⟩ := Option.map_eq_some_iff.mp h
      obtain ⟨rfl, rfl⟩ := Prod.mk.inj heq
      refine ⟨rfl, hsource, fun score hs => ?_, content, rfl, hqa⟩
      rw [hs] at hscore
      simpa using hscore
  · rintro ⟨rfl, -, hscore, content', hc, hqa⟩
    obtain rfl := Option.some.inj hc
    have hgood : b.score.any (fun score => decide (score < minQuality)) = false := by
      cases hs : b.score with
      | none => rfl
      | some score => simpa using hscore score hs
    rw [hgood, hqa]
    rfl

theorem exportRows_eq (seen : List Str) (rows : List Article) :
    exportRows (F := F) lower format minQuality minAnswerChars seen rows =
      (firsts (fun sample => lower sample.2.title) seen
        (rows.filterMap (sampleOf minQuality minAnswerChars))).map (record format) := by
  induction rows generalizing seen with
  | nil => rfl
  | cons a rows ih =>
    rw [exportRows, List.filterMap_cons, sampleOf]
    split
    · exact ih seen
    · cases parseQa (a.contentMd.getD []) minAnswerChars with
      | none => exact ih seen
      | some qa =>
        obtain ⟨title, questionMd, answerMd⟩ := qa
        change (if lower title ∈ seen then _ else _) = (firsts _ seen (_ :: _)).map _
        rw [firsts]
        split
        · exact ih seen
        · rw [ih]
          rfl

theorem mem_samples {table : List Article} {a : Article} {pair : Pair} :
    (a, pair) ∈ (select table).filterMap (sampleOf minQuality minAnswerChars) ↔
      a ∈ table ∧ Qualifies minQuality minAnswerChars a pair := by
  rw [List.mem_filterMap]
  constructor
  · rintro ⟨b, hb, hsample⟩
    obtain ⟨hmem, hsource, hcontent⟩ := mem_select.mp hb
    obtain ⟨rfl, hqualifies⟩ := (sampleOf_eq_some hsource hcontent).mp hsample
    exact ⟨hmem, hqualifies⟩
  · rintro ⟨hmem, hqualifies⟩
    obtain ⟨content, hcontent, -⟩ := hqualifies.2.2
    have hsome : a.contentMd.isSome = true := by rw [hcontent]; rfl
    refine ⟨a, mem_select.mpr ⟨hmem, hqualifies.1, hsome⟩, ?_⟩
    exact (sampleOf_eq_some hqualifies.1 hsome).mpr ⟨rfl, hqualifies⟩

theorem sampleOf_fst {a : Article} {sample : Article × Pair}
    (h : sampleOf minQuality minAnswerChars a = some sample) : sample.1 = a := by
  unfold sampleOf at h
  split at h
  · cases h
  · obtain ⟨qa, -, rfl⟩ := Option.map_eq_some_iff.mp h
    rfl

theorem outranks_samples {table : List Article} (hids : (table.map Article.id).Nodup) :
    ((select table).filterMap (sampleOf minQuality minAnswerChars)).Pairwise
      fun sample sample' => Outranks sample.1 sample'.1 := by
  rw [List.pairwise_filterMap]
  refine (outranks_select hids).imp fun h sample hsample sample' hsample' => ?_
  rw [sampleOf_fst hsample, sampleOf_fst hsample']
  exact h

/-- A record has no numbers and three levels of nesting. -/
theorem fits_record {limit : Nat} (hlimit : 3 ≤ limit) (sample : Article × Pair) :
    Fits (F := F) limit (.obj (record format sample)) := by
  obtain ⟨n, rfl⟩ : ∃ n, limit = n + 3 := ⟨limit - 3, by omega⟩
  have htags : ∀ tags : List Str, FitsAll (F := F) (n + 1) (tags.map .str) := by
    intro tags
    induction tags with
    | nil => trivial
    | cons tag tags ih => exact ⟨trivial, ih⟩
  cases format with
  | alpaca =>
    have hkeys : [lit "instruction", lit "input", lit "output", lit "url", lit "tags"].Nodup := by
      decide
    exact ⟨hkeys, trivial, trivial, trivial, trivial, htags _, trivial⟩
  | sharegpt =>
    have hkeys : [lit "conversations", lit "url", lit "tags"].Nodup := by decide
    have hturn : [lit "from", lit "value"].Nodup := by decide
    exact ⟨hkeys, ⟨⟨hturn, trivial, trivial, trivial⟩, ⟨hturn, trivial, trivial, trivial⟩, trivial⟩,
      trivial, htags _, trivial⟩

end Loop

/-- The file holds a record for each article that qualifies and that is the best, or the
first of the best, of those whose titles are the same in lower case, and no other; and the
better articles come first. -/
theorem dataset_exact [FloatText F] (limit : Nat) (lower : Str → Str) (fmt : Str) (minQuality : ℚ)
    (minAnswerChars : Nat) (table : List Article) (format : Format) (hlimit : 3 ≤ limit)
    (hformat : formatOf lower fmt = some format) (hids : (table.map Article.id).Nodup) :
    ∃ (text : Str) (samples : List (Article × Pair)),
      exportSft F lower fmt minQuality minAnswerChars table = some text ∧
      readLines limit text = .ok (samples.map fun sample => .obj (record (F := F) format sample)) ∧
      samples.Pairwise (fun sample sample' => Outranks sample.1 sample'.1) ∧
      ∀ a pair, (a, pair) ∈ samples ↔
        a ∈ table ∧ Qualifies minQuality minAnswerChars a pair ∧
          ∀ b pair', b ∈ table → Qualifies minQuality minAnswerChars b pair' →
            lower pair'.title = lower pair.title → b = a ∨ Outranks a b := by
  have hsorted : ((select table).filterMap (sampleOf minQuality minAnswerChars)).Pairwise
      fun sample sample' => Outranks sample.1 sample'.1 := outranks_samples hids
  refine ⟨writeLines (exportRows (F := F) lower format minQuality minAnswerChars [] (select table)),
    firsts (fun sample => lower sample.2.title) []
    ((select table).filterMap (sampleOf minQuality minAnswerChars)), ?_, ?_,
    hsorted.sublist (firsts_sublist _ _ _), fun a pair => ?_⟩
  · rw [exportSft, hformat]
    rfl
  · rw [exportRows_eq, readLines_writeLines, List.map_map]
    · rfl
    · intro r hr
      obtain ⟨sample, -, rfl⟩ := List.mem_map.mp hr
      exact fits_record hlimit sample
  · rw [mem_firsts (fun x y h => outranks_asymm x.1 y.1 h) hsorted, mem_samples]
    constructor
    · rintro ⟨⟨hmem, hqualifies⟩, -, hall⟩
      refine ⟨hmem, hqualifies, fun b pair' hb hb' htitle => ?_⟩
      rcases hall (b, pair') (mem_samples.mpr ⟨hb, hb'⟩) htitle with heq | hout
      · exact Or.inl (congrArg Prod.fst heq)
      · exact Or.inr hout
    · rintro ⟨hmem, hqualifies, hall⟩
      refine ⟨⟨hmem, hqualifies⟩, List.not_mem_nil, ?_⟩
      rintro ⟨b, pair'⟩ hsample htitle
      obtain ⟨hb, hb'⟩ := mem_samples.mp hsample
      rcases hall b pair' hb hb' htitle with rfl | hout
      · left
        obtain ⟨content, hcontent, hqa⟩ := hqualifies.2.2
        obtain ⟨content', hcontent', hqa'⟩ := hb'.2.2
        obtain rfl : content = content' := Option.some.inj (hcontent.symm.trans hcontent')
        have heq := Option.some.inj (hqa.symm.trans hqa')
        obtain ⟨title, questionMd, answerMd⟩ := pair
        obtain ⟨title', questionMd', answerMd'⟩ := pair'
        cases heq
        rfl
      · exact Or.inr hout

def worse : Article :=
  ⟨1, lit "https://stackoverflow.com/q/1", some (lit "# How?\n\nWhy\n\n## Top answer\n\nSo\n"),
    some (1 / 2), none, some (lit "stackexchange")⟩

/-- The same title but for the case, and a better score. -/
def better : Article :=
  ⟨2, lit "https://stackoverflow.com/q/2", some (lit "# HOW?\n\nWhen\n\n## Top answer\n\nNow\n"),
    some (3 / 4), none, some (lit "stackexchange")⟩

def lowerAscii (s : Str) : Str := s.map fun c => if 65 ≤ c ∧ c ≤ 90 then c + 32 else c

theorem dataset_exact_sample : ∃ (text : Str) (samples : List (Article × Pair)),
    exportSft TextFloat lowerAscii (lit "Alpaca") 0 1 [worse, better] = some text ∧
    readLines 3 text = .ok (samples.map fun sample =>
      .obj (record (F := TextFloat) .alpaca sample)) ∧
    (better, ⟨lit "HOW?", lit "When", lit "Now"⟩) ∈ samples ∧
    (worse, ⟨lit "How?", lit "Why", lit "So"⟩) ∉ samples := by
  obtain ⟨text, samples, htext, hread, -, hsamples⟩ := dataset_exact (F := TextFloat) 3 lowerAscii
    (lit "Alpaca") 0 1 [worse, better] .alpaca (by decide) (by decide) (by decide)
  have hbetter : Qualifies 0 1 better ⟨lit "HOW?", lit "When", lit "Now"⟩ := by
    refine ⟨rfl, fun score hs => ?_, _, rfl, by decide +kernel⟩
    cases hs
    decide +kernel
  have hwins : ¬ Outranks worse better := by
    rintro (hlt | ⟨heq, -⟩)
    · revert hlt
      decide +kernel
    · revert heq
      decide +kernel
  have hlisted : better ∈ [worse, better] := List.mem_cons_of_mem _ List.mem_cons_self
  refine ⟨text, samples, htext, hread, (hsamples _ _).mpr ⟨hlisted, hbetter, ?_⟩, fun hmem => ?_⟩
  · intro b pair' hb hb' htitle
    rcases List.mem_cons.mp hb with rfl | hb
    · exact Or.inr (Or.inl (by decide +kernel))
    · exact Or.inl (List.mem_singleton.mp hb)
  · obtain ⟨-, -, hall⟩ := (hsamples _ _).mp hmem
    rcases hall better _ hlisted hbetter (by decide) with heq | hout
    · exact absurd (congrArg Article.id heq) (by decide)
    · exact hwins hout

end WebSpider.Sft.Dataset
