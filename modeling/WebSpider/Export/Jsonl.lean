import WebSpider.Json.Lines
import Mathlib.Data.Rat.Cast.Order

/-!
# The corpus file

`export.py` writes the articles that meet its filters in the order of their ids, a JSON
object a line. The file reads back as the records of exactly those articles, or of the first
of them when there is a limit (`export_exact`).
-/

namespace WebSpider.Export

open Text Json Json.Lines

variable {F T : Type}

/-! ## Definitions -/

/-- A row of `articles`, as far as it is exported. -/
structure Row (T : Type) where
  id : Int
  url : Str
  title : Option Str
  contentMd : Option Str
  author : Option Str
  publishedAt : Option T
  tags : Option (List Str)
  sourceType : Str
  language : Option Str
  qualityScore : Option ℚ

/-- The arguments of `export_jsonl`. -/
structure Query where
  limit : Int
  minLen : Int
  minScore : ℚ
  lang : Option Str

/-- The condition of the query. A comparison with NULL does not hold. -/
def Query.selects (q : Query) (a : Row T) : Bool :=
  (a.contentMd.any fun content => decide (q.minLen ≤ content.length)) &&
  (decide (q.minScore ≤ 0) || a.qualityScore.any fun score => decide (q.minScore ≤ score)) &&
  match q.lang with
  | none => true
  -- an empty language is like none
  | some lang => decide (lang = []) || decide (a.language = some lang)

def Query.select (q : Query) (table : List (Row T)) : List (Row T) :=
  (table.filter q.selects).mergeSort fun a b => decide (a.id ≤ b.id)

/-- `if limit: sql += " LIMIT %s"` -/
def Query.limited (q : Query) (rows : List (Row T)) : List (Row T) :=
  if q.limit = 0 then rows else rows.take q.limit.toNat

/-- A column that is written as it is, or as `null`. -/
def column {α : Type} (value : α → Value F) (x : Option α) : Value F := (x.map value).getD .null

/-- `rec`, with `isoformat` and the conversion of a NUMERIC to a float. -/
def record (isoformat : T → Str) (float : ℚ → F) (a : Row T) : List (Str × Value F) :=
  [(lit "url", .str a.url),
    (lit "title", column .str a.title),
    (lit "content_md", column .str a.contentMd),
    (lit "author", column .str a.author),
    (lit "published_at", column (fun t => .str (isoformat t)) a.publishedAt),
    (lit "tags", column (fun tags => .arr (tags.map .str)) a.tags),
    (lit "source_type", .str a.sourceType),
    (lit "language", column .str a.language),
    (lit "quality_score", column (fun score => .float (float score)) a.qualityScore)]

/-- `export_jsonl`: the text of the file, and whether the export returns. The server refuses
a negative limit at the first fetch, when the file is open already. -/
def exportJsonl [FloatText F] (isoformat : T → Str) (float : ℚ → F) (q : Query)
    (table : List (Row T)) : Str × Bool :=
  if q.limit < 0 then ([], false)
  else (writeLines ((q.limited (q.select table)).map (record isoformat float)), true)

/-! ## The rows -/

/-- The article meets the filters. -/
def Qualifies (q : Query) (a : Row T) : Prop :=
  (∃ content, a.contentMd = some content ∧ q.minLen ≤ content.length) ∧
  (0 < q.minScore → ∃ score, a.qualityScore = some score ∧ q.minScore ≤ score) ∧
  ∀ lang, q.lang = some lang → lang ≠ [] → a.language = some lang

theorem qualifies_iff {q : Query} {a : Row T} : q.selects a = true ↔ Qualifies q a := by
  unfold Query.selects Qualifies
  rw [Bool.and_eq_true, Bool.and_eq_true, and_assoc]
  refine and_congr ?_ (and_congr ?_ ?_)
  · simp [Option.any_eq_true]
  · rw [Bool.or_eq_true, decide_eq_true_eq, ← not_lt]
    simp [imp_iff_not_or, Option.any_eq_true]
  · cases q.lang with
    | none => simp
    | some lang =>
      simp only [Bool.or_eq_true, decide_eq_true_eq]
      constructor
      · rintro (hempty | hlang) lang' hlang' hne
        · exact absurd (Option.some.inj hlang' ▸ hempty) hne
        · exact hlang.trans hlang'
      · intro h
        by_cases hempty : lang = []
        · exact Or.inl hempty
        · exact Or.inr (h lang rfl hempty)

theorem mem_select {q : Query} {table : List (Row T)} {a : Row T} :
    a ∈ q.select table ↔ a ∈ table ∧ Qualifies q a := by
  simp [Query.select, qualifies_iff]

/-- The rows come in strict order. -/
theorem select_sorted (q : Query) {table : List (Row T)} (hids : (table.map Row.id).Nodup) :
    (q.select table).Pairwise fun a b => a.id < b.id := by
  have hsorted : (q.select table).Pairwise fun a b => decide (a.id ≤ b.id) = true :=
    List.pairwise_mergeSort (fun a b c hab hbc => by simp at *; omega)
      (fun a b => by simp; omega) _
  have hdistinct : (q.select table).Pairwise fun a b => a.id ≠ b.id := by
    have hfiltered := (List.pairwise_map.mp hids).sublist (List.filter_sublist (p := q.selects))
    exact ((List.mergeSort_perm _ _).pairwise_iff fun h => Ne.symm h).mpr hfiltered
  refine (hsorted.and hdistinct).imp fun ⟨hle, hne⟩ => ?_
  exact lt_of_le_of_ne (of_decide_eq_true hle) hne

theorem limited_sublist (q : Query) (rows : List (Row T)) : (q.limited rows).Sublist rows := by
  unfold Query.limited
  split
  · exact List.Sublist.refl rows
  · exact List.take_sublist _ _

/-- What is left out comes after all that is taken. -/
theorem mem_limited {q : Query} {rows : List (Row T)} (hlimit : 0 ≤ q.limit)
    (hsorted : rows.Pairwise fun a b => a.id < b.id) {a : Row T} (ha : a ∈ rows) :
    a ∈ q.limited rows ∨ q.limit ≠ 0 ∧ ((q.limited rows).length : Int) = q.limit ∧
      ∀ b ∈ q.limited rows, b.id < a.id := by
  unfold Query.limited
  split
  · exact Or.inl ha
  · rename_i hne
    have hsplit : rows.take q.limit.toNat ++ rows.drop q.limit.toNat = rows :=
      List.take_append_drop _ _
    rw [← hsplit] at ha hsorted
    rcases List.mem_append.mp ha with ha | ha
    · exact Or.inl ha
    · refine Or.inr ⟨hne, ?_, fun b hb => (List.pairwise_append.mp hsorted).2.2 b hb a ha⟩
      have hlong : q.limit.toNat < rows.length := by
        by_contra hshort
        rw [List.drop_eq_nil_of_le (by omega)] at ha
        cases ha
      rw [List.length_take]
      omega

/-! ## The file -/

/-- A record has no integers and two levels of nesting. -/
theorem fits_record {nesting : Nat} (hnesting : 2 ≤ nesting) (isoformat : T → Str) (float : ℚ → F)
    (a : Row T) : Fits nesting (.obj (record isoformat float a)) := by
  obtain ⟨n, rfl⟩ : ∃ n, nesting = n + 2 := ⟨nesting - 2, by omega⟩
  have hcolumn : ∀ {α : Type} (value : α → Value F) (x : Option α),
      (∀ y, Fits (n + 1) (value y)) → Fits (n + 1) (column value x) := by
    intro α value x hvalue
    cases x with
    | none => trivial
    | some y => exact hvalue y
  have htags : ∀ tags : List Str, FitsAll (F := F) n (tags.map .str) := by
    intro tags
    induction tags with
    | nil => trivial
    | cons tag tags ih => exact ⟨trivial, ih⟩
  have hkeys : [lit "url", lit "title", lit "content_md", lit "author", lit "published_at",
      lit "tags", lit "source_type", lit "language", lit "quality_score"].Nodup := by decide
  exact ⟨hkeys, trivial, hcolumn _ _ fun _ => trivial, hcolumn _ _ fun _ => trivial,
    hcolumn _ _ fun _ => trivial, hcolumn _ _ fun _ => trivial, hcolumn _ _ htags, trivial,
    hcolumn _ _ fun _ => trivial, hcolumn _ _ fun _ => trivial, trivial⟩

/-- The file holds a record for each article that meets the filters, in the order of the
ids; with a limit it holds the first of them. -/
theorem export_exact [FloatText F] (nesting : Nat) (isoformat : T → Str) (float : ℚ → F) (q : Query)
    (table : List (Row T)) (hnesting : 2 ≤ nesting) (hlimit : 0 ≤ q.limit)
    (hids : (table.map Row.id).Nodup) :
    ∃ (text : Str) (rows : List (Row T)), exportJsonl isoformat float q table = (text, true) ∧
      readLines nesting text = .ok (rows.map fun a => .obj (record isoformat float a)) ∧
      rows.Pairwise (fun a b => a.id < b.id) ∧ (∀ a ∈ rows, a ∈ table ∧ Qualifies q a) ∧
      (q.limit ≠ 0 → (rows.length : Int) ≤ q.limit) ∧
      ∀ a ∈ table, Qualifies q a → a ∈ rows ∨ q.limit ≠ 0 ∧ (rows.length : Int) = q.limit ∧
        ∀ b ∈ rows, b.id < a.id := by
  have hsorted := select_sorted q hids
  refine ⟨writeLines ((q.limited (q.select table)).map (record isoformat float)),
    q.limited (q.select table), ?_, ?_, hsorted.sublist (limited_sublist q _),
    fun a ha => mem_select.mp ((limited_sublist q _).mem ha), fun hne => ?_, fun a ha hq => ?_⟩
  · rw [exportJsonl, if_neg (by omega)]
  · rw [readLines_writeLines, List.map_map]
    · rfl
    · intro r hr
      obtain ⟨a, -, rfl⟩ := List.mem_map.mp hr
      exact fits_record hnesting isoformat float a
  · rw [Query.limited, if_neg hne, List.length_take]
    omega
  · exact mem_limited hlimit hsorted (mem_select.mpr ⟨ha, hq⟩)

/-- An article of this length. -/
def sampleRow (id : Int) (size : Nat) : Row Str :=
  ⟨id, lit "https://dev.to/a", none, some (List.replicate size 97), none, none, some [lit "go"],
    lit "devto", some (lit "en"), some (1 / 2)⟩

def sampleTable : List (Row Str) := [sampleRow 2 4, sampleRow 1 3, sampleRow 0 2]

def sampleQuery : Query := ⟨1, 3, 0, some (lit "en")⟩

theorem isFloatText_half : IsFloatText (lit "0.5") := by decide

def sampleScore (_ : ℚ) : TextFloat := ⟨lit "0.5", isFloatText_half⟩

/-- Of two articles that are long enough the limit leaves the older one. -/
theorem export_exact_sample : ∃ (text : Str) (rows : List (Row Str)),
    exportJsonl id sampleScore sampleQuery sampleTable = (text, true) ∧
    readLines 2 text = .ok (rows.map fun a => .obj (record id sampleScore a)) ∧
    sampleRow 1 3 ∈ rows ∧ sampleRow 2 4 ∉ rows := by
  obtain ⟨text, rows, htext, hread, -, hsound, hshort, hall⟩ := export_exact 2 id sampleScore
    sampleQuery sampleTable (by decide) (by decide) (by decide)
  have hlength : (rows.length : Int) ≤ 1 := hshort (by decide)
  have hqualifies : Qualifies sampleQuery (sampleRow 1 3) :=
    qualifies_iff.mp (by decide +kernel)
  have htiny : ¬ Qualifies sampleQuery (sampleRow 0 2) := fun h =>
    absurd (qualifies_iff.mpr h) (by decide +kernel)
  have hone : sampleRow 1 3 ∈ rows := by
    rcases hall _ (by simp [sampleTable]) hqualifies with hmem | ⟨-, hfull, hbelow⟩
    · exact hmem
    · have hlength' : (rows.length : Int) = 1 := hfull
      obtain ⟨b, rfl⟩ := List.length_eq_one_iff.mp (show rows.length = 1 by omega)
      have hb := hsound b List.mem_cons_self
      have hid : b.id < 1 := hbelow b List.mem_cons_self
      rcases List.mem_cons.mp hb.1 with rfl | hmem
      · exact absurd hid (by decide)
      rcases List.mem_cons.mp hmem with rfl | hmem
      · exact absurd hid (by decide)
      · exact absurd (List.mem_singleton.mp hmem ▸ hb.2) htiny
  refine ⟨text, rows, htext, hread, hone, fun htwo => ?_⟩
  obtain ⟨before, after, rfl⟩ := List.append_of_mem hone
  have hempty : before = [] ∧ after = [] := by
    rw [List.length_append, List.length_cons] at hlength
    exact ⟨List.length_eq_zero_iff.mp (by omega), List.length_eq_zero_iff.mp (by omega)⟩
  rw [hempty.1, hempty.2, List.nil_append, List.mem_singleton] at htwo
  exact absurd (congrArg Row.id htwo) (by decide)

end WebSpider.Export
