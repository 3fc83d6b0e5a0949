import WebSpider.Vectors.Export
import WebSpider.Json.Lines

/-!
# The text of the chunk file

The export writes a chunk as a line of JSON and may die after any number of characters.
An incremental run appends at the end of the text, wherever that is. So a run that died
within a line makes the file one that `embed_chunks` and `import_pgvector` cannot read, and
so does a run that appends to a line without its end; only a full run mends it
(`readable_iff`). As long as neither happens the readers get the chunks of the export
(`reads_chunks`).
-/

namespace WebSpider.Vectors.ChunkFile

open Text Json Json.Lexical Json.Lines Effects

variable {F : Type} [FloatText F]

/-! ## The lines -/

/-- A value that may be `None`. -/
def optional {α : Type} (f : α → Value F) (x : Option α) : Value F := (x.map f).getD .null

def texts (xs : List Str) : Value F := .arr (xs.map .str)

/-- The dictionary that `article_to_chunks` makes for a chunk. -/
def chunkFields (c : Chunk F) : List (Str × Value F) :=
  [(lit "chunk_id", .str c.chunkId),
    (lit "article_id", optional .int c.articleId),
    (lit "url", .str c.url),
    (lit "title", optional .str c.title),
    (lit "heading_path", optional texts c.headingPath),
    (lit "chunk_index", optional .int c.chunkIndex),
    (lit "n_chunks", optional .int c.nChunks),
    (lit "text", .str c.text),
    (lit "tags", optional texts c.tags),
    (lit "source_type", optional .str c.sourceType),
    (lit "language", optional .str c.language),
    (lit "published_at", optional .str c.publishedAt),
    (lit "quality_score", optional .float c.qualityScore)]

/-- The chunks of the article can be read back: their numbers have few enough digits. -/
def Sized (limit : Nat) (sha256 : Str → Str) (p : Params) (a : Article F) : Prop :=
  ∀ c ∈ articleToChunks sha256 p a, Fits limit (.obj (chunkFields c))

/-! ## The export -/

/-- The `articles` table, the text of the chunk file and the id in the state file. -/
structure Disk (F : Type) where
  articles : List (Article F)
  text : Str
  lastId : Int

def Disk.empty : Disk F := ⟨[], [], 0⟩

/-- How a run of `export_chunks` ends. -/
inductive Ending where
  | completes
  /-- It dies before it opens the file. -/
  | unopened
  /-- It dies after this many characters, before it saves the state. -/
  | diesAfter (chars : Nat)
  deriving DecidableEq

/-- How many characters of the lines are written, unless the file was not opened. -/
def Ending.chars (lines : Str) : Ending → Option Nat
  | .completes => some lines.length
  | .unopened => none
  | .diesAfter n => some n

namespace Disk

def insert (a : Article F) (s : Disk F) : Disk F := { s with articles := s.articles ++ [a] }

variable (sha256 : Str → Str) (p : Params)

/-- What a run selects. -/
def selected (full : Bool) (s : Disk F) : List (Chunk F) :=
  chunksSince sha256 p (if full then 0 else s.lastId) s.articles

def lines (full : Bool) (s : Disk F) : Str := writeLines ((s.selected sha256 p full).map chunkFields)

/-- `export_chunks` -/
def exportChunks (full : Bool) (ending : Ending) (s : Disk F) : Disk F :=
  let lastId := if full then 0 else s.lastId
  let lines := s.lines sha256 p full
  let old := if full then [] else s.text
  match ending with
  | .unopened => s
  | .diesAfter n => { s with text := old ++ lines.take n }
  | .completes => { s with
      text := old ++ lines
      lastId := if full then s.lastId else maxId lastId (newerThan lastId s.articles) }

end Disk

inductive Event (F : Type) where
  | insert (a : Article F)
  | exports (full : Bool) (ending : Ending)

def step (sha256 : Str → Str) (p : Params) (s : Disk F) : Event F → Option (Disk F)
  | .insert a => if Inserts s.articles a then some (s.insert a) else none
  | .exports full ending => some (s.exportChunks sha256 p full ending)

/-! ## What damages the file -/

/-- The text ends with the end of a line, or is empty. -/
def ended (text : Str) : Bool := text.getLast?.all fun c => decide (c = 10)

/-- The event opens the file anew. -/
def Event.reopens : Event F → Bool
  | .insert _ => false
  | .exports full ending => full && decide (ending ≠ .unopened)

/-- An export that opens the file does not die within a chunk, and unless it writes nothing
it begins on a line of its own. -/
def Whole (sha256 : Str → Str) (p : Params) (s : Disk F) : Event F → Prop
  | .insert _ => True
  | .exports full ending => ∀ n, ending.chars (s.lines sha256 p full) = some n →
      inside n ((s.selected sha256 p full).map chunkFields) = false ∧
        (full = true ∨ ended s.text = true ∨ (s.lines sha256 p full).take n = [])

/-- Since the file was last opened anew, by that event and after it, all exports were
whole. -/
def Undamaged (sha256 : Str → Str) (p : Params) (es : List (Event F)) : Prop :=
  ∀ bs e cs t, es = bs ++ e :: cs → run (step sha256 p) .empty bs = some t →
    (∀ e' ∈ cs, e'.reopens = false) → Whole sha256 p t e

/-! ## One export -/

section Export

variable {limit : Nat} {sha256 : Str → Str} {p : Params} {s : Disk F}

theorem foreign_c : Foreign 99 := ⟨fun _ => rfl, rfl⟩

omit [FloatText F] in
theorem writable_chunk {c : Chunk F} (h : Fits limit (.obj (chunkFields c))) :
    Writable limit (chunkFields c) :=
  ⟨h, 99, _, _, _, rfl, foreign_c⟩

omit [FloatText F] in
/-- What the numbers of a chunk must be like for it to be read back. -/
theorem fits_chunk {c : Chunk F} {n : Nat} (hints : ∀ k : Int, c.articleId = some k ∨
    c.chunkIndex = some k ∨ c.nChunks = some k → (decimal k.natAbs).length ≤ maxDigits) :
    Fits (n + 2) (.obj (chunkFields c)) := by
  have hint : ∀ x : Option Int, (∀ k, x = some k → (decimal k.natAbs).length ≤ maxDigits) →
      Fits (F := F) (n + 1) (optional .int x) := by
    intro x hx
    cases x with
    | none => trivial
    | some k => exact hx k rfl
  have hstr : ∀ x : Option Str, Fits (F := F) (n + 1) (optional .str x) := by
    intro x
    cases x <;> trivial
  have htexts : ∀ x : Option (List Str), Fits (F := F) (n + 1) (optional texts x) := by
    intro x
    cases x with
    | none => trivial
    | some xs =>
      change FitsAll n (xs.map .str)
      induction xs with
      | nil => trivial
      | cons x xs ih => exact ⟨trivial, ih⟩
  have hfloat : Fits (n + 1) (optional Value.float c.qualityScore) := by
    cases c.qualityScore <;> trivial
  have hkeys : ((chunkFields c).map Prod.fst).Nodup := by
    change [lit "chunk_id", lit "article_id", lit "url", lit "title", lit "heading_path",
      lit "chunk_index", lit "n_chunks", lit "text", lit "tags", lit "source_type",
      lit "language", lit "published_at", lit "quality_score"].Nodup
    decide
  refine ⟨hkeys, trivial, hint _ fun k hk => hints k (Or.inl hk), trivial, hstr _, htexts _,
    hint _ fun k hk => hints k (Or.inr (Or.inl hk)),
    hint _ fun k hk => hints k (Or.inr (Or.inr hk)), trivial, htexts _, hstr _, hstr _, hstr _,
    hfloat, trivial⟩

theorem ended_writeLines (rs : List (List (Str × Value F))) : ended (writeLines rs) = true := by
  cases rs using List.reverseRecOn with
  | nil => rfl
  | append_singleton rs r =>
    rw [writeLines_append, writeLines_cons]
    simp [ended, writeLines, List.getLast?_append]

theorem not_ended {rs : List (List (Str × Value F))} {text : Str}
    (h : text ++ [10] = writeLines rs) : ended text = false := by
  obtain ⟨init, r, -, rfl⟩ := exists_of_unended h
  have hbrace : writeLines init ++ dumps (.obj r) =
      (writeLines init ++ 123 :: dumpFields r) ++ [125] := by
    rw [List.append_assoc]
    rfl
  rw [ended, hbrace, List.getLast?_concat]
  rfl

/-- The text after an export that opened the file. -/
theorem text_exportChunks {full : Bool} {ending : Ending} {n : Nat}
    (h : ending.chars (s.lines sha256 p full) = some n) :
    (s.exportChunks sha256 p full ending).text =
      (if full then [] else s.text) ++ (s.lines sha256 p full).take n := by
  cases ending with
  | completes =>
    cases h
    rw [List.take_length]
    rfl
  | unopened => cases h
  | diesAfter n' =>
    cases h
    rfl

theorem articles_exportChunks (full : Bool) (ending : Ending) :
    (s.exportChunks sha256 p full ending).articles = s.articles := by
  cases ending with
  | completes => rfl
  | unopened => rfl
  | diesAfter n => rfl

omit [FloatText F] in
theorem selected_sized (hsized : ∀ a ∈ s.articles, Sized limit sha256 p a) (full : Bool) :
    ∀ c ∈ s.selected sha256 p full, Fits limit (.obj (chunkFields c)) := by
  intro c hc
  obtain ⟨a, ha, hc⟩ := List.mem_flatMap.mp hc
  exact hsized a (List.mem_of_mem_filter ha) c hc

omit [FloatText F] in
theorem selected_writable (hsized : ∀ a ∈ s.articles, Sized limit sha256 p a) (full : Bool) :
    ∀ r ∈ (s.selected sha256 p full).map chunkFields, Writable limit r := by
  intro r hr
  obtain ⟨c, hc, rfl⟩ := List.mem_map.mp hr
  exact writable_chunk (selected_sized hsized full c hc)

/-- A whole export of a file that was intact, or that it opened anew. -/
theorem intact_export {out : List (Chunk F)} {full : Bool} {ending : Ending} {n : Nat}
    (hn : ending.chars (s.lines sha256 p full) = some n)
    (hwhole : Whole sha256 p s (.exports full ending))
    (hout : full = true ∨ Intact (out.map chunkFields) s.text) :
    Intact (((if full then [] else out) ++ (s.selected sha256 p full).take
        (complete n ((s.selected sha256 p full).map chunkFields)).length).map chunkFields)
      (s.exportChunks sha256 p full ending).text := by
  obtain ⟨hinside, hbegin⟩ := hwhole n hn
  rw [text_exportChunks hn, List.map_append, List.map_take, ← complete_eq_take]
  cases full with
  | true => exact intact_new hinside
  | false =>
    rcases hout with hfull | hout
    · cases hfull
    · change Intact (out.map chunkFields ++ _) (s.text ++ _)
      rcases hout with hout | hout
      · rw [hout]
        exact intact_cut hinside
      · rcases hbegin with hfull | hended | hnothing
        · cases hfull
        · rw [not_ended hout] at hended
          cases hended
        · have hnothing : (s.lines sha256 p false).take n = [] := hnothing
          rw [complete_nothing hnothing, hnothing, List.append_nil, List.append_nil]
          exact Or.inr hout

/-- An export of a file that was ruined, unless it opened it anew; and one that was not
whole. -/
theorem ruined_export {out : List (Chunk F)} {full : Bool} {ending : Ending} {n : Nat}
    (hsized : ∀ a ∈ s.articles, Sized limit sha256 p a)
    (hwritable : ∀ c ∈ out, Fits limit (.obj (chunkFields c)))
    (hn : ending.chars (s.lines sha256 p full) = some n)
    (htext : Ruined F limit s.text ∧ full = false ∨
      ¬ Whole sha256 p s (.exports full ending) ∧
        (Ruined F limit s.text ∨ Intact (out.map chunkFields) s.text)) :
    Ruined F limit (s.exportChunks sha256 p full ending).text := by
  have hnew := selected_writable hsized full
  have hcut := cut_take hnew n
  have hold : ∀ r ∈ out.map chunkFields, Writable limit r := by
    intro r hr
    obtain ⟨c, hc, rfl⟩ := List.mem_map.mp hr
    exact writable_chunk (hwritable c hc)
  rw [text_exportChunks hn]
  rcases htext with ⟨hruined, rfl⟩ | ⟨hwhole, htext⟩
  · exact hruined.append hcut
  · have hdamage : inside n ((s.selected sha256 p full).map chunkFields) = true ∨
        full = false ∧ ended s.text = false ∧ (s.lines sha256 p full).take n ≠ [] := by
      by_contra hnot
      simp only [not_or, Bool.not_eq_true, not_and, not_not] at hnot
      refine hwhole fun n' hn' => ?_
      obtain rfl : n = n' := Option.some.inj (hn.symm.trans hn')
      refine ⟨hnot.1, ?_⟩
      cases full with
      | true => exact Or.inl rfl
      | false =>
        cases hended : ended s.text with
        | true => exact Or.inr (Or.inl rfl)
        | false => exact Or.inr (Or.inr (hnot.2 rfl hended))
    have hwritten : inside n ((s.selected sha256 p full).map chunkFields) = true →
        (s.lines sha256 p full).take n ≠ [] := ne_nil_of_inside
    cases full with
    | true =>
      rcases hdamage with hinside | ⟨h, -⟩
      · exact ruined_new hnew hinside
      · cases h
    | false =>
      change Ruined F limit (s.text ++ _)
      rcases htext with hruined | hout | hout
      · exact hruined.append hcut
      · rcases hdamage with hinside | ⟨-, hended, -⟩
        · rw [hout]
          exact ruined_cut hold hnew hinside
        · rw [hout, ended_writeLines] at hended
          cases hended
      · apply ruined_unended hold hout hcut
        rcases hdamage with hinside | ⟨-, -, hne⟩
        · exact hwritten hinside
        · exact hne

/-! ## Runs -/

/-- An event of the export whose file is the list of its chunks. -/
inductive Coarse : Event F → Vectors.Event F → Prop
  | insert (a : Article F) : Coarse (.insert a) (.insert a)
  | completes (full : Bool) : Coarse (.exports full .completes) (.exports full .completes)
  | unopened (full : Bool) : Coarse (.exports full .unopened) (.exports full .unopened)
  | diesAfter (full : Bool) (chars lines : Nat) :
      Coarse (.exports full (.diesAfter chars)) (.exports full (.diesAfter lines))

/-- The same export of a file of chunks. -/
theorem exists_coarse {c : Corpus F} (harticles : c.articles = s.articles)
    (hlastId : c.lastId = s.lastId) {full : Bool} {ending : Ending} {n : Nat}
    (hn : ending.chars (s.lines sha256 p full) = some n) :
    ∃ ending', Coarse (F := F) (.exports full ending) (.exports full ending') ∧
      (c.exportChunks sha256 p full ending').articles =
        (s.exportChunks sha256 p full ending).articles ∧
      (c.exportChunks sha256 p full ending').lastId = (s.exportChunks sha256 p full ending).lastId ∧
      (c.exportChunks sha256 p full ending').out = (if full then [] else c.out) ++
        (s.selected sha256 p full).take
          (complete n ((s.selected sha256 p full).map chunkFields)).length := by
  obtain ⟨articles, out, lastId⟩ := c
  obtain rfl : articles = s.articles := harticles
  obtain rfl : lastId = s.lastId := hlastId
  cases ending with
  | unopened => cases hn
  | completes =>
    obtain rfl : (s.lines sha256 p full).length = n := Option.some.inj hn
    refine ⟨.completes, Coarse.completes full, rfl, rfl, ?_⟩
    have hall := (complete_all ((s.selected sha256 p full).map chunkFields)).2
    have hlength : (complete (s.lines sha256 p full).length
        ((s.selected sha256 p full).map chunkFields)).length =
          (s.selected sha256 p full).length := by
      rw [Disk.lines, hall, List.length_map]
    rw [hlength, List.take_length]
    rfl
  | diesAfter n' =>
    exact ⟨.diesAfter _, Coarse.diesAfter full n' _, rfl, rfl, rfl⟩

theorem undamaged_nil : Undamaged (F := F) sha256 p [] := by
  intro bs e cs t h
  simp at h

/-- The last event, and what was before it unless it opened the file anew. -/
theorem undamaged_concat {es : List (Event F)} (hrun : run (step sha256 p) .empty es = some s)
    (e : Event F) :
    Undamaged sha256 p (es ++ [e]) ↔
      Whole sha256 p s e ∧ (e.reopens = true ∨ Undamaged sha256 p es) := by
  constructor
  · intro h
    refine ⟨h es e [] s rfl hrun (fun _ h => nomatch h), ?_⟩
    cases he : e.reopens with
    | true => exact Or.inl rfl
    | false =>
      right
      rintro bs e' cs t rfl ht hcs
      refine h bs e' (cs ++ [e]) t ?_ ht fun e'' he'' => ?_
      · rw [List.append_assoc]
        rfl
      · rcases List.mem_append.mp he'' with he'' | he''
        · exact hcs e'' he''
        · obtain rfl := List.mem_singleton.mp he''
          exact he
  · rintro ⟨hwhole, hbefore⟩ bs e' cs t heq ht hcs
    cases cs using List.reverseRecOn with
    | nil =>
      obtain ⟨rfl, hlast⟩ := List.append_inj' heq rfl
      obtain rfl : e = e' := List.head_eq_of_cons_eq hlast
      obtain rfl : s = t := Option.some.inj (hrun.symm.trans ht)
      exact hwhole
    | append_singleton cs e'' =>
      rw [← List.cons_append, ← List.append_assoc] at heq
      obtain ⟨rfl, hlast⟩ := List.append_inj' heq rfl
      obtain rfl : e = e'' := List.head_eq_of_cons_eq hlast
      rcases hbefore with he | hbefore
      · rw [hcs e (List.mem_append_right _ (List.mem_singleton.mpr rfl))] at he
        cases he
      · exact hbefore bs e' cs t rfl ht fun e'' he'' => hcs e'' (List.mem_append_left _ he'')

/-- A run on the text, and a run on the chunks that follows it. -/
structure Follows (limit : Nat) (sha256 : Str → Str) (p : Params) (es : List (Event F)) (s : Disk F)
    (es' : List (Vectors.Event F)) (c : Corpus F) : Prop where
  coarse : List.Forall₂ Coarse es es'
  run : run (Vectors.step sha256 p) .empty es' = some c
  articles : c.articles = s.articles
  lastId : c.lastId = s.lastId
  sized : ∀ a ∈ s.articles, Sized limit sha256 p a
  fits : ∀ chunk ∈ c.out, Fits limit (.obj (chunkFields chunk))
  intact : Undamaged sha256 p es → Intact (c.out.map chunkFields) s.text
  ruined : ¬ Undamaged sha256 p es → Ruined F limit s.text

theorem Follows.insert {es : List (Event F)} {es' : List (Vectors.Event F)} {c : Corpus F}
    (h : Follows limit sha256 p es s es' c) (hrun : Effects.run (step sha256 p) .empty es = some s)
    {a : Article F} (ha : Inserts s.articles a) (hsized : Sized limit sha256 p a) :
    Follows limit sha256 p (es ++ [.insert a]) (s.insert a) (es' ++ [.insert a]) (c.insert a) := by
  have hundamaged := undamaged_concat hrun (.insert a)
  have hiff : Undamaged sha256 p (es ++ [.insert a]) ↔ Undamaged sha256 p es := by
    rw [hundamaged]
    constructor
    · rintro ⟨-, hreopens | h⟩
      · cases hreopens
      · exact h
    · exact fun h => ⟨trivial, Or.inr h⟩
  refine ⟨List.rel_append h.coarse (List.Forall₂.cons (Coarse.insert a) List.Forall₂.nil), ?_, ?_,
    h.lastId, ?_, h.fits, fun hu => h.intact (hiff.mp hu), fun hu => h.ruined fun hu' =>
      hu (hiff.mpr hu')⟩
  · apply run_snoc h.run
    rw [Vectors.step, h.articles, if_pos ha]
  · change c.articles ++ [a] = s.articles ++ [a]
    rw [h.articles]
  · intro b hb
    rcases List.mem_append.mp hb with hb | hb
    · exact h.sized b hb
    · obtain rfl := List.mem_singleton.mp hb
      exact hsized

theorem Follows.unopened {es : List (Event F)} {es' : List (Vectors.Event F)} {c : Corpus F}
    (h : Follows limit sha256 p es s es' c) (hrun : Effects.run (step sha256 p) .empty es = some s)
    (full : Bool) :
    Follows limit sha256 p (es ++ [.exports full .unopened]) s (es' ++ [.exports full .unopened])
      c := by
  have hundamaged := undamaged_concat hrun (.exports full .unopened)
  have hiff : Undamaged sha256 p (es ++ [.exports full .unopened]) ↔ Undamaged sha256 p es := by
    rw [hundamaged]
    constructor
    · rintro ⟨-, hreopens | h⟩
      · simp [Event.reopens] at hreopens
      · exact h
    · exact fun h => ⟨(fun _ hn => nomatch hn), Or.inr h⟩
  exact ⟨List.rel_append h.coarse (List.Forall₂.cons (Coarse.unopened full) List.Forall₂.nil),
    run_snoc h.run rfl, h.articles, h.lastId, h.sized, h.fits, fun hu => h.intact (hiff.mp hu),
    fun hu => h.ruined fun hu' => hu (hiff.mpr hu')⟩

theorem Follows.exports {es : List (Event F)} {es' : List (Vectors.Event F)} {c : Corpus F}
    (h : Follows limit sha256 p es s es' c) (hrun : Effects.run (step sha256 p) .empty es = some s)
    {full : Bool} {ending : Ending} {n : Nat}
    (hn : ending.chars (s.lines sha256 p full) = some n) :
    ∃ ending', Follows limit sha256 p (es ++ [.exports full ending])
      (s.exportChunks sha256 p full ending) (es' ++ [.exports full ending'])
      (c.exportChunks sha256 p full ending') := by
  obtain ⟨ending', hcoarse, harticles, hlastId, hout⟩ := exists_coarse h.articles h.lastId hn
  have hundamaged := undamaged_concat hrun (.exports full ending)
  have hreopens : (Event.exports full ending : Event F).reopens = full := by
    cases ending with
    | unopened => cases hn
    | completes => simp [Event.reopens]
    | diesAfter n => simp [Event.reopens]
  refine ⟨ending', List.rel_append h.coarse (List.Forall₂.cons hcoarse List.Forall₂.nil),
    run_snoc h.run rfl, harticles, hlastId, ?_, ?_, fun hu => ?_, fun hu => ?_⟩
  · rw [articles_exportChunks]
    exact h.sized
  · intro chunk hchunk
    rw [hout] at hchunk
    rcases List.mem_append.mp hchunk with hchunk | hchunk
    · cases full with
      | true => cases hchunk
      | false => exact h.fits chunk hchunk
    · exact selected_sized h.sized full chunk (List.mem_of_mem_take hchunk)
  · rw [hout]
    rw [hundamaged, hreopens] at hu
    exact intact_export hn hu.1 (hu.2.imp_right h.intact)
  · rw [hundamaged, hreopens] at hu
    refine ruined_export h.sized h.fits hn ?_
    by_cases hes : Undamaged sha256 p es
    · exact Or.inr ⟨fun hwhole => hu ⟨hwhole, Or.inr hes⟩, Or.inr (h.intact hes)⟩
    · by_cases hwhole : Whole sha256 p s (.exports full ending)
      · refine Or.inl ⟨h.ruined hes, ?_⟩
        cases full with
        | true => exact (hu ⟨hwhole, Or.inl rfl⟩).elim
        | false => rfl
      · exact Or.inr ⟨hwhole, Or.inl (h.ruined hes)⟩

/-- Every run on the text is followed by one on the chunks. -/
theorem exists_follows {es : List (Event F)} (hrun : Effects.run (step sha256 p) .empty es = some s)
    (hsized : ∀ a, .insert a ∈ es → Sized limit sha256 p a) :
    ∃ es' c, Follows limit sha256 p es s es' c := by
  suffices hboth : Effects.run (step sha256 p) .empty es = some s ∧
      ((∀ a, .insert a ∈ es → Sized limit sha256 p a) → ∃ es' c, Follows limit sha256 p es s es' c) from
    hboth.2 hsized
  refine run_history (I := fun es s => Effects.run (step sha256 p) .empty es = some s ∧
    ((∀ a, .insert a ∈ es → Sized limit sha256 p a) → ∃ es' c, Follows limit sha256 p es s es' c))
    ?_ ⟨rfl, fun _ => ⟨[], .empty, ?_⟩⟩ hrun
  · rintro es s e t ⟨hrun, hfollows⟩ hstep
    refine ⟨run_snoc hrun hstep, fun hsized => ?_⟩
    obtain ⟨es', c, h⟩ := hfollows fun a ha => hsized a (List.mem_append_left _ ha)
    cases e with
    | insert a =>
      rw [step] at hstep
      split at hstep
      · rename_i ha
        cases hstep
        have hlast := hsized a (List.mem_append_right _ (List.mem_singleton.mpr rfl))
        exact ⟨_, _, h.insert hrun ha hlast⟩
      · cases hstep
    | exports full ending =>
      cases hstep
      cases hn : ending.chars (s.lines sha256 p full) with
      | none =>
        cases ending with
        | unopened => exact ⟨_, _, h.unopened hrun full⟩
        | completes => cases hn
        | diesAfter n => cases hn
      | some n =>
        obtain ⟨ending', hexports⟩ := h.exports hrun hn
        exact ⟨_, _, hexports⟩
  · exact ⟨List.Forall₂.nil, rfl, rfl, rfl, (fun _ h => nomatch h), (fun _ h => nomatch h),
      fun _ => Or.inl rfl, fun hu => (hu undamaged_nil).elim⟩

end Export

/-- The readers can read the file exactly when the file was opened anew since an export died
within a chunk, or appended to a line without its end. -/
theorem readable_iff (limit : Nat) (sha256 : Str → Str) (p : Params) (es : List (Event F)) (s : Disk F)
    (hrun : run (step sha256 p) .empty es = some s)
    (hsized : ∀ a, .insert a ∈ es → Sized limit sha256 p a) :
    (∃ vs : List (Value F), readLines limit s.text = .ok vs) ↔ Undamaged sha256 p es := by
  obtain ⟨es', c, h⟩ := exists_follows hrun hsized
  constructor
  · rintro ⟨vs, hread⟩
    by_contra hnot
    exact readLines_of_ruined (h.ruined hnot) vs hread
  · intro hundamaged
    refine ⟨_, readLines_of_intact (h.intact hundamaged) fun r hr => ?_⟩
    obtain ⟨chunk, hchunk, rfl⟩ := List.mem_map.mp hr
    exact h.fits chunk hchunk

def insertedRun : List (Event TextFloat) := [.insert (shortArticle 1 "https://dev.to/a/1")]

/-- An export dies within the first chunk, and the next one completes. -/
def tornRun : List (Event TextFloat) :=
  insertedRun ++ [.exports false (.diesAfter 20), .exports false .completes]

def wholeRun : List (Event TextFloat) := insertedRun ++ [.exports false .completes]

theorem sized_short : Sized 10 sampleHash .standard (shortArticle 1 "https://dev.to/a/1") := by
  have hints : (articleToChunks sampleHash .standard (shortArticle 1 "https://dev.to/a/1")).all
      (fun c => [c.articleId, c.chunkIndex, c.nChunks].all fun x =>
        x.all fun k => decide ((decimal k.natAbs).length ≤ maxDigits)) = true := by
    decide +kernel
  intro c hc
  have hc := List.all_eq_true.mp hints c hc
  simp only [List.all_cons, List.all_nil, Bool.and_true, Bool.and_eq_true] at hc
  apply fits_chunk
  rintro k (hk | hk | hk)
  · simpa [hk] using hc.1
  · simpa [hk] using hc.2.1
  · simpa [hk] using hc.2.2

theorem exists_inserted : ∃ t, run (step sampleHash .standard) .empty insertedRun = some t ∧
    inside 20 ((t.selected sampleHash .standard false).map chunkFields) = true ∧
    ended t.text = true := by
  have hview : (run (step sampleHash .standard) .empty insertedRun).map (fun t =>
      (inside 20 ((t.selected sampleHash .standard false).map chunkFields), ended t.text)) =
        some (true, true) := by
    decide +kernel
  obtain ⟨t, ht, hboth⟩ := Option.map_eq_some_iff.mp hview
  exact ⟨t, ht, congrArg Prod.fst hboth, congrArg Prod.snd hboth⟩

theorem readable_iff_sample : ∃ s, run (step sampleHash .standard) .empty tornRun = some s ∧
    ¬ ∃ vs : List (Value TextFloat), readLines 10 s.text = .ok vs := by
  obtain ⟨t, ht, hinside, -⟩ := exists_inserted
  obtain ⟨s, hs⟩ : ∃ s, run (step sampleHash .standard) .empty tornRun = some s := by
    rw [tornRun, run_append, ht]
    exact ⟨_, rfl⟩
  refine ⟨s, hs, ?_⟩
  rw [readable_iff 10 sampleHash .standard tornRun s hs]
  · intro hundamaged
    have hwhole := hundamaged insertedRun (.exports false (.diesAfter 20))
      [.exports false .completes] t rfl ht fun e he => by
        obtain rfl := List.mem_singleton.mp he
        rfl
    rw [(hwhole 20 rfl).1] at hinside
    cases hinside
  · intro a ha
    simp only [tornRun, insertedRun, List.cons_append, List.nil_append, List.mem_cons,
      reduceCtorEq, List.not_mem_nil, or_false, Event.insert.injEq] at ha
    rw [ha]
    exact sized_short

/-- Until then they get the chunks of the export whose file is the list of its chunks, in a
run that takes the same course. -/
theorem reads_chunks (limit : Nat) (sha256 : Str → Str) (p : Params) (es : List (Event F)) (s : Disk F)
    (hrun : run (step sha256 p) .empty es = some s)
    (hsized : ∀ a, .insert a ∈ es → Sized limit sha256 p a) (hundamaged : Undamaged sha256 p es) :
    ∃ es' c, List.Forall₂ Coarse es es' ∧ run (Vectors.step sha256 p) .empty es' = some c ∧
      c.articles = s.articles ∧ c.lastId = s.lastId ∧
      readLines limit s.text = .ok (c.out.map fun chunk => .obj (chunkFields chunk)) := by
  obtain ⟨es', c, h⟩ := exists_follows hrun hsized
  refine ⟨es', c, h.coarse, h.run, h.articles, h.lastId, ?_⟩
  rw [readLines_of_intact (h.intact hundamaged), List.map_map]
  · rfl
  · intro r hr
    obtain ⟨chunk, hchunk, rfl⟩ := List.mem_map.mp hr
    exact h.fits chunk hchunk

theorem reads_chunks_sample : ∃ s es', ∃ c : Corpus TextFloat,
    run (step sampleHash .standard) .empty wholeRun = some s ∧
    run (Vectors.step sampleHash .standard) .empty es' = some c ∧
    readLines 10 s.text = .ok (c.out.map fun chunk => .obj (chunkFields chunk)) := by
  obtain ⟨t, ht, -, hended⟩ := exists_inserted
  have hs := run_snoc ht (e := .exports false .completes) rfl
  have hsized : ∀ a, .insert a ∈ wholeRun → Sized 10 sampleHash .standard a := by
    intro a ha
    simp only [wholeRun, insertedRun, List.cons_append, List.nil_append, List.mem_cons,
      reduceCtorEq, List.not_mem_nil, or_false, Event.insert.injEq] at ha
    rw [ha]
    exact sized_short
  have hundamaged : Undamaged sampleHash .standard wholeRun := by
    rw [wholeRun, undamaged_concat ht]
    refine ⟨fun n hn => ?_, Or.inr ?_⟩
    · cases hn
      exact ⟨(complete_all _).1, Or.inr (Or.inl hended)⟩
    · have hempty : run (step (F := TextFloat) sampleHash .standard) .empty [] = some .empty := rfl
      exact (undamaged_concat hempty _).mpr ⟨trivial, Or.inr undamaged_nil⟩
  obtain ⟨es', c, -, hc, -, -, hread⟩ :=
    reads_chunks 10 sampleHash .standard wholeRun _ hs hsized hundamaged
  exact ⟨_, es', c, hs, hc, hread⟩

end WebSpider.Vectors.ChunkFile
