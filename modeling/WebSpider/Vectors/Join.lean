import WebSpider.Vectors.Embed

/-!
# Texts and their vectors

The import joins the lines of the chunk file and the vectors of the archive by
chunk id. An id is the URL and the position of the chunk, so an export with
other parameters gives it another text, and the embedding run skips it because
the archive has the id (`rechunked_text_keeps_vector`). `vectors_match_iff` says
exactly when every joined pair is a text with a vector the API returned for it.
-/

namespace WebSpider.Vectors

open Text Json Effects

variable {F V : Type}

/-- `{c["chunk_id"]: c for c in lines}`: the last line of an id counts. -/
def chunkMap (items : List (Chunk F)) (id : Str) : Option (Chunk F) :=
  items.reverse.find? fun c => decide (c.chunkId = id)

theorem chunkMap_append (items new : List (Chunk F)) (id : Str) :
    chunkMap (items ++ new) id = (chunkMap new id).or (chunkMap items id) := by
  rw [chunkMap, List.reverse_append, List.find?_append]
  rfl

theorem chunkId_of_chunkMap {items : List (Chunk F)} {id : Str} {c : Chunk F}
    (h : chunkMap items id = some c) : c ∈ items ∧ c.chunkId = id :=
  ⟨List.mem_reverse.mp (List.mem_of_find?_eq_some h), by simpa using List.find?_some h⟩

namespace Join

/-- The corpus with its chunk file, the archive, and the texts and vectors of all
requests the API answered. No function reads the last. -/
structure Files (F V : Type) where
  corpus : Corpus F
  archive : Archive V
  returned : List (Str × V)

def Files.empty : Files F V := ⟨.empty, [], []⟩

/-- A new article, a run of the export, or a run of the embedding. -/
inductive Event (F V : Type) where
  | insert (a : Article F)
  | exports (p : Params) (full : Bool) (ending : Ending)
  | embed (api : Api V)

variable (sha256 : Str → Str) (cfg : EmbedConfig)

/-- The lines a run of the export writes. -/
def written (p : Params) (full : Bool) (ending : Ending) (s : Corpus F) : List (Chunk F) :=
  let lines := chunksSince sha256 p (if full then 0 else s.lastId) s.articles
  match ending with
  | .completes => lines
  | .unopened => []
  | .diesAfter n => lines.take n

/-- The chunks of the file that a run of the embedding gets vectors for. -/
def gets (api : Api V) (s : Files F V) : List (Chunk F × V) :=
  obtained cfg api (todoOf s.archive s.corpus.out)

def textVector (cv : Chunk F × V) : Str × V := (cv.1.text, cv.2)

def step (s : Files F V) : Event F V → Option (Files F V)
  | .insert a => if Inserts s.corpus.articles a then some { s with corpus := s.corpus.insert a }
      else none
  | .exports p full ending =>
    some { s with corpus := s.corpus.exportChunks sha256 p full ending }
  | .embed api => some { s with
      archive := (embedRun cfg api.reply s.archive s.corpus.out none).archive
      returned := s.returned ++ (gets cfg api s).map textVector }

/-! ## The property and the condition -/

/-- Every pair that the import joins is a text with a vector returned for it. -/
def Matched (s : Files F V) : Prop :=
  ∀ x ∈ s.archive, ∀ c, chunkMap s.corpus.out x.1 = some c → (c.text, x.2) ∈ s.returned

def AlwaysMatched (es : List (Event F V)) : Prop :=
  ∀ bs e cs t, es = bs ++ e :: cs → run (step sha256 cfg) .empty (bs ++ [e]) = some t → Matched t

/-- An export writes no text under an archived id that the archived vector was not
returned for. A run of the embedding gets no vector for a line that a later line of
the same id shadows, unless that vector is returned for the later text as well. -/
def Faithful (s : Files F V) : Event F V → Prop
  | .insert _ => True
  | .exports p full ending => ∀ x ∈ s.archive, ∀ c,
      chunkMap (written sha256 p full ending s.corpus) x.1 = some c → (c.text, x.2) ∈ s.returned
  | .embed api => ∀ cv ∈ gets cfg api s, ∀ c, chunkMap s.corpus.out cv.1.chunkId = some c →
      (c.text, cv.2) ∈ s.returned ++ (gets cfg api s).map textVector

variable {sha256 cfg}

theorem out_exportChunks (p : Params) (full : Bool) (ending : Ending) (s : Corpus F) :
    (s.exportChunks sha256 p full ending).out =
      (if full ∧ ending ≠ .unopened then [] else s.out) ++ written sha256 p full ending s := by
  cases ending with
  | completes => cases full <;> rfl
  | unopened => cases full <;> exact (List.append_nil _).symm
  | diesAfter n => cases full <;> rfl

theorem matched_exports {s : Files F V} (hs : Matched s) (p : Params) (full : Bool)
    (ending : Ending) :
    Matched { s with corpus := s.corpus.exportChunks sha256 p full ending } ↔
      Faithful sha256 cfg s (.exports p full ending) := by
  have hmap : ∀ id, chunkMap (s.corpus.exportChunks sha256 p full ending).out id =
      (chunkMap (written sha256 p full ending s.corpus) id).or
        (chunkMap (if full ∧ ending ≠ .unopened then [] else s.corpus.out) id) := by
    intro id
    rw [out_exportChunks, chunkMap_append]
  constructor
  · intro h x hx c hc
    apply h x hx c
    rw [hmap, hc]
    rfl
  · intro h x hx c hc
    have hc : chunkMap (s.corpus.exportChunks sha256 p full ending).out x.1 = some c := hc
    rw [hmap] at hc
    rcases Option.or_eq_some_iff.mp hc with hc | ⟨-, hc⟩
    · exact h x hx c hc
    · split at hc
      · cases hc
      · exact hs x hx c hc

theorem matched_embed {s : Files F V} (hs : Matched s) (api : Api V) :
    Matched { s with
      archive := (embedRun cfg api.reply s.archive s.corpus.out none).archive
      returned := s.returned ++ (gets cfg api s).map textVector } ↔
      Faithful sha256 cfg s (.embed api) := by
  have harchive := (embedRun_completes cfg api s.archive s.corpus.out).1
  constructor
  · intro h cv hcv c hc
    refine h (entry cv) ?_ c hc
    show entry cv ∈ (embedRun cfg api.reply s.archive s.corpus.out none).archive
    rw [harchive]
    exact List.mem_append_right _ (List.mem_map_of_mem hcv)
  · intro h x hx c hc
    have hx : x ∈ (embedRun cfg api.reply s.archive s.corpus.out none).archive := hx
    rw [harchive] at hx
    rcases List.mem_append.mp hx with hx | hx
    · exact List.mem_append_left _ (hs x hx c hc)
    · obtain ⟨cv, hcv, rfl⟩ := List.mem_map.mp hx
      exact h cv hcv c hc

theorem matched_step {s t : Files F V} {e : Event F V} (hs : Matched s)
    (h : step sha256 cfg s e = some t) : Matched t ↔ Faithful sha256 cfg s e := by
  cases e with
  | insert a =>
    simp only [step] at h
    split at h
    · cases h
      exact ⟨fun _ => trivial, fun _ => hs⟩
    · cases h
  | exports p full ending =>
    cases h
    exact matched_exports hs p full ending
  | embed api =>
    cases h
    exact matched_embed hs api

theorem matched_empty : Matched (Files.empty : Files F V) := by
  intro x hx
  cases hx

/-- Every pair joined after any operation is a text with a vector returned for it,
exactly when every operation is faithful. -/
theorem vectors_match_iff (sha256 : Str → Str) (cfg : EmbedConfig) (es : List (Event F V)) :
    AlwaysMatched sha256 cfg es ↔ Along (step sha256 cfg) (Faithful sha256 cfg) .empty es := by
  refine along_iff (J := Matched) (P := fun _ => Matched) ?_ ?_ ?_ matched_empty es
  · exact fun s e t hs hK h => (matched_step hs h).mpr hK
  · exact fun s e t hs h => matched_step hs h
  · intro s e h
    cases e with
    | insert a => trivial
    | exports p full ending => cases h
    | embed api => cases h

/-! ## An export with other parameters -/

/-- An API whose vectors show the texts they are of. -/
def echoApi : Api Str where
  embed _ texts := some texts
  length_embed := by
    intro k texts vs h
    cases h
    rfl

def sampleConfig : EmbedConfig := ⟨32, 5000, by decide⟩

def longArticle : Article TextFloat :=
  { shortArticle 1 "https://dev.to/a/1" with
    content := some (lit "Use exponential backoff with full jitter.\n\nHonor the Retry-After header of the server.") }

/-- The text of the first chunk is cut short by the second export, and its vector
is still that of the whole. -/
theorem rechunked_text_keeps_vector :
    ¬ ∀ es : List (Event TextFloat Str), AlwaysMatched sampleHash sampleConfig es := by
  intro hmatches
  have hend : (run (step sampleHash sampleConfig) .empty
      ([.insert longArticle, .exports .standard true .completes, .embed echoApi] ++
        [.exports ⟨50, 0, 30⟩ true .completes])).map (fun t =>
          t.archive.all fun x => (chunkMap t.corpus.out x.1).all fun c =>
            decide ((c.text, x.2) ∈ t.returned)) = some false := by
    decide +kernel
  obtain ⟨t, hrun, hview⟩ := Option.map_eq_some_iff.mp hend
  have hmatched := hmatches _ _ _ [] t rfl hrun
  refine absurd hview (Bool.not_eq_false _ ▸ ?_)
  apply List.all_eq_true.mpr
  intro x hx
  cases hc : chunkMap t.corpus.out x.1 with
  | none => rfl
  | some c => exact decide_eq_true (hmatched x hx c hc)

end Join

end WebSpider.Vectors
