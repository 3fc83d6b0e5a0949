import WebSpider.Text.Trim

/-!
# Question and answer documents

The crawler composes a StackExchange question and its best answer into one
Markdown document (`composeDoc`), and the export of training pairs takes it apart
again (`parseQa`). The line between the two parts is not escaped, so a question
that has this line itself is cut there (`heading_in_question`).
`parse_composeDoc` says for which questions the two are inverse.
-/

namespace WebSpider.Sft

open Text

/-! ## Composing -/

structure Answer where
  score : Int
  accepted : Bool
  body : Str
  deriving DecidableEq

structure Question where
  title : Str
  body : Str

/-- `html.UnescapeString`, and the conversion of HTML to Markdown, which may fail. -/
structure Converter where
  unescapeString : Str → Str
  convertString : Str → Option Str

/-- The loop of `bestAnswer`. -/
def bestFrom (best : Option Answer) : List Answer → Option Answer
  | [] => best
  | a :: answers =>
    if a.accepted then some a
    else if a.score ≤ 0 then bestFrom best answers
    else match best with
      | none => bestFrom (some a) answers
      | some b => bestFrom (some (if b.score < a.score then a else b)) answers

/-- The accepted answer, else the first of those with the highest positive score. -/
def bestAnswer (answers : List Answer) : Option Answer := bestFrom none answers

/-- Go's `unicode.IsSpace`. -/
def goIsSpace (c : Nat) : Bool :=
  decide (9 ≤ c ∧ c ≤ 13 ∨ c = 32 ∨ c = 0x85 ∨ c = 0xA0 ∨ c = 0x1680 ∨
    0x2000 ≤ c ∧ c ≤ 0x200A ∨ c = 0x2028 ∨ c = 0x2029 ∨ c = 0x202F ∨ c = 0x205F ∨ c = 0x3000)

/-- `strings.TrimSpace` -/
def trimSpace (s : Str) : Str := trimBy goIsSpace s

/-- `_ANSWER_SEP`, which `composeDoc` writes as well. -/
def answerSep : Str := 10 :: lit "## Top answer" ++ [10]

/-- The document without an answer. -/
def questionPart (title qMd : Str) : Str :=
  lit "# " ++ title ++ [10, 10] ++ trimSpace qMd ++ [10]

/-- What an answer adds to it: nothing if it cannot be converted or is blank. -/
def answerPart (aMd : Option Str) : Str :=
  match aMd with
  | none => []
  | some aMd => if trimSpace aMd = [] then [] else answerSep ++ [10] ++ trimSpace aMd ++ [10]

/-- `composeDoc` -/
def composeDoc (conv : Converter) (requireAnswered : Bool) (q : Question) (answers : List Answer) :
    Option Str :=
  if requireAnswered ∧ bestAnswer answers = none then none
  else match conv.convertString q.body with
    | none => none
    | some qMd =>
      if trimSpace qMd = [] then none
      else some (questionPart (conv.unescapeString q.title) qMd ++
        answerPart ((bestAnswer answers).bind fun a => conv.convertString a.body))

/-! ## Taking apart -/

/-- `_TITLE_RE.match` of a text that does not end with white space: the title, and
what follows the match. -/
def matchTitle : Str → Option (Str × Str)
  | [] => none
  | c :: s =>
    let body := s.dropWhile isSpace
    if c = 35 ∧ s.takeWhile isSpace ≠ [] ∧ body ≠ [] then
      some (body.takeWhile (fun d => decide (d ≠ 10)), body.dropWhile fun d => decide (d ≠ 10))
    else none

/-- `parse_qa` -/
def parseQa (contentMd : Str) (minAnswerChars : Nat) : Option (Str × Str × Str) :=
  match matchTitle (strip contentMd) with
  | none => none
  | some (title, rest) =>
    match partition answerSep (strip rest) with
    | none => none
    | some (question, answer) =>
      if strip question = [] ∨ (strip answer).length < minAnswerChars then none
      else some (strip title, strip question, strip answer)

/-! ## White space -/

theorem isSpace_of_goIsSpace (c : Nat) (h : goIsSpace c = true) : isSpace c = true := by
  simp only [goIsSpace, isSpace, isSpaceCode, Glyph.code, id, decide_eq_true_eq] at *
  omega

theorem strip_trimSpace (s : Str) : strip (trimSpace s) = strip s :=
  trimBy_trimBy isSpace_of_goIsSpace s

theorem allOf_newlines : AllOf isSpace ([10, 10] : Str) := by
  intro c hc
  simp only [List.mem_cons, List.not_mem_nil, or_false, or_self] at hc
  rw [hc]
  rfl

theorem allOf_newline : AllOf isSpace ([10] : Str) := by
  intro c hc
  rw [List.mem_singleton.mp hc]
  rfl

/-! ## The title -/

/-- The title line is matched, and what follows it starts with the line end. -/
theorem matchTitle_title {title : Str} (htitle : strip title ≠ []) (hline : 10 ∉ title)
    (rest : Str) : ∃ group, matchTitle (lit "# " ++ title ++ 10 :: rest) =
      some (group, 10 :: rest) ∧ strip group = strip title := by
  obtain ⟨lead, trail, hsplit, hlead, htrail⟩ := exists_trimBy isSpace title
  obtain ⟨⟨c, core, hcore, hc⟩, -⟩ := trimBy_ends isSpace htitle
  have hgroup : lit "# " ++ title ++ 10 :: rest =
      35 :: ((32 :: lead) ++ (c :: (core ++ trail) ++ 10 :: rest)) := by
    rw [hsplit, hcore]
    simp [lit]
  have hspace : (32 :: lead).all isSpace = true := by
    rw [List.all_cons, List.all_eq_true.mpr hlead]
    rfl
  obtain ⟨htake, hdrop⟩ := span_run hspace (fun d t h => by
    obtain ⟨rfl, -⟩ := List.cons.inj h
    exact hc : ∀ d t, c :: (core ++ trail) ++ 10 :: rest = d :: t → isSpace d = false)
  have hnoline : (c :: (core ++ trail)).all (fun d => decide (d ≠ 10)) = true := by
    refine List.all_eq_true.mpr fun d hd => decide_eq_true fun h => hline ?_
    rw [hsplit, hcore, ← h, List.append_assoc, List.cons_append]
    exact List.mem_append_right _ hd
  obtain ⟨htakeLine, hdropLine⟩ := span_run hnoline (fun d t h => by
    obtain ⟨rfl, -⟩ := List.cons.inj h
    rfl : ∀ d t, 10 :: rest = d :: t → decide (d ≠ 10) = false)
  refine ⟨c :: (core ++ trail), ?_, ?_⟩
  · rw [hgroup, matchTitle]
    simp only [htake, hdrop, htakeLine, hdropLine]
    exact if_pos ⟨trivial, List.cons_ne_nil _ _, List.cons_ne_nil _ _⟩
  · have hstrip : strip (c :: (core ++ trail)) = strip (strip title ++ trail) := by
      rw [show strip title = c :: core from hcore]
      rfl
    rw [hstrip]
    exact (trimBy_append_right htrail _).trans (trimBy_idempotent _ _)

/-- Trimming a document cuts off what is blank at its end. -/
theorem strip_document (title body : Str) {trail init : Str} {d : Nat} (hbody : body = init ++ [d])
    (hd : isSpace d = false) (htrail : AllOf isSpace trail) :
    strip (lit "# " ++ title ++ [10, 10] ++ body ++ trail) =
      lit "# " ++ title ++ 10 :: (10 :: body) := by
  have hshape : lit "# " ++ title ++ [10, 10] ++ body = 35 :: 32 :: (title ++ [10, 10] ++ body) := by
    simp [lit]
  have hlast : lit "# " ++ title ++ [10, 10] ++ body =
      (lit "# " ++ title ++ [10, 10] ++ init) ++ [d] := by
    rw [hbody, ← List.append_assoc]
  rw [strip, trimBy_append_right htrail, trimBy_of_ends hshape rfl hlast hd]
  simp

/-! ## The separator -/

/-- The only part of the separator before its end that ends with a newline is its
first character. -/
theorem take_answerSep : ∀ k < answerSep.length, 0 < k →
    (answerSep.take k).getLast? = some 10 → k = 1 := by
  decide

/-- After a text that ends with a newline the separator does not occur earlier than
it stands there, unless it occurs in the text. -/
theorem not_prefix_of_not_infix {text rest : Str} (hlast : text.getLast? = some 10)
    (hnot : ¬ answerSep <:+: text) {u₁ u₂ : Str} (hsplit : text = u₁ ++ u₂) (hne : u₂ ≠ []) :
    ¬ answerSep <+: u₂ ++ answerSep ++ rest := by
  intro hpre
  rw [List.append_assoc] at hpre
  by_cases hlength : answerSep.length ≤ u₂.length
  · have hwithin : answerSep <+: u₂ :=
      List.prefix_of_prefix_length_le hpre (List.prefix_append _ _) hlength
    exact hnot (hsplit ▸ hwithin.isInfix.trans (List.suffix_append _ _).isInfix)
  · have hpart : u₂ <+: answerSep :=
      List.prefix_of_prefix_length_le (List.prefix_append _ _) hpre (by omega)
    have htake : u₂ = answerSep.take u₂.length := List.prefix_iff_eq_take.mp hpart
    have hend : u₂.getLast? = some 10 := by
      rw [hsplit, List.getLast?_append_of_ne_nil _ hne] at hlast
      exact hlast
    have hone : u₂.length = 1 :=
      take_answerSep _ (by omega) (List.length_pos_of_ne_nil hne) (htake ▸ hend)
    have hu₂ : u₂ = [10] := by
      rw [hone] at htake
      exact htake
    -- the next character of the separator is not a newline
    rw [hu₂] at hpre
    obtain ⟨w, hw⟩ := hpre
    exact absurd (List.cons.inj (List.cons.inj hw).2).1 (by decide)

/-- The text of a question in its document, up to the separator. -/
def askedText (qMd : Str) : Str := (trimSpace qMd).dropWhile isSpace ++ [10]

/-- The text between the leading white space of a question and the separator is the
stripped question and white space. -/
theorem exists_askedText {qMd : Str} (hq : strip qMd ≠ []) : ∃ lead trail,
    trimSpace qMd = lead ++ strip qMd ++ trail ∧ askedText qMd = strip qMd ++ (trail ++ [10]) ∧
      AllOf isSpace lead ∧ AllOf isSpace (trail ++ [10]) := by
  obtain ⟨lead, trail, hsplit, hlead, htrail⟩ := exists_trimBy isSpace (trimSpace qMd)
  have hcore : trimBy isSpace (trimSpace qMd) = strip qMd := strip_trimSpace qMd
  rw [hcore] at hsplit
  obtain ⟨⟨c, core, hhead, hc⟩, -⟩ := trimBy_ends isSpace hq
  have hhead : strip qMd = c :: core := hhead
  refine ⟨lead, trail, hsplit, ?_, hlead, fun d hd => ?_⟩
  · have hdrop : (lead ++ (strip qMd ++ trail)).dropWhile isSpace = strip qMd ++ trail := by
      rw [List.dropWhile_append_of_pos hlead, hhead, List.cons_append]
      exact List.dropWhile_cons_of_neg (by rw [hc]; exact Bool.false_ne_true)
    rw [askedText, hsplit, List.append_assoc, hdrop, List.append_assoc]
  · rcases List.mem_append.mp hd with hd | hd
    · exact htrail d hd
    · exact allOf_newline d hd

/-- An occurrence of the separator in the question starts before the end of the
stripped question. -/
theorem lt_length_strip {core blank u v : Str} (hblank : AllOf isSpace blank)
    (h : core ++ blank = u ++ answerSep ++ v) : u.length < core.length := by
  by_contra hle
  have hle : core.length ≤ u.length := by omega
  have hpre : core <+: u := by
    refine List.prefix_of_prefix_length_le (List.prefix_append core blank) ?_ hle
    rw [h, List.append_assoc]
    exact List.prefix_append _ _
  obtain ⟨m, rfl⟩ := hpre
  rw [List.append_assoc, List.append_assoc] at h
  have hrest : blank = m ++ (answerSep ++ v) := List.append_cancel_left h
  have hhash : (35 : Nat) ∈ blank := by
    rw [hrest]
    exact List.mem_append_right _ (List.mem_append_left _ (by decide))
  exact absurd (hblank 35 hhash) (by decide)

/-! ## The round trip -/

/-- A separator within the question comes first, and leaves less than the question
before it. -/
theorem partition_asked_inside {qMd rest : Str} (hq : strip qMd ≠ [])
    (hwithin : answerSep <:+: askedText qMd) :
    ∃ u v, partition answerSep (askedText qMd ++ rest) = some (u, v) ∧ strip u ≠ strip qMd := by
  obtain ⟨-, qTrail, -, hasked, -, hqTrail⟩ := exists_askedText hq
  obtain ⟨u, v, huv⟩ := hwithin
  obtain ⟨u', v', hpart, hle⟩ := @partition_le _ _ answerSep u (v ++ rest)
  have hshort : u.length < (strip qMd).length :=
    lt_length_strip hqTrail (hasked.symm.trans huv.symm)
  refine ⟨u', v', ?_, fun heq => ?_⟩
  · rw [← hpart, ← huv]
    simp
  · have hlength := length_trimBy_le isSpace u'
    rw [show trimBy isSpace u' = strip qMd from heq] at hlength
    omega

/-- Without a separator within the question, the text is divided behind it. -/
theorem partition_asked {qMd rest : Str} (hwithin : ¬ answerSep <:+: askedText qMd) :
    partition answerSep (askedText qMd ++ answerSep ++ rest) = some (askedText qMd, rest) := by
  have hlast : (askedText qMd).getLast? = some 10 := List.getLast?_concat
  exact partition_append fun u v hsplit hne => not_prefix_of_not_infix hlast hwithin hsplit hne

/-- The document with an answer is taken apart at the separator it was composed
with, if that is the first. -/
theorem parse_answered {title qMd aMd : Str} (htitle : strip title ≠ []) (hline : 10 ∉ title)
    (hq : strip qMd ≠ []) (ha : strip aMd ≠ []) :
    parseQa (questionPart title qMd ++ (answerSep ++ [10] ++ trimSpace aMd ++ [10])) 0 =
        some (strip title, strip qMd, strip aMd) ↔ ¬ answerSep <:+: askedText qMd := by
  obtain ⟨qLead, qTrail, hqSplit, hasked, hqLead, hqTrail⟩ := exists_askedText hq
  obtain ⟨aLead, aTrail, haSplit, haLead, haTrail⟩ := exists_trimBy isSpace (trimSpace aMd)
  have haCore : trimBy isSpace (trimSpace aMd) = strip aMd := strip_trimSpace aMd
  rw [haCore] at haSplit
  obtain ⟨⟨qHead, qRest, hqHead, hqHeadNot⟩, -⟩ := trimBy_ends isSpace hq
  have hqHead : strip qMd = qHead :: qRest := hqHead
  obtain ⟨-, aInit, aLast, haLast, haLastNot⟩ := trimBy_ends isSpace ha
  have haLast : strip aMd = aInit ++ [aLast] := haLast
  -- what follows the title, without the white space at the end
  have hdoc : questionPart title qMd ++ (answerSep ++ [10] ++ trimSpace aMd ++ [10]) =
      lit "# " ++ title ++ [10, 10] ++
        (qLead ++ (askedText qMd ++ answerSep ++ (10 :: aLead ++ strip aMd))) ++
          (aTrail ++ [10]) := by
    rw [questionPart, hqSplit, haSplit, hasked]
    simp
  have htrail : AllOf isSpace (aTrail ++ [10]) := by
    intro c hc
    rcases List.mem_append.mp hc with hc | hc
    · exact haTrail c hc
    · exact allOf_newline c hc
  have hbody : qLead ++ (askedText qMd ++ answerSep ++ (10 :: aLead ++ strip aMd)) =
      (qLead ++ (askedText qMd ++ answerSep ++ (10 :: aLead ++ aInit))) ++ [aLast] := by
    rw [haLast]
    simp
  obtain ⟨group, hmatch, hgroup⟩ := matchTitle_title htitle hline
    (10 :: (qLead ++ (askedText qMd ++ answerSep ++ (10 :: aLead ++ strip aMd))))
  have hrest : strip (10 :: 10 :: (qLead ++ (askedText qMd ++ answerSep ++
      (10 :: aLead ++ strip aMd)))) = askedText qMd ++ answerSep ++ (10 :: aLead ++ strip aMd) := by
    have hhead : askedText qMd ++ answerSep ++ (10 :: aLead ++ strip aMd) =
        qHead :: (qRest ++ (qTrail ++ [10]) ++ answerSep ++ (10 :: aLead ++ strip aMd)) := by
      rw [hasked, hqHead]
      simp
    have hlast : askedText qMd ++ answerSep ++ (10 :: aLead ++ strip aMd) =
        (askedText qMd ++ answerSep ++ (10 :: aLead ++ aInit)) ++ [aLast] := by
      rw [haLast]
      simp
    refine (trimBy_append_left allOf_newlines _).trans ((trimBy_append_left hqLead _).trans ?_)
    exact trimBy_of_ends hhead hqHeadNot hlast haLastNot
  rw [hdoc, parseQa, strip_document title _ hbody haLastNot htrail, hmatch]
  simp only [hrest]
  by_cases hwithin : answerSep <:+: askedText qMd
  · refine iff_of_false (fun hsome => ?_) (not_not_intro hwithin)
    obtain ⟨u, v, hpart, hne⟩ := @partition_asked_inside qMd
      (answerSep ++ (10 :: aLead ++ strip aMd)) hq hwithin
    rw [List.append_assoc, hpart] at hsome
    dsimp only at hsome
    split at hsome
    · cases hsome
    · exact hne (Prod.mk.inj (Prod.mk.inj (Option.some.inj hsome)).2).1
  · refine iff_of_true ?_ hwithin
    have hquestion : strip (askedText qMd) = strip qMd := by
      rw [hasked]
      exact (trimBy_append_right hqTrail _).trans (trimBy_idempotent _ _)
    have hanswer : strip (10 :: aLead ++ strip aMd) = strip aMd := by
      have hlead : AllOf isSpace (10 :: aLead) := by
        intro c hc
        rcases List.mem_cons.mp hc with rfl | hc
        · rfl
        · exact haLead c hc
      exact (trimBy_append_left hlead _).trans (trimBy_idempotent _ _)
    rw [partition_asked hwithin]
    dsimp only
    rw [hquestion, hanswer, hgroup, if_neg]
    rintro (h | h)
    · exact hq h
    · exact absurd h (Nat.not_lt_zero _)

/-- The document without an answer is rejected if the question has no separator. -/
theorem parse_unanswered {title qMd : Str} (htitle : strip title ≠ []) (hline : 10 ∉ title)
    (hq : strip qMd ≠ []) :
    parseQa (questionPart title qMd) 0 = none ↔ ¬ answerSep <:+: strip qMd := by
  obtain ⟨qLead, qTrail, hqSplit, -, hqLead, hqTrail⟩ := exists_askedText hq
  obtain ⟨⟨qHead, qRest, hqHead, hqHeadNot⟩, qInit, qLast, hqLast, hqLastNot⟩ :=
    trimBy_ends isSpace hq
  have hqHead : strip qMd = qHead :: qRest := hqHead
  have hqLast : strip qMd = qInit ++ [qLast] := hqLast
  have hdoc : questionPart title qMd =
      lit "# " ++ title ++ [10, 10] ++ (qLead ++ strip qMd) ++ (qTrail ++ [10]) := by
    rw [questionPart, hqSplit]
    simp
  have hbody : qLead ++ strip qMd = (qLead ++ qInit) ++ [qLast] := by
    rw [hqLast]
    simp
  obtain ⟨group, hmatch, -⟩ := matchTitle_title htitle hline (10 :: (qLead ++ strip qMd))
  have hrest : strip (10 :: 10 :: (qLead ++ strip qMd)) = strip qMd := by
    refine (trimBy_append_left allOf_newlines _).trans ((trimBy_append_left hqLead _).trans ?_)
    exact trimBy_idempotent _ _
  rw [hdoc, parseQa, strip_document title _ hbody hqLastNot hqTrail, hmatch]
  simp only [hrest]
  cases hpart : partition answerSep (strip qMd) with
  | none => exact iff_of_true rfl (partition_eq_none.mp hpart)
  | some halves =>
    obtain ⟨u, v⟩ := halves
    have hsound := partition_sound hpart
    refine iff_of_false (fun hnone => ?_) fun hnot => ?_
    · dsimp only at hnone
      split at hnone
      · rename_i hblank
        have hstart : qHead ∈ u := by
          cases u with
          | nil =>
            rw [hqHead] at hsound
            rw [(List.cons.inj hsound).1] at hqHeadNot
            exact absurd hqHeadNot (by decide)
          | cons c u =>
            rw [hqHead] at hsound
            rw [(List.cons.inj hsound).1]
            exact List.mem_cons_self
        rcases hblank with hblank | hblank
        · rw [trimBy_eq_nil_iff.mp hblank qHead hstart] at hqHeadNot
          cases hqHeadNot
        · exact absurd hblank (Nat.not_lt_zero _)
      · cases hnone
    · exact hnot ⟨u, v, hsound.symm⟩

/-- What `composeDoc` returns is the question with its answer, if that is not blank. -/
theorem composeDoc_eq {conv : Converter} {requireAnswered : Bool} {q : Question}
    {answers : List Answer} {qMd doc : Str} (hq : conv.convertString q.body = some qMd)
    (hdoc : composeDoc conv requireAnswered q answers = some doc) :
    doc = questionPart (conv.unescapeString q.title) qMd ++
      answerPart ((bestAnswer answers).bind fun a => conv.convertString a.body) := by
  unfold composeDoc at hdoc
  split at hdoc
  · cases hdoc
  · rw [hq] at hdoc
    dsimp only at hdoc
    split at hdoc
    · cases hdoc
    · exact (Option.some.inj hdoc).symm

/-- For a title of one line that is not blank and a question that is not blank, the
document with an answer that is not blank is taken apart into the three trimmed
texts exactly when the question does not have the line that separates the parts;
a document without an answer is rejected exactly when it does not. -/
theorem parse_composeDoc (conv : Converter) (requireAnswered : Bool) (q : Question)
    (answers : List Answer) (qMd doc : Str) (hq : conv.convertString q.body = some qMd)
    (hblank : strip qMd ≠ []) (htitle : strip (conv.unescapeString q.title) ≠ [])
    (hline : 10 ∉ conv.unescapeString q.title)
    (hdoc : composeDoc conv requireAnswered q answers = some doc) :
    (∀ a aMd, bestAnswer answers = some a → conv.convertString a.body = some aMd →
      strip aMd ≠ [] →
      (parseQa doc 0 = some (strip (conv.unescapeString q.title), strip qMd, strip aMd) ↔
        ¬ answerSep <:+: askedText qMd)) ∧
    (answerPart ((bestAnswer answers).bind fun a => conv.convertString a.body) = [] →
      (parseQa doc 0 = none ↔ ¬ answerSep <:+: strip qMd)) := by
  have hshape := composeDoc_eq hq hdoc
  constructor
  · intro a aMd ha haMd haBlank
    have hanswer : trimSpace aMd ≠ [] := by
      intro h
      have hstrip := strip_trimSpace aMd
      rw [h] at hstrip
      exact haBlank hstrip.symm
    rw [hshape, ha, Option.bind_some, haMd, answerPart, if_neg hanswer]
    exact parse_answered htitle hline hblank haBlank
  · intro hnone
    rw [hshape, hnone, List.append_nil]
    exact parse_unanswered htitle hline hblank

/-- Texts as they are. -/
def plainConverter : Converter := ⟨id, some⟩

def sampleAnswers : List Answer := [⟨3, false, lit "Honor Retry-After."⟩]

theorem parse_composeDoc_plain : ∃ doc,
    composeDoc plainConverter true ⟨lit "How to retry?", lit "My calls fail."⟩ sampleAnswers =
      some doc ∧
    parseQa doc 0 = some (lit "How to retry?", lit "My calls fail.", lit "Honor Retry-After.") := by
  have hsome : (composeDoc plainConverter true ⟨lit "How to retry?", lit "My calls fail."⟩
      sampleAnswers).isSome = true := by
    decide +kernel
  obtain ⟨doc, hdoc⟩ := Option.isSome_iff_exists.mp hsome
  obtain ⟨hanswered, -⟩ := parse_composeDoc plainConverter true
    ⟨lit "How to retry?", lit "My calls fail."⟩ sampleAnswers (lit "My calls fail.") doc rfl
    (by decide +kernel) (by decide +kernel) (by decide +kernel) hdoc
  refine ⟨doc, hdoc, ?_⟩
  have hparse := (hanswered ⟨3, false, lit "Honor Retry-After."⟩ (lit "Honor Retry-After.")
    (by decide +kernel) rfl (by decide +kernel)).mpr (by decide +kernel)
  rw [hparse]
  decide +kernel

/-- A question with a heading of its own that reads like the separator. -/
def headedBody : Str :=
  lit "I copied" ++ [10] ++ lit "## Top answer" ++ [10] ++ lit "from another page."

/-- The question is cut at its own heading. -/
theorem heading_in_question :
    ¬ ∀ (q : Question) (answers : List Answer) (qMd doc : Str),
      plainConverter.convertString q.body = some qMd → strip qMd ≠ [] → strip q.title ≠ [] →
      10 ∉ q.title → composeDoc plainConverter true q answers = some doc →
      ∀ a aMd, bestAnswer answers = some a → plainConverter.convertString a.body = some aMd →
        strip aMd ≠ [] → parseQa doc 0 = some (strip q.title, strip qMd, strip aMd) := by
  intro hparses
  have hend : (composeDoc plainConverter true ⟨lit "How to retry?", headedBody⟩ sampleAnswers).map
      (fun doc => decide (parseQa doc 0 = some (strip (lit "How to retry?"), strip headedBody,
        strip (lit "Honor Retry-After.")))) = some false := by
    decide +kernel
  obtain ⟨doc, hdoc, hview⟩ := Option.map_eq_some_iff.mp hend
  refine of_decide_eq_false hview (hparses ⟨lit "How to retry?", headedBody⟩ sampleAnswers headedBody
    doc rfl ?_ ?_ ?_ hdoc ⟨3, false, lit "Honor Retry-After."⟩ (lit "Honor Retry-After.") ?_ rfl ?_)
  all_goals decide +kernel

end WebSpider.Sft
