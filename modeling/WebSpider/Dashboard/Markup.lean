import WebSpider.Html.Tokenizer
import WebSpider.Text.Lines

/-!
# The markup of the dashboard

The row template of `loadArticles` and the card template of `ragSearch` in `index.html`, read
by a tokenizer. `esc` covers what is special in text, but not the quote that ends the value
of an attribute: the templates keep their tags exactly when the URL has no quote
(`templates_iff`). Strings are lists of UTF-16 code units.
-/

namespace WebSpider.Dashboard

open Text Html

/-- What a number or a timestamp prints as. -/
structure Printed where
  text : Str
  plain : ∀ c ∈ text, c ≠ 38 ∧ c ≠ 60 ∧ c ≠ 62

/-- An item of `/api/articles`. -/
structure Article where
  id : Printed
  url : Str
  title : Option Str
  sourceType : Option Str
  language : Option Str
  mdLen : Printed
  createdAt : Option Printed

/-- A result of `/api/search`. -/
structure Hit where
  url : Str
  title : Option Str
  headingPath : List Str
  text : Str
  sourceType : Option Str
  publishedAt : Option Str
  score : Printed

/-! ## The templates -/

def escapeChar (c : Nat) : Str :=
  if c = 38 then lit "&amp;" else if c = 60 then lit "&lt;" else if c = 62 then lit "&gt;" else [c]

def esc (s : Option Str) : Str := (s.getD []).flatMap escapeChar

/-- `s || fallback` of strings. -/
def orElse (s fallback : Str) : Str := if s = [] then fallback else s

/-- The markup of a row in `loadArticles`. -/
def rowMarkup (it : Article) : Str :=
  lit "<td>" ++ it.id.text ++ lit "</td>" ++
  lit "<td>" ++ orElse (esc it.title) (lit "-") ++ lit "</td>" ++
  lit "<td>" ++ orElse (esc it.sourceType) (lit "-") ++ lit "</td>" ++
  lit "<td>" ++ orElse (esc it.language) (lit "-") ++ lit "</td>" ++
  lit "<td>" ++ it.mdLen.text ++ lit "</td>" ++
  lit "<td><a href=\"" ++ esc (some it.url) ++ lit "\" target=\"_blank\" rel=\"noopener\">" ++
    esc (some it.url) ++ lit "</a></td>" ++
  lit "<td>" ++ orElse ((it.createdAt.map Printed.text).getD []) (lit "-") ++ lit "</td>" ++
  lit "<td><button class=\"toggle\">详情</button></td>"

def headingPath (r : Hit) : Str := join (lit " › ") (r.headingPath.map fun s => esc (some s))

/-- At most 600 characters of the escaped text. -/
def excerpt (r : Hit) : Str :=
  (esc (some r.text)).take 600 ++ if 600 < r.text.length then lit "…" else []

/-- The markup of a card in `ragSearch`. -/
def cardMarkup (r : Hit) : Str :=
  lit "<div style=\"display:flex;justify-content:space-between;gap:8px;\">" ++
  lit "<a href=\"" ++ esc (some r.url) ++ lit "\" target=\"_blank\" rel=\"noopener\">" ++
    lit "<b>" ++ orElse (esc r.title) (lit "(无标题)") ++ lit "</b></a>" ++
  lit "<span style=\"color:var(--muted);font-size:12px;\">score " ++ r.score.text ++
    lit "</span></div>" ++
  (if headingPath r = [] then []
    else lit "<div style=\"color:var(--muted);font-size:12px;margin:4px 0;\">" ++ headingPath r ++
      lit "</div>") ++
  lit "<div style=\"color:var(--fg);font-size:13px;margin-top:4px;\">" ++ excerpt r ++
    lit "</div>" ++
  lit "<div style=\"color:var(--muted);font-size:12px;margin-top:4px;\">" ++ esc r.sourceType ++
    lit " · " ++ esc r.publishedAt ++ lit "</div>"

/-! ## What the templates say -/

/-- A text node, where there is text. -/
def textOf (s : Str) : List Token := if s = [] then [] else [.text s]

/-- An element with its content. -/
def element (name : Str) (attributes : List (Str × Str)) (content : List Token) : List Token :=
  .start name attributes false :: (content ++ [.close name])

def cell (content : List Token) : List Token := element (lit "td") [] content

/-- A link that opens a new tab. -/
def link (url : Str) (content : List Token) : List Token :=
  element (lit "a") [(lit "href", url), (lit "target", lit "_blank"), (lit "rel", lit "noopener")]
    content

def styled (name : Str) (style : Str) (content : List Token) : List Token :=
  element name [(lit "style", style)] content

/-- What is shown for a string that may be missing. -/
def shown (s : Option Str) (fallback : Str) : Str := orElse (s.getD []) fallback

/-- The elements of a row. -/
def rowTokens (it : Article) : List Token :=
  cell (textOf it.id.text) ++ cell (textOf (shown it.title (lit "-"))) ++
  cell (textOf (shown it.sourceType (lit "-"))) ++ cell (textOf (shown it.language (lit "-"))) ++
  cell (textOf it.mdLen.text) ++ cell (link it.url (textOf it.url)) ++
  cell (textOf (shown (it.createdAt.map Printed.text) (lit "-"))) ++
  cell (element (lit "button") [(lit "class", lit "toggle")] [.text (lit "详情")])

/-- The elements of a card. -/
def cardTokens (names : Names) (r : Hit) : List Token :=
  styled (lit "div") (lit "display:flex;justify-content:space-between;gap:8px;")
    (link r.url (element (lit "b") [] (textOf (shown r.title (lit "(无标题)")))) ++
      styled (lit "span") (lit "color:var(--muted);font-size:12px;")
        (textOf (lit "score " ++ r.score.text))) ++
  (if headingPath r = [] then []
    else styled (lit "div") (lit "color:var(--muted);font-size:12px;margin:4px 0;")
      (textOf (join (lit " › ") r.headingPath))) ++
  styled (lit "div") (lit "color:var(--fg);font-size:13px;margin-top:4px;")
    (textToken names (excerpt r)) ++
  styled (lit "div") (lit "color:var(--muted);font-size:12px;margin-top:4px;")
    (textOf (r.sourceType.getD [] ++ lit " · " ++ r.publishedAt.getD []))

/-! ## Escaped strings -/

theorem esc_some_append (s t : Str) : esc (some (s ++ t)) = esc (some s) ++ esc (some t) :=
  List.flatMap_append

theorem esc_cons (c : Nat) (s : Str) : esc (some (c :: s)) = escapeChar c ++ esc (some s) :=
  List.flatMap_cons

theorem escapeChar_plain {c : Nat} (hc : c ≠ 38 ∧ c ≠ 60 ∧ c ≠ 62) : escapeChar c = [c] := by
  rw [escapeChar, if_neg hc.1, if_neg hc.2.1, if_neg hc.2.2]

theorem esc_plain {s : Str} (h : ∀ c ∈ s, c ≠ 38 ∧ c ≠ 60 ∧ c ≠ 62) : esc (some s) = s := by
  induction s with
  | nil => rfl
  | cons c s ih =>
    rw [esc_cons, escapeChar_plain (h c List.mem_cons_self),
      ih fun d hd => h d (List.mem_cons_of_mem _ hd)]
    rfl

theorem esc_printed (p : Printed) : esc (some p.text) = p.text := esc_plain p.plain

/-- The characters that are escaped, and the others. -/
theorem escapeChar_cases (c : Nat) : (c = 38 ∧ escapeChar c = lit "&amp;") ∨
    (c = 60 ∧ escapeChar c = lit "&lt;") ∨ (c = 62 ∧ escapeChar c = lit "&gt;") ∨
    (c ≠ 38 ∧ c ≠ 60 ∧ c ≠ 62) ∧ escapeChar c = [c] := by
  by_cases hamp : c = 38
  · exact Or.inl ⟨hamp, if_pos hamp⟩
  · by_cases hlt : c = 60
    · exact Or.inr (Or.inl ⟨hlt, by rw [hlt]; rfl⟩)
    · by_cases hgt : c = 62
      · exact Or.inr (Or.inr (Or.inl ⟨hgt, by rw [hgt]; rfl⟩))
      · exact Or.inr (Or.inr (Or.inr ⟨⟨hamp, hlt, hgt⟩, escapeChar_plain ⟨hamp, hlt, hgt⟩⟩))

theorem escapeChar_ne_nil (c : Nat) : escapeChar c ≠ [] := by
  rcases escapeChar_cases c with ⟨-, h⟩ | ⟨-, h⟩ | ⟨-, h⟩ | ⟨-, h⟩
  all_goals
    rw [h]
    exact List.cons_ne_nil _ _

theorem esc_eq_nil {s : Str} : esc (some s) = [] ↔ s = [] := by
  cases s with
  | nil => exact iff_of_true rfl rfl
  | cons c s =>
    rw [esc_cons]
    exact iff_of_false (fun h => escapeChar_ne_nil c (List.append_eq_nil_iff.mp h).1)
      (List.cons_ne_nil c s)

theorem mem_esc {c : Nat} {s : Option Str} (h : c ∈ esc s) :
    c ∈ lit "&amp;&lt;&gt;" ∨ c ∈ s.getD [] ∧ c ≠ 60 := by
  obtain ⟨d, hd, hc⟩ := List.mem_flatMap.mp h
  rcases escapeChar_cases d with ⟨-, heq⟩ | ⟨-, heq⟩ | ⟨-, heq⟩ | ⟨hne, heq⟩
  · rw [heq] at hc
    exact Or.inl (List.mem_append_left (lit "&lt;&gt;") hc)
  · rw [heq] at hc
    exact Or.inl (List.mem_append_right (lit "&amp;") (List.mem_append_left (lit "&gt;") hc))
  · rw [heq] at hc
    exact Or.inl (List.mem_append_right (lit "&amp;&lt;") hc)
  · rw [heq] at hc
    obtain rfl := List.mem_singleton.mp hc
    exact Or.inr ⟨hd, hne.2.1⟩

/-- No escaped string opens a tag. -/
theorem lt_notMem_esc (s : Option Str) : 60 ∉ esc s := fun h =>
  (mem_esc h).elim (fun h => absurd h (by decide)) fun h => h.2 rfl

/-- An escaped string has the quotes of the string. -/
theorem quote_notMem_esc {s : Str} (h : 34 ∉ s) : 34 ∉ esc (some s) := fun hmem =>
  (mem_esc hmem).elim (fun h => absurd h (by decide)) fun hs => h hs.1

/-- Decoding undoes the escapes, in text and in values. -/
theorem decode_esc {names : Names} (h : Standard names) (inAttribute : Bool) (s : Str) :
    decode names inAttribute (esc (some s)) = s := by
  have hamp : (lit "amp" ++ [59], [38]) ∈ names := h.amp
  have hlt : (lit "lt" ++ [59], [60]) ∈ names := h.lt
  have hgt : (lit "gt" ++ [59], [62]) ∈ names := h.gt
  induction s with
  | nil => rfl
  | cons c s ih =>
    rw [esc_cons]
    rcases escapeChar_cases c with ⟨rfl, heq⟩ | ⟨rfl, heq⟩ | ⟨rfl, heq⟩ | ⟨hne, heq⟩
    · rw [heq]
      exact (decode_closed h hamp _).trans (congrArg _ ih)
    · rw [heq]
      exact (decode_closed h hlt _).trans (congrArg _ ih)
    · rw [heq]
      exact (decode_closed h hgt _).trans (congrArg _ ih)
    · rw [heq, List.singleton_append, decode_cons hne.1, ih]

theorem textToken_esc {names : Names} (h : Standard names) (s : Str) :
    textToken names (esc (some s)) = textOf s := by
  unfold textToken textOf
  rw [decode_esc h]
  simp only [esc_eq_nil]

/-- A fallback without special characters is escaped as well. -/
theorem orElse_esc (s : Option Str) {fallback : Str} (h : esc (some fallback) = fallback) :
    orElse (esc s) fallback = esc (some (shown s fallback)) := by
  unfold shown orElse
  by_cases hs : s.getD [] = []
  · rw [if_pos hs, h]
    exact if_pos (esc_eq_nil.mpr hs)
  · rw [if_neg hs]
    exact if_neg fun hnil => hs (esc_eq_nil.mp hnil)

theorem esc_join {sep : Str} (h : esc (some sep) = sep) (pieces : List Str) :
    join sep (pieces.map fun s => esc (some s)) = esc (some (join sep pieces)) := by
  induction pieces with
  | nil => rfl
  | cons piece pieces ih =>
    cases pieces with
    | nil => rfl
    | cons piece' pieces =>
      rw [join_cons_cons, esc_some_append, esc_some_append, h, ← ih]
      rfl

theorem headingPath_eq (r : Hit) : headingPath r = esc (some (join (lit " › ") r.headingPath)) :=
  esc_join rfl r.headingPath

/-! ## The value of the link -/

/-- The characters of a value are those of the string, but for U+0000. -/
theorem map_valueChar_esc (s : Str) :
    (esc (some s)).map valueChar = esc (some (s.map valueChar)) := by
  induction s with
  | nil => rfl
  | cons c s ih =>
    rw [esc_cons, List.map_append, ih, List.map_cons, esc_cons]
    congr 1
    rcases escapeChar_cases c with ⟨rfl, -⟩ | ⟨rfl, -⟩ | ⟨rfl, -⟩ | ⟨hne, heq⟩
    · rfl
    · rfl
    · rfl
    · rw [heq]
      by_cases hzero : c = 0
      · rw [hzero]
        rfl
      · have hsame : valueChar c = c := if_neg hzero
        rw [List.map_singleton, hsame, heq]

theorem map_valueChar_eq_self {s : Str} : s.map valueChar = s ↔ 0 ∉ s := by
  constructor
  · intro h hzero
    rw [← h] at hzero
    obtain ⟨c, -, hc⟩ := List.mem_map.mp hzero
    unfold valueChar at hc
    split at hc
    · cases hc
    · contradiction
  · intro h
    refine (List.map_congr_left fun c hc => ?_).trans (List.map_id s)
    have hne : c ≠ 0 := fun hzero => h (hzero ▸ hc)
    exact if_neg hne

/-- A string that the templates can put into an attribute. -/
def Clean (url : Str) : Prop := 34 ∉ url ∧ 0 ∉ url

def linkOpen (url : Str) : Str :=
  lit "<a href=\"" ++ esc (some url) ++ lit "\" target=\"_blank\" rel=\"noopener\">"

section Link

variable {names : Names} (h : Standard names)

include h

theorem decode_value (s : Str) :
    decode names true ((esc (some s)).map valueChar) = s.map valueChar := by
  rw [map_valueChar_esc, decode_esc h]

theorem reads_href {s : Str} (hs : 34 ∉ s) : Reads names (.data [])
    (lit "<a href=\"" ++ (esc (some s) ++ [34])) []
    (.afterAttributeValueQuoted ⟨false, lit "a", [(lit "href", s.map valueChar)]⟩) := by
  have hopen : Reads names (.data []) (lit "<a href=\"") []
      (.attributeValueQuoted 34 ⟨false, lit "a", []⟩ (lit "href") []) := fun _ => rfl
  rw [← decode_value h]
  exact hopen.append (reads_first (quote_notMem_esc hs) false (lit "a") (lit "href"))

/-- The tag of the link has the attributes of the template when the URL is clean. -/
theorem reads_linkOpen {url : Str} (hurl : Clean url) : Reads names (.data []) (linkOpen url)
    [.start (lit "a") [(lit "href", url), (lit "target", lit "_blank"),
      (lit "rel", lit "noopener")] false] (.data []) := by
  have hhref := reads_href h hurl.1
  rw [map_valueChar_eq_self.mpr hurl.2] at hhref
  have hrest : Reads names
      (.afterAttributeValueQuoted ⟨false, lit "a", [(lit "href", url)]⟩)
      (lit " target=\"_blank\" rel=\"noopener\">")
      [.start (lit "a") [(lit "href", url), (lit "target", lit "_blank"),
        (lit "rel", lit "noopener")] false] (.data []) := fun _ => rfl
  have hread := hhref.append hrest
  rwa [List.append_assoc, List.append_assoc] at hread

omit h in
/-- The value ends at the first quote of the URL, or at that of the template. -/
theorem linkOpen_split (url rest : Str) : ∃ value more, 34 ∉ value ∧
    (value = url ∨ value.length < url.length) ∧
    linkOpen url ++ rest = (lit "<a href=\"" ++ (esc (some value) ++ [34])) ++ more := by
  by_cases hquote : 34 ∈ url
  · obtain ⟨before, after, rfl, hbefore⟩ := List.eq_append_cons_of_mem hquote
    refine ⟨before, esc (some after) ++ lit "\" target=\"_blank\" rel=\"noopener\">" ++ rest,
      hbefore, Or.inr ?_, ?_⟩
    · rw [List.length_append, List.length_cons]
      omega
    · rw [linkOpen, esc_some_append, esc_cons, escapeChar_plain (by decide)]
      simp only [List.append_assoc]
  · refine ⟨url, lit " target=\"_blank\" rel=\"noopener\">" ++ rest, hquote, Or.inl rfl, ?_⟩
    rw [linkOpen, List.append_assoc, List.append_assoc, List.append_assoc, List.append_assoc]
    rfl

/-- The first token of the link, where there is one, has the value up to the quote. -/
theorem href_of_tokens {value more name : Str} {found : Str × Str}
    {attributes : List (Str × Str)} {selfClosing : Bool} {rest : List Token} (hvalue : 34 ∉ value)
    (htokens : tokensFrom names (.data []) ((lit "<a href=\"" ++ (esc (some value) ++ [34])) ++ more) =
      .start name (found :: attributes) selfClosing :: rest) :
    found = (lit "href", value.map valueChar) := by
  have hin : InTag (lit "href", value.map valueChar) (.afterAttributeValueQuoted
      ⟨false, lit "a", [(lit "href", value.map valueChar)]⟩) := ⟨rfl, [], rfl⟩
  rw [reads_href h hvalue, List.nil_append] at htokens
  rcases tokensFrom_inTag hin more with hnone | ⟨_, _, _, _, hfirst⟩
  · rw [hnone] at htokens
    cases htokens
  · rw [hfirst] at htokens
    exact (List.cons.inj (Token.start.inj (List.cons.inj htokens).1).2.1).1.symm

/-- A template with a link keeps its tags exactly when the URL is clean. -/
theorem link_iff {markup : Str} {expected before after : List Token} {P Q url : Str}
    (hmarkup : markup = P ++ (linkOpen url ++ Q))
    (hexpected : expected = before ++ (.start (lit "a") [(lit "href", url),
      (lit "target", lit "_blank"), (lit "rel", lit "noopener")] false :: after))
    (hP : Reads names (.data []) P before (.data []))
    (hQ : Reads names (.data []) Q after (.data [])) :
    tokens names markup = expected ↔ Clean url := by
  rw [tokens, hmarkup, hexpected, hP, List.append_cancel_left_eq]
  constructor
  · intro htokens
    obtain ⟨value, more, hvalue, hurl, hsplit⟩ := linkOpen_split url Q
    rw [hsplit] at htokens
    have hhref : url = value.map valueChar := congrArg Prod.snd (href_of_tokens h hvalue htokens)
    rcases hurl with rfl | hshort
    · exact ⟨hvalue, map_valueChar_eq_self.mp hhref.symm⟩
    · have hlength := congrArg List.length hhref
      rw [List.length_map] at hlength
      omega
  · intro hurl
    rw [reads_linkOpen h hurl, hQ.tokensFrom]
    rfl

/-! ## Rows and cards -/

omit h in
/-- The end of an element. -/
theorem reads_close {name : Str} {v : Str}
    (hclose : ∀ raw s, tokensFrom names (.data raw) (v ++ s) =
      textToken names raw ++ .close name :: tokensFrom names (.data []) s) (raw : Str) :
    Reads names (.data raw) v (textToken names raw ++ [.close name]) (.data []) := by
  intro s
  rw [List.append_assoc]
  exact hclose raw s

/-- Escaped text in an element. -/
theorem reads_escaped {u v : Str} {name : Str} {attributes : List (Str × Str)}
    (hopen : Reads names (.data []) u [.start name attributes false] (.data []))
    (hclose : ∀ raw, Reads names (.data raw) v (textToken names raw ++ [.close name]) (.data []))
    (s : Str) : Reads names (.data []) (u ++ esc (some s) ++ v) (element name attributes (textOf s))
      (.data []) := by
  rw [element, ← textToken_esc h]
  exact reads_element hopen hclose (lt_notMem_esc _)

def cellMarkup (s : Str) : Str := lit "<td>" ++ s ++ lit "</td>"

theorem reads_cell (s : Str) :
    Reads names (.data []) (cellMarkup (esc (some s))) (cell (textOf s)) (.data []) := by
  exact reads_escaped h (fun _ => rfl) (reads_close fun _ _ => rfl) s

/-- The row in front of its link and behind it. -/
def rowBefore (it : Article) : Str :=
  cellMarkup (esc (some it.id.text)) ++ cellMarkup (esc (some (shown it.title (lit "-")))) ++
  cellMarkup (esc (some (shown it.sourceType (lit "-")))) ++
  cellMarkup (esc (some (shown it.language (lit "-")))) ++
  cellMarkup (esc (some it.mdLen.text)) ++ lit "<td>"

def rowAfter (it : Article) : Str :=
  esc (some it.url) ++ lit "</a></td>" ++
  cellMarkup (esc (some (shown (it.createdAt.map Printed.text) (lit "-")))) ++
  lit "<td><button class=\"toggle\">详情</button></td>"

omit h in
theorem rowMarkup_eq (it : Article) :
    rowMarkup it = rowBefore it ++ (linkOpen it.url ++ rowAfter it) := by
  have hdash : esc (some (lit "-")) = lit "-" := rfl
  have hlink : lit "<td><a href=\"" = lit "<td>" ++ lit "<a href=\"" := by decide
  have hcreated : orElse ((it.createdAt.map Printed.text).getD []) (lit "-") =
      esc (some (shown (it.createdAt.map Printed.text) (lit "-"))) := by
    cases it.createdAt with
    | none => rfl
    | some p =>
      have hshown := orElse_esc (some p.text) hdash
      rwa [esc_printed p] at hshown
  unfold rowMarkup rowBefore rowAfter
  rw [hcreated, hlink, orElse_esc _ hdash, orElse_esc _ hdash, orElse_esc _ hdash,
    esc_printed it.id, esc_printed it.mdLen]
  simp only [linkOpen, cellMarkup, List.append_assoc]

theorem reads_rowBefore (it : Article) : Reads names (.data []) (rowBefore it)
    (cell (textOf it.id.text) ++ cell (textOf (shown it.title (lit "-"))) ++
      cell (textOf (shown it.sourceType (lit "-"))) ++
      cell (textOf (shown it.language (lit "-"))) ++ cell (textOf it.mdLen.text) ++
      [.start (lit "td") [] false]) (.data []) := by
  have htd : Reads names (.data []) (lit "<td>") [.start (lit "td") [] false] (.data []) :=
    fun _ => rfl
  exact (((((reads_cell h it.id.text).append (reads_cell h (shown it.title (lit "-")))).append
    (reads_cell h (shown it.sourceType (lit "-")))).append
    (reads_cell h (shown it.language (lit "-")))).append (reads_cell h it.mdLen.text)).append htd

theorem reads_rowAfter (it : Article) : Reads names (.data []) (rowAfter it)
    (textOf it.url ++ [.close (lit "a"), .close (lit "td")] ++
      cell (textOf (shown (it.createdAt.map Printed.text) (lit "-"))) ++
      cell (element (lit "button") [(lit "class", lit "toggle")] [.text (lit "详情")]))
    (.data []) := by
  have hclose : Reads names (.data (esc (some it.url))) (lit "</a></td>")
      (textOf it.url ++ [.close (lit "a"), .close (lit "td")]) (.data []) := by
    intro s
    rw [← textToken_esc h, List.append_assoc]
    rfl
  have hbutton : Reads names (.data []) (lit "<td><button class=\"toggle\">详情</button></td>")
      (cell (element (lit "button") [(lit "class", lit "toggle")] [.text (lit "详情")]))
      (.data []) := fun _ => rfl
  exact (((reads_text (lt_notMem_esc (some it.url)) []).append hclose).append
    (reads_cell h (shown (it.createdAt.map Printed.text) (lit "-")))).append hbutton

theorem row_iff (it : Article) : tokens names (rowMarkup it) = rowTokens it ↔ Clean it.url := by
  refine link_iff h (rowMarkup_eq it) ?_ (reads_rowBefore h it) (reads_rowAfter h it)
  unfold rowTokens cell link element
  simp only [List.append_assoc, List.cons_append, List.nil_append]

/-- The tag in front of the link of a card, and the markup behind it. -/
def cardBefore : Str := lit "<div style=\"display:flex;justify-content:space-between;gap:8px;\">"

def scoreOpen : Str := lit "<span style=\"color:var(--muted);font-size:12px;\">"

def pathMarkup (r : Hit) : Str :=
  if headingPath r = [] then []
  else lit "<div style=\"color:var(--muted);font-size:12px;margin:4px 0;\">" ++ headingPath r ++
    lit "</div>"

def excerptMarkup (r : Hit) : Str :=
  lit "<div style=\"color:var(--fg);font-size:13px;margin-top:4px;\">" ++ excerpt r ++ lit "</div>"

def originMarkup (r : Hit) : Str :=
  lit "<div style=\"color:var(--muted);font-size:12px;margin-top:4px;\">" ++
    esc (some (r.sourceType.getD [] ++ lit " · " ++ r.publishedAt.getD [])) ++ lit "</div>"

def cardAfter (r : Hit) : Str :=
  lit "<b>" ++ esc (some (shown r.title (lit "(无标题)"))) ++ lit "</b>" ++ lit "</a>" ++
  (scoreOpen ++ esc (some (lit "score " ++ r.score.text)) ++ lit "</span>") ++ lit "</div>" ++
  pathMarkup r ++ excerptMarkup r ++ originMarkup r

omit h in
theorem cardMarkup_eq (r : Hit) :
    cardMarkup r = cardBefore ++ (linkOpen r.url ++ cardAfter r) := by
  have htitle : esc (some (lit "(无标题)")) = lit "(无标题)" := rfl
  have hscore : lit "<span style=\"color:var(--muted);font-size:12px;\">score " =
      scoreOpen ++ lit "score " := by decide
  have hbold : lit "</b></a>" = lit "</b>" ++ lit "</a>" := by decide
  have hspan : lit "</span></div>" = lit "</span>" ++ lit "</div>" := by decide
  have hword : esc (some (lit "score ")) = lit "score " := rfl
  have hdot : esc (some (lit " · ")) = lit " · " := rfl
  have hsource : esc (some (r.sourceType.getD [])) = esc r.sourceType := rfl
  have hpublished : esc (some (r.publishedAt.getD [])) = esc r.publishedAt := rfl
  unfold cardMarkup cardAfter originMarkup
  rw [orElse_esc _ htitle, hscore, hbold, hspan, esc_some_append, hword, esc_printed r.score,
    esc_some_append, esc_some_append, hdot, hsource, hpublished]
  simp only [cardBefore, pathMarkup, excerptMarkup, linkOpen, List.append_assoc]

omit h in
theorem excerpt_text (r : Hit) : 60 ∉ excerpt r := by
  rw [excerpt, List.mem_append, not_or]
  refine ⟨fun hmem => lt_notMem_esc _ (List.mem_of_mem_take hmem), ?_⟩
  split
  · decide
  · exact List.not_mem_nil

set_option maxRecDepth 4000 in
theorem reads_pathMarkup (r : Hit) : Reads names (.data []) (pathMarkup r)
    (if headingPath r = [] then []
      else styled (lit "div") (lit "color:var(--muted);font-size:12px;margin:4px 0;")
        (textOf (join (lit " › ") r.headingPath))) (.data []) := by
  unfold pathMarkup
  split
  · exact reads_nil _
  · rw [headingPath_eq]
    exact reads_escaped h (fun _ => rfl) (reads_close fun _ _ => rfl) _

set_option maxRecDepth 4000 in
omit h in
theorem reads_excerptMarkup (r : Hit) : Reads names (.data []) (excerptMarkup r)
    (styled (lit "div") (lit "color:var(--fg);font-size:13px;margin-top:4px;")
      (textToken names (excerpt r))) (.data []) :=
  reads_element (fun _ => rfl) (reads_close fun _ _ => rfl) (excerpt_text r)

set_option maxRecDepth 4000 in
theorem reads_originMarkup (r : Hit) : Reads names (.data []) (originMarkup r)
    (styled (lit "div") (lit "color:var(--muted);font-size:12px;margin-top:4px;")
      (textOf (r.sourceType.getD [] ++ lit " · " ++ r.publishedAt.getD []))) (.data []) :=
  reads_escaped h (fun _ => rfl) (reads_close fun _ _ => rfl) _

set_option maxRecDepth 4000 in
theorem reads_cardAfter (r : Hit) : Reads names (.data []) (cardAfter r)
    (element (lit "b") [] (textOf (shown r.title (lit "(无标题)"))) ++ [.close (lit "a")] ++
      styled (lit "span") (lit "color:var(--muted);font-size:12px;")
        (textOf (lit "score " ++ r.score.text)) ++ [.close (lit "div")] ++
      (if headingPath r = [] then []
        else styled (lit "div") (lit "color:var(--muted);font-size:12px;margin:4px 0;")
          (textOf (join (lit " › ") r.headingPath))) ++
      styled (lit "div") (lit "color:var(--fg);font-size:13px;margin-top:4px;")
        (textToken names (excerpt r)) ++
      styled (lit "div") (lit "color:var(--muted);font-size:12px;margin-top:4px;")
        (textOf (r.sourceType.getD [] ++ lit " · " ++ r.publishedAt.getD []))) (.data []) := by
  have hbold : Reads names (.data []) (lit "<b>" ++ esc (some (shown r.title (lit "(无标题)"))) ++
      lit "</b>") (element (lit "b") [] (textOf (shown r.title (lit "(无标题)")))) (.data []) :=
    reads_escaped h (fun _ => rfl) (reads_close fun _ _ => rfl) _
  have hlink : Reads names (.data []) (lit "</a>") [.close (lit "a")] (.data []) := fun _ => rfl
  have hscore : Reads names (.data [])
      (scoreOpen ++ esc (some (lit "score " ++ r.score.text)) ++ lit "</span>")
      (styled (lit "span") (lit "color:var(--muted);font-size:12px;")
        (textOf (lit "score " ++ r.score.text))) (.data []) :=
    reads_escaped h (fun _ => rfl) (reads_close fun _ _ => rfl) _
  have hdiv : Reads names (.data []) (lit "</div>") [.close (lit "div")] (.data []) := fun _ => rfl
  exact (((((hbold.append hlink).append hscore).append hdiv).append
    (reads_pathMarkup h r)).append (reads_excerptMarkup r)).append (reads_originMarkup h r)

set_option maxRecDepth 4000 in
theorem card_iff (r : Hit) :
    tokens names (cardMarkup r) = cardTokens names r ↔ Clean r.url := by
  have hbefore : Reads names (.data []) cardBefore [.start (lit "div")
      [(lit "style", lit "display:flex;justify-content:space-between;gap:8px;")] false]
      (.data []) := fun _ => rfl
  refine link_iff h (cardMarkup_eq r) ?_ hbefore (reads_cardAfter h r)
  unfold cardTokens styled link element
  simp only [List.append_assoc, List.cons_append, List.nil_append]

/-- The row and the card have the elements, the attributes and the texts of their templates
exactly when the URL has no double quote (and no U+0000), whatever the title is. -/
theorem templates_iff (it : Article) (r : Hit) :
    (tokens names (rowMarkup it) = rowTokens it ↔ Clean it.url) ∧
      (tokens names (cardMarkup r) = cardTokens names r ↔ Clean r.url) :=
  ⟨row_iff h it, card_iff h r⟩

end Link

/-! ## Strings that were crawled -/

/-- The references that every table has, and those of the quote. -/
def basicNames : Names :=
  [(lit "amp;", [38]), (lit "lt;", [60]), (lit "gt;", [62]), (lit "quot;", [34]), (lit "amp", [38]),
    (lit "lt", [60]), (lit "gt", [62]), (lit "quot", [34])]

theorem basicNames_standard : Standard basicNames where
  shape n hn := by
    have hall : basicNames.all (fun n => (n.1.rdropWhile (· == 59)).all isAlnum &&
        (n.1.rdropWhile (· == 59) != []) && (n.1 == n.1.rdropWhile (· == 59) ||
          n.1 == n.1.rdropWhile (· == 59) ++ [59])) = true := by
      decide
    have h := List.all_eq_true.mp hall n hn
    rw [Bool.and_eq_true, Bool.and_eq_true, Bool.or_eq_true, bne_iff_ne, beq_iff_eq, beq_iff_eq] at h
    exact ⟨_, h.1.2, h.1.1, h.2⟩
  keys := by decide
  amp := by decide
  lt := by decide
  gt := by decide

def one : Printed := ⟨lit "1", by decide⟩

/-- An article with a link from a feed. -/
def crawled (url : Str) : Article :=
  ⟨one, url, some (lit "A <b> & \"c\""), some (lit "rss"), some (lit "en"), one, none⟩

def found (url : Str) : Hit :=
  ⟨url, some (lit "A <b> & \"c\""), [lit "Intro", lit "x < y"], lit "if x < y", some (lit "rss"), none, one⟩

theorem templates_iff_plain :
    (tokens basicNames (rowMarkup (crawled (lit "https://a.example/?x=1&y='2'"))) =
        rowTokens (crawled (lit "https://a.example/?x=1&y='2'")) ↔
      Clean (lit "https://a.example/?x=1&y='2'")) ∧
      (tokens basicNames (cardMarkup (found (lit "https://a.example/?x=1&y='2'"))) =
          cardTokens basicNames (found (lit "https://a.example/?x=1&y='2'")) ↔
        Clean (lit "https://a.example/?x=1&y='2'")) :=
  templates_iff basicNames_standard (crawled (lit "https://a.example/?x=1&y='2'"))
    (found (lit "https://a.example/?x=1&y='2'"))

/-- A quote in a URL ends the value, and what follows is an attribute of its own. -/
theorem handler_injected :
    .start (lit "a") [(lit "href", lit "https://a.example/"),
        (lit "onmouseover", lit "alert(1)"), (lit "target", lit "_blank"),
        (lit "rel", lit "noopener")] false ∈
      tokens basicNames (rowMarkup (crawled (lit "https://a.example/\" onmouseover=\"alert(1)"))) ∧
    ¬ ∀ it : Article, tokens basicNames (rowMarkup it) = rowTokens it := by
  refine ⟨by decide +kernel, fun hescapes => ?_⟩
  have hclean := (row_iff basicNames_standard _).mp
    (hescapes (crawled (lit "https://a.example/\" onmouseover=\"alert(1)")))
  exact hclean.1 (by decide)

end WebSpider.Dashboard
