import WebSpider.Html.References

/-!
# Tags and text

A tokenizer of HTML: the tags of a markup with their attributes, and the text between them.
Its states are those of the standard. The references are decoded when a text or a value is
complete, as none reaches past it. Elements whose content is no markup are left out, and so
is what follows `<!` and `<?`.
-/

namespace WebSpider.Html

open Text

inductive Token where
  | start (name : Str) (attributes : List (Str × Str)) (selfClosing : Bool)
  | close (name : Str)
  | text (s : Str)
  deriving DecidableEq

/-- A tag that is being read. -/
structure Tag where
  closing : Bool
  name : Str
  attributes : List (Str × Str)

/-- The states, each with the text or the tag that is being read. -/
inductive State where
  | data (raw : Str)
  | tagOpen (raw : Str)
  | endTagOpen (raw : Str)
  | tagName (tag : Tag)
  | beforeAttributeName (tag : Tag)
  | attributeName (tag : Tag) (name : Str)
  | afterAttributeName (tag : Tag) (name : Str)
  | beforeAttributeValue (tag : Tag) (name : Str)
  | attributeValueQuoted (quote : Nat) (tag : Tag) (name value : Str)
  | attributeValueUnquoted (tag : Tag) (name value : Str)
  | afterAttributeValueQuoted (tag : Tag)
  | selfClosingStartTag (tag : Tag)
  | declaration

/-- Tab, line feed, form feed and space. -/
def isWhite (c : Nat) : Bool := decide (c = 9 ∨ c = 10 ∨ c = 12 ∨ c = 32)

def lower (c : Nat) : Nat := if 65 ≤ c ∧ c ≤ 90 then c + 32 else c

/-- A character of a value. -/
def valueChar (c : Nat) : Nat := if c = 0 then replacement else c

/-- A character of a name. -/
def nameChar (c : Nat) : Nat := lower (valueChar c)

section

variable (names : Names)

/-- A text, where there is one. -/
def textToken (raw : Str) : List Token :=
  if raw = [] then [] else [.text (decode names false raw)]

/-- The first of two attributes of one name counts. -/
def Tag.add (tag : Tag) (name value : Str) : Tag :=
  if name ∈ tag.attributes.map Prod.fst then tag
  else { tag with attributes := tag.attributes ++ [(name, decode names true value)] }

def Tag.token (tag : Tag) (selfClosing : Bool) : Token :=
  if tag.closing then .close tag.name else .start tag.name tag.attributes selfClosing

/-- The end of a tag. -/
def Tag.emit (tag : Tag) (selfClosing : Bool) : List Token × State :=
  ([tag.token selfClosing], .data [])

/-- A character where an attribute or the end of the tag may follow. -/
def Tag.next (tag : Tag) (c : Nat) : List Token × State :=
  if isWhite c then ([], .beforeAttributeName tag)
  else if c = 47 then ([], .selfClosingStartTag tag)
  else if c = 62 then tag.emit false
  else ([], .attributeName tag [nameChar c])

def step : State → Nat → List Token × State
  | .data raw, c => if c = 60 then ([], .tagOpen raw) else ([], .data (raw ++ [c]))
  | .tagOpen raw, c =>
    if c = 47 then ([], .endTagOpen raw)
    else if isAlpha c then (textToken names raw, .tagName ⟨false, [lower c], []⟩)
    else if c = 33 ∨ c = 63 then (textToken names raw, .declaration)
    else if c = 60 then ([], .tagOpen (raw ++ [60]))
    else ([], .data (raw ++ [60, c]))
  | .endTagOpen raw, c =>
    if isAlpha c then (textToken names raw, .tagName ⟨true, [lower c], []⟩)
    else if c = 62 then ([], .data raw)
    else (textToken names raw, .declaration)
  | .tagName tag, c =>
    if isWhite c then ([], .beforeAttributeName tag)
    else if c = 47 then ([], .selfClosingStartTag tag)
    else if c = 62 then tag.emit false
    else ([], .tagName { tag with name := tag.name ++ [nameChar c] })
  | .beforeAttributeName tag, c => tag.next c
  | .attributeName tag name, c =>
    if isWhite c then ([], .afterAttributeName tag name)
    else if c = 47 then ([], .selfClosingStartTag (tag.add names name []))
    else if c = 61 then ([], .beforeAttributeValue tag name)
    else if c = 62 then (tag.add names name []).emit false
    else ([], .attributeName tag (name ++ [nameChar c]))
  | .afterAttributeName tag name, c =>
    if isWhite c then ([], .afterAttributeName tag name)
    else if c = 47 then ([], .selfClosingStartTag (tag.add names name []))
    else if c = 61 then ([], .beforeAttributeValue tag name)
    else if c = 62 then (tag.add names name []).emit false
    else ([], .attributeName (tag.add names name []) [nameChar c])
  | .beforeAttributeValue tag name, c =>
    if isWhite c then ([], .beforeAttributeValue tag name)
    else if c = 34 ∨ c = 39 then ([], .attributeValueQuoted c tag name [])
    else if c = 62 then (tag.add names name []).emit false
    else ([], .attributeValueUnquoted tag name [valueChar c])
  | .attributeValueQuoted quote tag name value, c =>
    if c = quote then ([], .afterAttributeValueQuoted (tag.add names name value))
    else ([], .attributeValueQuoted quote tag name (value ++ [valueChar c]))
  | .attributeValueUnquoted tag name value, c =>
    if isWhite c then ([], .beforeAttributeName (tag.add names name value))
    else if c = 62 then (tag.add names name value).emit false
    else ([], .attributeValueUnquoted tag name (value ++ [valueChar c]))
  | .afterAttributeValueQuoted tag, c => tag.next c
  | .selfClosingStartTag tag, c => if c = 62 then tag.emit true else tag.next c
  | .declaration, _ => ([], .declaration)

/-- The text at the end. A tag that is not closed is lost. -/
def finish : State → List Token
  | .data raw => textToken names raw
  | .tagOpen raw => textToken names (raw ++ [60])
  | .endTagOpen raw => textToken names (raw ++ [60, 47])
  | _ => []

/-- The tokens from a state on. -/
def tokensFrom : State → Str → List Token
  | st, [] => finish names st
  | st, c :: s => (step names st c).1 ++ tokensFrom (step names st c).2 s

def tokens (s : Str) : List Token := tokensFrom names (.data []) s

end

/-! ## Parts of a markup -/

section Reads

variable {names : Names}

/-- The tokens of a part, from one state to another. -/
def Reads (names : Names) (st : State) (u : Str) (out : List Token) (st' : State) : Prop :=
  ∀ s, tokensFrom names st (u ++ s) = out ++ tokensFrom names st' s

theorem Reads.append {st st' st'' : State} {u v : Str} {out out' : List Token}
    (hu : Reads names st u out st') (hv : Reads names st' v out' st'') :
    Reads names st (u ++ v) (out ++ out') st'' := by
  intro s
  rw [List.append_assoc, hu, hv, List.append_assoc]

theorem reads_nil (st : State) : Reads names st [] [] st := fun _ => rfl

/-- Text without tags. -/
theorem reads_text {u : Str} (hu : 60 ∉ u) (raw : Str) :
    Reads names (.data raw) u [] (.data (raw ++ u)) := by
  induction u generalizing raw with
  | nil =>
    rw [List.append_nil]
    exact reads_nil _
  | cons c u ih =>
    obtain ⟨hc, hu⟩ := not_or.mp (List.mem_cons.not.mp hu)
    have hstep : step names (.data raw) c = ([], .data (raw ++ [c])) := if_neg (Ne.symm hc)
    intro s
    rw [List.cons_append, tokensFrom, hstep, List.nil_append, ih hu, List.append_assoc]
    rfl

/-- An element that holds text only. -/
theorem reads_element {u v : Str} {first last : Token}
    (hfirst : Reads names (.data []) u [first] (.data []))
    (hlast : ∀ raw, Reads names (.data raw) v (textToken names raw ++ [last]) (.data []))
    {raw : Str} (hraw : 60 ∉ raw) :
    Reads names (.data []) (u ++ raw ++ v) (first :: (textToken names raw ++ [last])) (.data []) :=
  (hfirst.append (reads_text hraw [])).append (hlast raw)

/-- A value without its quote. -/
theorem reads_value {quote : Nat} {u : Str} (hu : quote ∉ u) (tag : Tag) (name value : Str) :
    Reads names (.attributeValueQuoted quote tag name value) u []
      (.attributeValueQuoted quote tag name (value ++ u.map valueChar)) := by
  induction u generalizing value with
  | nil =>
    rw [List.map_nil, List.append_nil]
    exact reads_nil _
  | cons c u ih =>
    obtain ⟨hc, hu⟩ := not_or.mp (List.mem_cons.not.mp hu)
    have hstep : step names (.attributeValueQuoted quote tag name value) c =
        ([], .attributeValueQuoted quote tag name (value ++ [valueChar c])) := if_neg (Ne.symm hc)
    intro s
    rw [List.cons_append, tokensFrom, hstep, List.nil_append, ih hu, List.append_assoc]
    rfl

/-- The quote ends a value. -/
theorem reads_quote (quote : Nat) (tag : Tag) (name value : Str) :
    Reads names (.attributeValueQuoted quote tag name value) [quote] []
      (.afterAttributeValueQuoted (tag.add names name value)) := by
  intro s
  have hstep : step names (.attributeValueQuoted quote tag name value) quote =
      ([], .afterAttributeValueQuoted (tag.add names name value)) := if_pos rfl
  rw [List.singleton_append, tokensFrom, hstep]

theorem Tag.add_nil (closing : Bool) (tag name value : Str) :
    Tag.add names ⟨closing, tag, []⟩ name value =
      ⟨closing, tag, [(name, decode names true value)]⟩ := if_neg List.not_mem_nil

/-- The first attribute of a tag, up to its quote. -/
theorem reads_first {quote : Nat} {u : Str} (hu : quote ∉ u) (closing : Bool) (tag name : Str) :
    Reads names (.attributeValueQuoted quote ⟨closing, tag, []⟩ name []) (u ++ [quote]) []
      (.afterAttributeValueQuoted
        ⟨closing, tag, [(name, decode names true (u.map valueChar))]⟩) := by
  rw [← Tag.add_nil]
  exact (reads_value hu ⟨closing, tag, []⟩ name []).append (reads_quote quote _ name _)

/-- The tokens of a markup that is read completely. -/
theorem Reads.tokensFrom {st : State} {u : Str} {out : List Token}
    (h : Reads names st u out (.data [])) : tokensFrom names st u = out := by
  have hread := h []
  rwa [List.append_nil, show Html.tokensFrom names (.data []) [] = [] from rfl,
    List.append_nil] at hread

end Reads

/-! ## The first attribute

Whatever follows, it stays the first attribute of its tag.
-/

section First

variable {names : Names} {a : Str × Str}

def Tag.First (a : Str × Str) (tag : Tag) : Prop :=
  tag.closing = false ∧ ∃ rest, tag.attributes = a :: rest

theorem Tag.First.add {tag : Tag} (h : tag.First a) (name value : Str) :
    (tag.add names name value).First a := by
  obtain ⟨hopen, rest, hrest⟩ := h
  unfold Tag.add
  split
  · exact ⟨hopen, rest, hrest⟩
  · refine ⟨hopen, rest ++ [(name, decode names true value)], ?_⟩
    dsimp only
    rw [hrest]
    rfl

/-- A tag is being read, and its first attribute is known. -/
def InTag (a : Str × Str) : State → Prop
  | .beforeAttributeName tag | .attributeName tag _ | .afterAttributeName tag _
  | .beforeAttributeValue tag _ | .attributeValueQuoted _ tag _ _
  | .attributeValueUnquoted tag _ _ | .afterAttributeValueQuoted tag
  | .selfClosingStartTag tag => tag.First a
  | _ => False

/-- A step within the tag, or the step that ends it. -/
def Keeps (a : Str × Str) (result : List Token × State) : Prop :=
  (result.1 = [] ∧ InTag a result.2) ∨
    ∃ name rest selfClosing, result.1 = [.start name (a :: rest) selfClosing]

theorem Tag.First.emit {tag : Tag} (h : tag.First a) (selfClosing : Bool) :
    Keeps a (tag.emit selfClosing) := by
  obtain ⟨hopen, rest, hrest⟩ := h
  refine Or.inr ⟨tag.name, rest, selfClosing, ?_⟩
  rw [Tag.emit, Tag.token, hopen, hrest]
  rfl

theorem Tag.First.next {tag : Tag} (h : tag.First a) (c : Nat) : Keeps a (tag.next c) := by
  unfold Tag.next
  split_ifs
  · exact Or.inl ⟨rfl, h⟩
  · exact Or.inl ⟨rfl, h⟩
  · exact h.emit false
  · exact Or.inl ⟨rfl, h⟩

theorem step_inTag {st : State} (h : InTag a st) (c : Nat) : Keeps a (step names st c) := by
  cases st with
  | data | tagOpen | endTagOpen | tagName | declaration => exact h.elim
  | beforeAttributeName tag => exact Tag.First.next h c
  | afterAttributeValueQuoted tag => exact Tag.First.next h c
  | attributeName tag name =>
    rw [step]
    split_ifs
    · exact Or.inl ⟨rfl, h⟩
    · exact Or.inl ⟨rfl, Tag.First.add h name []⟩
    · exact Or.inl ⟨rfl, h⟩
    · exact (Tag.First.add h name []).emit false
    · exact Or.inl ⟨rfl, h⟩
  | afterAttributeName tag name =>
    rw [step]
    split_ifs
    · exact Or.inl ⟨rfl, h⟩
    · exact Or.inl ⟨rfl, Tag.First.add h name []⟩
    · exact Or.inl ⟨rfl, h⟩
    · exact (Tag.First.add h name []).emit false
    · exact Or.inl ⟨rfl, Tag.First.add h name []⟩
  | beforeAttributeValue tag name =>
    rw [step]
    split_ifs
    · exact Or.inl ⟨rfl, h⟩
    · exact Or.inl ⟨rfl, h⟩
    · exact (Tag.First.add h name []).emit false
    · exact Or.inl ⟨rfl, h⟩
  | attributeValueQuoted quote tag name value =>
    rw [step]
    split_ifs
    · exact Or.inl ⟨rfl, Tag.First.add h name value⟩
    · exact Or.inl ⟨rfl, h⟩
  | attributeValueUnquoted tag name value =>
    rw [step]
    split_ifs
    · exact Or.inl ⟨rfl, Tag.First.add h name value⟩
    · exact (Tag.First.add h name value).emit false
    · exact Or.inl ⟨rfl, h⟩
  | selfClosingStartTag tag =>
    rw [step]
    split_ifs
    · exact Tag.First.emit h true
    · exact Tag.First.next h c

/-- The next token, where there is one, is the tag with its first attribute. -/
theorem tokensFrom_inTag {st : State} (h : InTag a st) (s : Str) :
    tokensFrom names st s = [] ∨ ∃ name rest selfClosing more,
      tokensFrom names st s = .start name (a :: rest) selfClosing :: more := by
  induction s generalizing st with
  | nil =>
    cases st with
    | data | tagOpen | endTagOpen => exact h.elim
    | _ => exact Or.inl rfl
  | cons c s ih =>
    rw [tokensFrom]
    rcases step_inTag h c with ⟨hnone, hnext⟩ | ⟨name, rest, selfClosing, htoken⟩
    · rw [hnone, List.nil_append]
      exact ih hnext
    · rw [htoken]
      exact Or.inr ⟨name, rest, selfClosing, _, rfl⟩

end First

end WebSpider.Html
