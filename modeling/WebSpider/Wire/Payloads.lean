import WebSpider.Sources.Rss
import WebSpider.Sources.StackExchange

/-!
# The payloads of the sources

The payload of a feed item, and that of a question, is JSON that the decoder reads at any
depth (`payloadRead_of_source`). So nothing that these two sources publish can make the
processor raise or wait (`source_consumed`).
-/

namespace WebSpider.Wire

open Text Json Processor
open Crawler (Time)
open Sources.StackExchange (SeQuestion payloadOf articleOf)

variable {F : Type} [FloatText F]

/-! ## The payload of a question -/

/-- An `int` of 64 bits. -/
def IsInt (n : Int) : Prop := -2 ^ 63 ≤ n ∧ n < 2 ^ 63

theorem reads_isInt (d : Nat) {n : Int} (h : IsInt n) : Reads d (dumpInt n) (.int n : Value F) := by
  apply reads_int
  have hshort : (decimal n.natAbs).length ≤ 19 := by
    rw [length_decimal_le (by decide)]
    unfold IsInt at h
    omega
  exact hshort.trans (by decide)

/-- What the decoder makes of the payload of a question. -/
def questionValue (s : Sources.StackExchange.Config) (q : SeQuestion) : Value F :=
  .obj [(lit "question_id", .int q.questionId), (lit "score", .int q.score),
    (lit "site", .str (runes s.site))]

theorem payloadOf_eq {s : Sources.StackExchange.Config} (hquote : s.quote = goString)
    (q : SeQuestion) : payloadOf s q = goObject [(lit "question_id", dumpInt q.questionId),
      (lit "score", dumpInt q.score), (lit "site", goString s.site)] := by
  have hid : goString (lit "question_id") = lit "\"question_id\"" := by decide +kernel
  have hscore : goString (lit "score") = lit "\"score\"" := by decide +kernel
  have hsite : goString (lit "site") = lit "\"site\"" := by decide +kernel
  simp only [payloadOf, hquote, goObject, goField, List.map_cons, List.map_nil, commaJoin, hid,
    hscore, hsite, List.append_assoc, List.cons_append]
  rfl

theorem reads_question (d : Nat) {s : Sources.StackExchange.Config} (hquote : s.quote = goString)
    {q : SeQuestion} (hid : IsInt q.questionId) (hscore : IsInt q.score) :
    Reads (d + 1) (payloadOf s q) (questionValue s q : Value F) := by
  have hkeys : [lit "question_id", lit "score", lit "site"].Nodup := by decide +kernel
  rw [payloadOf_eq hquote, questionValue]
  refine reads_object ?_ hkeys
  apply List.Forall₂.cons (readsField (by decide) (reads_isInt d hid))
  apply List.Forall₂.cons (readsField (by decide) (reads_isInt d hscore))
  exact .cons (readsField (by decide) (reads_string _ _)) .nil

/-! ## What is published is consumed -/

/-- An article as it is published, of a feed item or of a question. -/
inductive FromSource : Published F → Prop
  | item (feedUrl : Str) (item : Sources.Rss.Item) (published : Time) :
      FromSource (Sources.Rss.posted feedUrl item published)
  | question (s : Sources.StackExchange.Config) (q : SeQuestion) (content : Str) (published : Time)
      (hquote : s.quote = goString) (hid : IsInt q.questionId) (hscore : IsInt q.score) :
      FromSource ⟨articleOf s q content, published, questionValue s q⟩

theorem payloadRead_of_source (d : Nat) {x : Published F} (h : FromSource x) :
    x.PayloadRead d := by
  cases h with
  | item feedUrl item published => exact Sources.Rss.payload_read d feedUrl item published
  | question s q content published hquote hid hscore =>
    have hne : payloadOf s q ≠ [] := by simp [payloadOf, lit]
    have htext : payloadText (articleOf s q content).payload = payloadOf s q := if_neg hne
    rw [Published.PayloadRead, htext]
    exact reads_question d hquote hid hscore

/-- A backlog of feed items and questions is consumed, whatever stands in them. -/
theorem source_consumed [DecidableEq F] (cfg : Config) (tk : Toolkit F) (hnesting : 2 ≤ cfg.nesting)
    (hbands : BandsDivide cfg) (hbatch : 0 < cfg.batchSize) (messages : List Message)
    (hsource : ∀ m ∈ messages, ∃ x : Published F, FromSource x ∧ m.article = some x.text) :
    Consumes cfg tk messages := by
  obtain ⟨d, hd⟩ := Nat.exists_eq_add_of_le' hnesting
  refine consumes_of_digestible (fun _ => hbatch) fun m hm => ?_
  obtain ⟨x, hx, htext⟩ := hsource m hm
  exact digestible_text hd hbands tk (payloadRead_of_source d hx) htext

end WebSpider.Wire
