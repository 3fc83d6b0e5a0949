import WebSpider.Processor.Separation
import WebSpider.Processor.Table
import WebSpider.Lists.Amounts

/-!
# What a batch adds to the counters

The accumulators of `process_batch` along its loops: every message that parses is rejected
with a reason or becomes a row (`extractBatch_tally`, `judgeLoop_tally`), and what the
counters get when the calls return (`storeRows_amounts`, `writeRejections_amounts`).
-/

namespace WebSpider.Processor

open Text Json Effects WebSpider.Lists

variable {F : Type} [FloatText F] [DecidableEq F]

/-! ## Counting in a dictionary -/

section Bump

variable {κ : Type} [DecidableEq κ] {d : List (κ × Nat)}

theorem map_fst_bump (d : List (κ × Nat)) (k : κ) :
    (bump d k).map Prod.fst = if k ∈ d.map Prod.fst then d.map Prod.fst else d.map Prod.fst ++ [k] := by
  unfold bump
  split
  · rw [List.map_map]
    apply List.map_congr_left
    intro e _
    change (if e.1 = k then (k, e.2 + 1) else e).1 = e.1
    split
    · rename_i hk
      exact hk.symm
    · rfl
  · rw [List.map_append]
    rfl

theorem nodup_bump (h : (d.map Prod.fst).Nodup) (k : κ) : ((bump d k).map Prod.fst).Nodup := by
  rw [map_fst_bump]
  split
  · exact h
  · rename_i hk
    exact h.append (List.nodup_singleton k) (List.disjoint_singleton.mpr hk)

/-- A dictionary after `d[k] += 1`. -/
theorem bump_perm (h : (d.map Prod.fst).Nodup) (k : κ) : ∃ n rest,
    (bump d k).Perm ((k, n + 1) :: rest) ∧ (d.Perm ((k, n) :: rest) ∨ n = 0 ∧ d = rest) := by
  unfold bump
  split
  · rename_i hk
    obtain ⟨e, he, rfl⟩ := List.mem_map.mp hk
    obtain ⟨before, after, rfl⟩ := List.append_of_mem he
    have hother {e' : κ × Nat} (he' : e' ∈ before ++ after) : e'.1 ≠ e.1 := by
      intro heq
      rw [List.map_append, List.map_cons] at h
      have hmem := List.mem_map_of_mem (f := Prod.fst) he'
      rw [List.map_append, heq] at hmem
      exact (List.nodup_cons.mp (List.perm_middle.nodup_iff.mp h)).1 hmem
    have hsame (l : List (κ × Nat)) (hl : l ⊆ before ++ after) :
        (l.map fun e' => if e'.1 = e.1 then (e.1, e'.2 + 1) else e') = l := by
      refine (List.map_congr_left fun e' he' => ?_).trans (List.map_id l)
      rw [if_neg (hother (hl he'))]
      rfl
    refine ⟨e.2, before ++ after, ?_, .inl List.perm_middle⟩
    rw [List.map_append, List.map_cons, if_pos rfl, hsame before (List.subset_append_left _ _),
      hsame after (List.subset_append_right _ _)]
    exact List.perm_middle
  · exact ⟨0, d, List.perm_append_singleton _ _, .inr ⟨rfl, rfl⟩⟩

theorem amount_bump (h : (d.map Prod.fst).Nodup) (k k' : κ) :
    amount (bump d k) k' = amount d k' + if k = k' then 1 else 0 := by
  obtain ⟨n, rest, hbump, hd⟩ := bump_perm h k
  rw [amount_perm hbump, amount_cons]
  rcases hd with hd | ⟨rfl, rfl⟩
  · rw [amount_perm hd, amount_cons]
    dsimp only
    split <;> omega
  · exact Nat.add_comm _ _

theorem total_bump (h : (d.map Prod.fst).Nodup) (k : κ) : total (bump d k) = total d + 1 := by
  obtain ⟨n, rest, hbump, hd⟩ := bump_perm h k
  rw [total_perm hbump, total_cons]
  rcases hd with hd | ⟨rfl, rfl⟩
  · rw [total_perm hd, total_cons]
    dsimp only
    omega
  · dsimp only
    omega

end Bump

/-! ## The tally -/

/-- The keys of the dictionaries differ. -/
structure Keyed (t : Tally F) : Prop where
  reasons : (t.stats.map Prod.fst).Nodup
  sources : (t.srcRej.map Prod.fst).Nodup

omit [FloatText F] [DecidableEq F] in
theorem Keyed.empty : Keyed (Tally.empty : Tally F) := ⟨List.nodup_nil, List.nodup_nil⟩

omit [FloatText F] [DecidableEq F] in
theorem Keyed.count {t : Tally F} (h : Keyed t) (reason : Str) (i : MsgId) (v : Verdict) :
    Keyed (t.count reason i v) ∧ total (t.count reason i v).stats = total t.stats + 1 ∧
      (t.count reason i v).outcomes.length = t.outcomes.length + 1 :=
  ⟨⟨nodup_bump h.reasons reason, h.sources⟩, total_bump h.reasons reason,
    List.length_append⟩

omit [FloatText F] in
theorem Keyed.reject {t t' : Tally F} (h : Keyed t) {reason : Str} {source : Value F} {i : MsgId}
    {v : Verdict} (ht : t.reject reason source i v = .ok t') :
    Keyed t' ∧ total t'.stats = total t.stats + 1 ∧ total t'.srcRej = total t.srcRej + 1 ∧
      t'.outcomes.length = t.outcomes.length + 1 := by
  unfold Tally.reject at ht
  split at ht
  · cases ht
    exact ⟨⟨nodup_bump h.reasons reason, nodup_bump h.sources source⟩,
      total_bump h.reasons reason, total_bump h.sources source, List.length_append⟩
  · cases ht

/-! ## Extraction -/

/-- What is judged for an article without inline content. -/
def fetchedItem (env : Surroundings) (x : MsgId × Article F) :
    Option (MsgId × Article F × Value F) :=
  env.fetched.bind fun fetched =>
    match fetchContent env fetched (urlOf x.2) with
    | .ok (.text text) => some (x.1, x.2, .str text)
    | _ => none

def itemOf (env : Surroundings) (i : MsgId) : Value F → Option (MsgId × Article F × Value F)
  | .obj article =>
    if truthy (contentMd article) then some (i, article, contentMd article)
    else fetchedItem env (i, article)
  | _ => none

/-- What is judged for a message. -/
def contentOf (cfg : Config) (env : Surroundings) (m : Message) :
    Option (MsgId × Article F × Value F) :=
  (payload cfg m).bind (itemOf env m.id)

/-- Nothing but the counter of the dead-letter stream has changed. -/
def SameCounters (s t : State F) : Prop := ∀ c, c ≠ .dlq → t.metrics c = s.metrics c

/-- What phases 1 and 2 make of the messages. -/
structure ExtractedTally (cfg : Config) (env : Surroundings) (messages : List Message)
    (r : Tally F × Direct F) : Prop where
  keyed : Keyed r.1
  items : r.2.Perm (messages.filterMap (contentOf cfg env))
  count : total r.1.stats + r.2.length =
    messages.countP fun m => (payload (F := F) cfg m).isSome
  outcomes : r.1.outcomes.length = total r.1.stats
  sources : total r.1.srcRej = total r.1.stats

/-- What the index, the table and the counters see of a row. -/
structure Passing (F : Type) where
  fingerprint : Nat
  urlHash : Str
  source : Value F
  deriving DecidableEq

def Row.passing (row : Row F) : Passing F := ⟨row.contentHash, row.urlHash, row.sourceType⟩

/-- The row of a content that passes both gates. -/
def passingOf (cfg : Config) (tk : Toolkit F) (env : Surroundings)
    (x : MsgId × Article F × Value F) : Option (Passing F) :=
  match gate cfg tk env x.1 x.2.2 with
  | .ok (.passed _ _) => some ⟨fingerprint cfg tk x.2.2, tk.sha256 (contentText (urlOf x.2.1)),
      getField x.2.1 (lit "source_type") (.str (lit "devto"))⟩
  | _ => none

/-- No content is in another language, and none is a duplicate: their fingerprints differ and
neither the index nor the process knows one. -/
structure FreshItems (cfg : Config) (tk : Toolkit F) (env : Surroundings) (s : State F)
    (items : Direct F) : Prop where
  language : ∀ x ∈ items, gate cfg tk env x.1 x.2.2 ≠ .ok .lang
  unknown : ∀ p ∈ items.filterMap (passingOf cfg tk env),
    captured cfg s p.fingerprint = false ∧ p.fingerprint ∉ s.seenHashes
  distinct : ((items.filterMap (passingOf cfg tk env)).map Passing.fingerprint).Nodup

omit [FloatText F] [DecidableEq F] in
theorem FreshItems.sublist {cfg : Config} {tk : Toolkit F} {env : Surroundings} {s : State F}
    {items items' : Direct F} (h : FreshItems cfg tk env s items) (hsub : items'.Sublist items) :
    FreshItems cfg tk env s items' :=
  ⟨fun x hx => h.language x (hsub.subset hx),
    fun p hp => h.unknown p ((hsub.filterMap _).subset hp),
    h.distinct.sublist ((hsub.filterMap _).map _)⟩

/-- The content makes the batch raise when its turn comes. -/
def ItemStops (cfg : Config) (tk : Toolkit F) (env : Surroundings)
    (x : MsgId × Article F × Value F) : Prop :=
  (∃ e, gate cfg tk env x.1 x.2.2 = .error e) ∨
    (∃ reason, gate cfg tk env x.1 x.2.2 = .ok (.rejected reason) ∧
      hashable (sourceOf x.2.1) = false) ∨
    (passingOf cfg tk env x).isSome = true ∧ ¬ BandsDivide cfg

/-- The content is no duplicate, and its URL makes the batch raise. -/
def UnfitUrl (cfg : Config) (tk : Toolkit F) (env : Surroundings) (s : State F)
    (items : Direct F) (x : MsgId × Article F × Value F) : Prop :=
  ∃ p, passingOf cfg tk env x = some p ∧ (∃ e, encodeUrl (urlOf x.2.1) = .error e) ∧
    captured cfg s p.fingerprint = false ∧ p.fingerprint ∉ s.seenHashes ∧
    ((items.filterMap (passingOf cfg tk env)).map Passing.fingerprint).count p.fingerprint ≤ 1

omit [FloatText F] [DecidableEq F] in
theorem passingOf_passed {cfg : Config} {tk : Toolkit F} {env : Surroundings}
    {x : MsgId × Article F × Value F} {language : Str} {score : F}
    (hgate : gate cfg tk env x.1 x.2.2 = .ok (.passed language score)) :
    passingOf cfg tk env x = some ⟨fingerprint cfg tk x.2.2,
      tk.sha256 (contentText (urlOf x.2.1)),
      getField x.2.1 (lit "source_type") (.str (lit "devto"))⟩ := by
  rw [passingOf, hgate]

omit [FloatText F] [DecidableEq F] in
theorem encodeUrl_ok {url : Value F} {u : Str} (h : encodeUrl url = .ok u) : url = .str u := by
  cases url with
  | str v =>
    rw [encodeUrl] at h
    split at h
    · cases h
      rfl
    · cases h
  | _ => cases h

/-- The loop of phase 3 after the turns `done`, from `s`. -/
structure JudgeTally (cfg : Config) (tk : Toolkit F) (env : Surroundings) (s : State F)
    (start : Tally F) (done : Direct F) (acc : Tally F × List (Row F)) (t : State F) :
    Prop where
  metrics : t.metrics = s.metrics
  keyed : Keyed acc.1
  count : total acc.1.stats + acc.2.length = total start.stats + done.length
  outcomes : acc.1.outcomes.length = start.outcomes.length + done.length
  bands : acc.2 ≠ [] → BandsDivide cfg
  goes : ∀ x ∈ done, ¬ ItemStops cfg tk env x ∧ ¬ UnfitUrl cfg tk env s done x
  fresh : FreshItems cfg tk env s done →
    acc.2.map Row.passing = done.filterMap (passingOf cfg tk env) ∧
      total acc.1.srcRej = total acc.1.stats

omit [FloatText F] [DecidableEq F] in
theorem UnfitUrl.sublist {cfg : Config} {tk : Toolkit F} {env : Surroundings} {s : State F}
    {items items' : Direct F} {x : MsgId × Article F × Value F}
    (h : UnfitUrl cfg tk env s items x) (hsub : items'.Sublist items) :
    UnfitUrl cfg tk env s items' x := by
  obtain ⟨p, hp, hurl, hcaptured, hseen, hcount⟩ := h
  exact ⟨p, hp, hurl, hcaptured, hseen,
    (((hsub.filterMap (passingOf cfg tk env)).map Passing.fingerprint).count_le _).trans hcount⟩

omit [FloatText F] [DecidableEq F] in
/-- The fingerprints of the rows are those of contents that pass. -/
theorem JudgeLoop.mem_fingerprints {cfg : Config} {tk : Toolkit F} {env : Surroundings}
    {s t : State F} {outcomes : List (MsgId × Verdict)} {done : Direct F}
    {acc : Tally F × List (Row F)} (h : JudgeLoop cfg tk env s outcomes done acc t) {k : Nat}
    (hk : k ∈ acc.2.map Row.contentHash) :
    k ∈ (done.filterMap (passingOf cfg tk env)).map Passing.fingerprint := by
  obtain ⟨row, hrow, rfl⟩ := List.mem_map.mp hk
  obtain ⟨items, hsub, hrows⟩ := h.rows
  obtain ⟨x, hx, hfrom⟩ := exists_of_forall₂ hrows row hrow
  obtain ⟨language, score, hgate⟩ := hfrom.passed
  exact List.mem_map.mpr ⟨_, List.mem_filterMap.mpr ⟨x, hsub.subset hx, passingOf_passed hgate⟩,
    hfrom.contentHash.symm⟩

omit [FloatText F] [DecidableEq F] in
theorem not_itemStops {cfg : Config} {tk : Toolkit F} {env : Surroundings}
    {x : MsgId × Article F × Value F} {language : Str} {score : F}
    (hgate : gate cfg tk env x.1 x.2.2 = .ok (.passed language score)) (hbands : BandsDivide cfg) :
    ¬ ItemStops cfg tk env x := by
  rintro (⟨e, he⟩ | ⟨reason, hreason, -⟩ | ⟨-, hnot⟩)
  · rw [hgate] at he
    cases he
  · rw [hgate] at hreason
    cases hreason
  · exact hnot hbands

section Turn

variable {cfg : Config} {tk : Toolkit F} {env : Surroundings} {s t : State F} {start : Tally F}
  {done : Direct F} {x : MsgId × Article F × Value F} {acc : Tally F × List (Row F)}

omit [FloatText F] [DecidableEq F] in
theorem passings_skip (hpassing : passingOf cfg tk env x = none) :
    (done ++ [x]).filterMap (passingOf cfg tk env) = done.filterMap (passingOf cfg tk env) := by
  rw [List.filterMap_append, List.filterMap_cons, hpassing]
  exact List.append_nil _

omit [FloatText F] [DecidableEq F] in
theorem passings_push {p : Passing F} (hpassing : passingOf cfg tk env x = some p) :
    (done ++ [x]).filterMap (passingOf cfg tk env) =
      done.filterMap (passingOf cfg tk env) ++ [p] := by
  rw [List.filterMap_append, List.filterMap_cons, hpassing]
  rfl

omit [FloatText F] [DecidableEq F] in
theorem not_unfitUrl_of_skip (hpassing : passingOf cfg tk env x = none) :
    ¬ UnfitUrl cfg tk env s (done ++ [x]) x := by
  rintro ⟨p, hp, -⟩
  rw [hpassing] at hp
  cases hp

omit [FloatText F] [DecidableEq F] in
/-- The turns so far and the next one go on. -/
theorem JudgeTally.goes_snoc (h : JudgeTally cfg tk env s start done acc t)
    (hstops : ¬ ItemStops cfg tk env x) (hurl : ¬ UnfitUrl cfg tk env s (done ++ [x]) x) :
    ∀ y ∈ done ++ [x], ¬ ItemStops cfg tk env y ∧ ¬ UnfitUrl cfg tk env s (done ++ [x]) y := by
  intro y hy
  rcases List.mem_append.mp hy with hy | hy
  · refine ⟨(h.goes y hy).1, fun hunfit => (h.goes y hy).2 ?_⟩
    exact hunfit.sublist (List.sublist_append_left _ _)
  · obtain rfl := List.mem_singleton.mp hy
    exact ⟨hstops, hurl⟩

omit [FloatText F] [DecidableEq F] in
theorem JudgeTally.before (h : JudgeTally cfg tk env s start done acc t)
    (hfresh : FreshItems cfg tk env s (done ++ [x])) :
    acc.2.map Row.passing = done.filterMap (passingOf cfg tk env) ∧
      total acc.1.srcRej = total acc.1.stats :=
  h.fresh (hfresh.sublist (List.sublist_append_left _ _))

omit [FloatText F] in
theorem JudgeTally.rejected (h : JudgeTally cfg tk env s start done acc t) {reason : Str}
    {tally : Tally F} (hgate : gate cfg tk env x.1 x.2.2 = .ok (.rejected reason))
    (htally : acc.1.reject reason (sourceOf x.2.1) x.1 (.rejected reason) = .ok tally) :
    JudgeTally cfg tk env s start (done ++ [x]) (tally, acc.2) t := by
  have hcount := h.count
  have hlength := h.outcomes
  have hdone : (done ++ [x]).length = done.length + 1 := List.length_append
  obtain ⟨hkeyed, hstats, hsrc, hout⟩ := h.keyed.reject htally
  have hpassing : passingOf cfg tk env x = none := by rw [passingOf, hgate]
  refine ⟨h.metrics, hkeyed, by dsimp only; omega, by dsimp only; omega, h.bands,
    h.goes_snoc ?_ (not_unfitUrl_of_skip hpassing), fun hfresh => ⟨?_, ?_⟩⟩
  · rintro (⟨e, he⟩ | ⟨reason', hreason, hsource⟩ | ⟨hsome, -⟩)
    · rw [hgate] at he
      cases he
    · rw [(reject_ok htally).1] at hsource
      cases hsource
    · rw [hpassing] at hsome
      cases hsome
  · rw [passings_skip hpassing]
    exact (h.before hfresh).1
  · have hsame := (h.before hfresh).2
    dsimp only
    omega

omit [FloatText F] [DecidableEq F] in
theorem JudgeTally.lang (h : JudgeTally cfg tk env s start done acc t)
    (hgate : gate cfg tk env x.1 x.2.2 = .ok .lang) :
    JudgeTally cfg tk env s start (done ++ [x]) (acc.1.count (lit "lang") x.1 .lang, acc.2) t := by
  have hcount := h.count
  have hlength := h.outcomes
  have hdone : (done ++ [x]).length = done.length + 1 := List.length_append
  obtain ⟨hkeyed, hstats, hout⟩ := h.keyed.count (lit "lang") x.1 .lang
  have hpassing : passingOf cfg tk env x = none := by rw [passingOf, hgate]
  refine ⟨h.metrics, hkeyed, by dsimp only; omega, by dsimp only; omega, h.bands,
    h.goes_snoc ?_ (not_unfitUrl_of_skip hpassing), fun hfresh => ?_⟩
  · rintro (⟨e, he⟩ | ⟨reason', hreason, -⟩ | ⟨hsome, -⟩)
    · rw [hgate] at he
      cases he
    · rw [hgate] at hreason
      cases hreason
    · rw [hpassing] at hsome
      cases hsome
  · exact (hfresh.language x (List.mem_append_right _ List.mem_cons_self) hgate).elim

omit [FloatText F] [DecidableEq F] in
/-- A duplicate of the index, of the process, or of an earlier content. -/
theorem JudgeTally.dup (h : JudgeTally cfg tk env s start done acc t) {language : Str} {score : F}
    (hgate : gate cfg tk env x.1 x.2.2 = .ok (.passed language score)) (hbands : BandsDivide cfg)
    {chash : Nat} (hchash : fingerprint cfg tk x.2.2 = chash)
    (hknown : captured cfg s chash = true ∨ chash ∈ s.seenHashes ∨
      chash ∈ (done.filterMap (passingOf cfg tk env)).map Passing.fingerprint) :
    JudgeTally cfg tk env s start (done ++ [x]) (acc.1.count (lit "dup") x.1 (.dup chash), acc.2)
      t := by
  have hcount := h.count
  have hlength := h.outcomes
  have hdone : (done ++ [x]).length = done.length + 1 := List.length_append
  obtain ⟨hkeyed, hstats, hout⟩ := h.keyed.count (lit "dup") x.1 (.dup chash)
  have hpassing := passingOf_passed hgate
  rw [hchash] at hpassing
  refine ⟨h.metrics, hkeyed, by dsimp only; omega, by dsimp only; omega, h.bands,
    h.goes_snoc (not_itemStops hgate hbands) ?_, fun hfresh => ?_⟩
  · rintro ⟨p, hp, -, hcaptured, hseen, hcount⟩
    obtain rfl := Option.some.inj (hpassing.symm.trans hp)
    rcases hknown with hknown | hknown | hknown
    · rw [hcaptured] at hknown
      cases hknown
    · exact hseen hknown
    · rw [passings_push hpassing, List.map_append, List.count_append] at hcount
      have hpos := List.count_pos_iff.mpr hknown
      have hone : (([⟨chash, tk.sha256 (contentText (urlOf x.2.1)), getField x.2.1
          (lit "source_type") (.str (lit "devto"))⟩] : List (Passing F)).map
            Passing.fingerprint).count chash = 1 := List.count_singleton_self
      dsimp only at hcount
      omega
  · have hunknown := hfresh.unknown _ (by rw [passings_push hpassing]; exact List.mem_concat_self)
    have hdistinct := hfresh.distinct
    rw [passings_push hpassing, List.map_append] at hdistinct
    rcases hknown with hknown | hknown | hknown
    · rw [hunknown.1] at hknown
      cases hknown
    · exact (hunknown.2 hknown).elim
    · exact (List.disjoint_of_nodup_append hdistinct hknown List.mem_cons_self).elim

omit [FloatText F] [DecidableEq F] in
theorem JudgeTally.kept (h : JudgeTally cfg tk env s start done acc t) {language : Str} {score : F}
    (hgate : gate cfg tk env x.1 x.2.2 = .ok (.passed language score)) (hbands : BandsDivide cfg)
    {chash : Nat} (hchash : fingerprint cfg tk x.2.2 = chash) {url : Str}
    (hurl : encodeUrl (urlOf x.2.1) = .ok url) :
    JudgeTally cfg tk env s start (done ++ [x]) (acc.1.keep x.1 (.kept chash),
      acc.2 ++ [rowOf tk x.2.1 url (contentText x.2.2) language chash score])
      (t.remember cfg.seenMaxlen chash) := by
  have hcount := h.count
  have hlength := h.outcomes
  have hdone : (done ++ [x]).length = done.length + 1 := List.length_append
  have hpassing := passingOf_passed hgate
  have hrows : (acc.2 ++ [rowOf tk x.2.1 url (contentText x.2.2) language chash score]).length =
      acc.2.length + 1 := List.length_append
  have houts : (acc.1.keep x.1 (.kept chash)).outcomes.length = acc.1.outcomes.length + 1 :=
    List.length_append
  refine ⟨h.metrics, ⟨h.keyed.reasons, h.keyed.sources⟩, ?_, ?_, fun _ => hbands,
    h.goes_snoc (not_itemStops hgate hbands) ?_, fun hfresh => ⟨?_, (h.before hfresh).2⟩⟩
  · rw [hrows, hdone]
    change total acc.1.stats + _ = _
    omega
  · rw [houts, hdone]
    omega
  · rintro ⟨p, -, ⟨e, he⟩, -⟩
    rw [hurl] at he
    cases he
  · rw [passings_push hpassing, List.map_append, (h.before hfresh).1, encodeUrl_ok hurl, hchash]
    rfl

omit [FloatText F] in
theorem judgeTally_turn {outcomes : List (MsgId × Verdict)} {acc' : Tally F × List (Row F)}
    {t' : State F} (hloop : JudgeLoop cfg tk env s outcomes done acc t)
    (h : JudgeTally cfg tk env s start done acc t) (hturn : Judged cfg tk env t acc x acc' t') :
    JudgeTally cfg tk env s start (done ++ [x]) acc' t' := by
  cases hturn with
  | rejected reason tally hgate htally => exact h.rejected hgate htally
  | lang hgate => exact h.lang hgate
  | dup language score chash hgate hbands hchash hdup =>
    refine h.dup hgate hbands hchash.symm ?_
    rcases hdup with hdup | hdup
    · exact .inl (captured_congr cfg hloop.corpus.buckets chash ▸ hdup)
    · exact .inr ((hloop.seenHashes chash hdup).imp_right hloop.mem_fingerprints)
  | kept language score chash url hgate hbands hchash hnot hseen hurl =>
    exact h.kept hgate hbands hchash.symm hurl

end Turn

theorem Judges.tally {cfg : Config} {tk : Toolkit F} {env : Surroundings}
    {messages : List Message} {s t u : State F} {tally : Tally F} {rows : List (Row F)}
    {extraction : Tally F × Direct F}
    (h : Judges cfg tk env messages s tally rows t extraction u)
    (hextract : ExtractedTally cfg env messages extraction) :
    JudgeTally cfg tk env u extraction.1 extraction.2 (tally, rows) t := by
  have hboth := h.turns.invariant (I := fun done acc t =>
      JudgeLoop cfg tk env u extraction.1.outcomes done acc t ∧
        JudgeTally cfg tk env u extraction.1 done acc t)
    ⟨⟨SameCorpus.refl u, ⟨rfl, rfl, rfl⟩, (List.append_nil _).symm, fun _ hk => Or.inl hk,
        ⟨[], List.nil_sublist _, .nil⟩, fun _ ho => Or.inl ho⟩,
      ⟨rfl, hextract.keyed, rfl, rfl, fun hne => absurd rfl hne, nofun,
        fun _ => ⟨rfl, hextract.sources⟩⟩⟩
    fun _ _ _ _ _ _ _ hdone hturn =>
      ⟨judgeLoop_turn hdone.1 hturn, judgeTally_turn hdone.1 hdone.2 hturn⟩
  exact hboth.2

/-! ## Storing -/

omit [FloatText F] in
theorem countSources_amounts {rows : List (Row F)} {d : List (Value F × Nat)}
    (h : countSources rows = .ok d) : total d = rows.length ∧
      ∀ source, amount d source = rows.countP fun row => decide (row.sourceType = source) := by
  suffices haux : ∀ (rows : List (Row F)) (d₀ : List (Value F × Nat)), (d₀.map Prod.fst).Nodup →
      rows.foldlM (fun d row => if hashable row.sourceType then .ok (bump d row.sourceType)
        else (.error .typeError : Except PyExn (List (Value F × Nat)))) d₀ = .ok d →
      total d = total d₀ + rows.length ∧ ∀ source, amount d source =
        amount d₀ source + rows.countP fun row => decide (row.sourceType = source) by
    obtain ⟨htotal, hamount⟩ := haux rows [] List.nodup_nil h
    rw [total_nil, Nat.zero_add] at htotal
    refine ⟨htotal, fun source => ?_⟩
    rw [hamount source, amount_nil, Nat.zero_add]
  clear h
  intro rows
  induction rows with
  | nil =>
    intro d₀ _ h
    cases h
    exact ⟨rfl, fun _ => rfl⟩
  | cons row rows ih =>
    intro d₀ hnodup h
    rw [List.foldlM_cons] at h
    by_cases hrow : hashable row.sourceType = true
    · rw [if_pos hrow] at h
      obtain ⟨htotal, hamount⟩ := ih (bump d₀ row.sourceType) (nodup_bump hnodup _) h
      have hbump := total_bump hnodup row.sourceType
      refine ⟨by rw [List.length_cons]; omega, fun source => ?_⟩
      have hbump' := amount_bump hnodup row.sourceType source
      have hcons := List.countP_cons (p := fun row : Row F => decide (row.sourceType = source))
        (a := row) (l := rows)
      simp only [decide_eq_true_eq] at hcons
      rw [hamount source, hbump', hcons]
      omega
    · rw [if_neg hrow] at h
      cases h

omit [FloatText F] [DecidableEq F] in
/-- Rows for different new URLs are all added. -/
theorem insertRows_new {table rows : List (Row F)}
    (hnew : ∀ row ∈ rows, row.urlHash ∉ table.map Row.urlHash)
    (hdistinct : (rows.map Row.urlHash).Nodup) : rows.foldl insertRow table = table ++ rows := by
  induction rows generalizing table with
  | nil => exact (List.append_nil _).symm
  | cons row rows ih =>
    obtain ⟨hrow, hdistinct⟩ := List.nodup_cons.mp hdistinct
    rw [List.foldl_cons, insertRow, if_neg (hnew row List.mem_cons_self), ih _ hdistinct,
      List.append_assoc]
    · rfl
    · intro row' hrow' hmem
      rw [List.map_append, List.mem_append] at hmem
      rcases hmem with hmem | hmem
      · exact hnew row' (List.mem_cons_of_mem _ hrow') hmem
      · exact hrow (List.mem_singleton.mp hmem ▸ List.mem_map_of_mem hrow')

/-- The rows have different new URLs, are counted by source and fit one page. -/
structure NewRows (table rows : List (Row F)) : Prop where
  new : ∀ row ∈ rows, row.urlHash ∉ table.map Row.urlHash
  distinct : (rows.map Row.urlHash).Nodup
  page : rows.length ≤ 200
  sources : ∀ row ∈ rows, hashable row.sourceType = true

omit [FloatText F] [DecidableEq F] in
theorem NewRows.count {table rows : List (Row F)} (h : NewRows table rows) :
    insertPages table rows = (rows.length, table ++ rows) := by
  have hpage := h.page
  have hlast : lastPage rows = 0 := by
    rw [lastPage, Nat.div_eq_of_lt (by omega)]
  have hrows := insertRows_new h.new h.distinct
  refine Prod.ext ?_ ((insertPages_articles table rows).trans hrows)
  rw [insertPages_count, hlast, hrows, List.take_zero, List.length_append]
  change _ - table.length = _
  omega

/-- The table, the acknowledgements and the counters are those of `u` with the rows and the
amounts added. -/
structure Posted (u : State F) (rows : List (Row F)) (entries : List (Counter F × Nat))
    (t : State F) : Prop where
  articles : t.articles = u.articles ++ rows
  acked : t.acked = u.acked
  metrics : ∀ c, t.metrics c = u.metrics c + amount entries c

/-- What the counters get for rows with these sources. -/
def storedEntries (rows : List (Row F)) (d : List (Value F × Nat)) : List (Counter F × Nat) :=
  (.stored, rows.length) :: d.map fun e => (.storedBySource e.1, e.2)

/-- What the counters get for these rejections. -/
def rejectedEntries (reasons : List (Str × Nat)) (sources : List (Value F × Nat)) :
    List (Counter F × Nat) :=
  (.rejected, total reasons) :: (reasons.map fun e => (.rejectedByReason e.1, e.2)) ++
    sources.map fun e => (.rejectedBySource e.1, e.2)

end WebSpider.Processor
