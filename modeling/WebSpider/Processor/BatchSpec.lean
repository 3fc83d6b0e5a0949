import WebSpider.Processor.Phases
import Mathlib.Data.List.Forall2

/-!
# What a batch does

The lemmas on single turns are put together along the loops of `process_batch`:
`extractBatch_ends` for the first two phases, `judgeLoop_turn` for the third,
and `processBatch_ends` for the whole.
-/

namespace WebSpider.Processor

open Text Json Bits Effects

variable {F : Type} [FloatText F] [DecidableEq F]

/-! ## The batch -/

/-- The article and the content that are judged for a message. -/
inductive Obtained (cfg : Config) (env : Surroundings) (fetched : Fetched) (m : Message) :
    Article F → Value F → Prop
  | direct (article : Article F) (hpayload : payload cfg m = some (.obj article))
      (hmd : truthy (contentMd article) = true) :
      Obtained cfg env fetched m article (contentMd article)
  | fetched (article : Article F) (text : Str) (hpayload : payload cfg m = some (.obj article))
      (hmd : truthy (contentMd article) = false)
      (hcontent : fetchContent env fetched (urlOf article) = .ok (.text text)) :
      Obtained cfg env fetched m article (.str text)

omit [DecidableEq F] in
theorem Obtained.payload_eq {cfg : Config} {env : Surroundings} {fetched : Fetched} {m : Message}
    {article : Article F} {content : Value F} (h : Obtained cfg env fetched m article content) :
    payload cfg m = some (.obj article) := by
  cases h with
  | direct hpayload _ => exact hpayload
  | fetched _ hpayload _ _ => exact hpayload

omit [DecidableEq F] in
/-- What is judged for a message is determined. -/
theorem Obtained.unique {cfg : Config} {env : Surroundings} {fetched : Fetched} {m : Message}
    {article article' : Article F} {content content' : Value F}
    (h : Obtained cfg env fetched m article content)
    (h' : Obtained cfg env fetched m article' content') :
    article = article' ∧ content = content' := by
  have harticle : article = article' := by
    have hsame := h.payload_eq.symm.trans h'.payload_eq
    simpa using hsame
  subst harticle
  refine ⟨rfl, ?_⟩
  cases h with
  | direct _ hmd =>
    cases h' with
    | direct _ _ => rfl
    | fetched _ _ hmd' _ =>
      rw [hmd] at hmd'
      cases hmd'
  | fetched _ _ hmd hcontent =>
    cases h' with
    | direct _ hmd' =>
      rw [hmd] at hmd'
      cases hmd'
    | fetched _ _ _ hcontent' =>
      rw [hcontent] at hcontent'
      cases hcontent'
      rfl

/-- No content could be extracted for the message. -/
def ExtractFails (F : Type) [FloatText F] (cfg : Config) (env : Surroundings) (m : Message) :
    Prop :=
  ∃ fetched, env.fetched = some fetched ∧ ∃ article : Article F,
    payload cfg m = some (.obj article) ∧ truthy (contentMd article) = false ∧
    fetchContent env fetched (urlOf article) = .ok .missing

/-- Every message added to the dead-letter stream was added once and is in the guard set. -/
def ParkedOnce (s : State F) : Prop :=
  ∀ i, s.parked.count i = if i ∈ s.dlqSeen then 1 else 0

omit [FloatText F] [DecidableEq F] in
theorem Parks.parkedOnce {env : Surroundings} {i : MsgId} {s t : State F} (h : Parks env i s t)
    (hs : ParkedOnce s) : ParkedOnce t := by
  rcases h.atomic with ⟨hseen, hparked⟩ | ⟨hnot, hseen, hparked⟩
  · intro j
    rw [hseen, hparked]
    exact hs j
  · intro j
    rw [hseen, hparked, List.count_append, hs j]
    by_cases hj : j = i
    · subst hj
      simp [hnot]
    · simp [hj, Ne.symm hj]

omit [FloatText F] [DecidableEq F] in
theorem Parks.dlqSeen_subset {env : Surroundings} {i : MsgId} {s t : State F}
    (h : Parks env i s t) : ∀ j ∈ s.dlqSeen, j ∈ t.dlqSeen := by
  rcases h.atomic with ⟨hseen, -⟩ | ⟨-, hseen, -⟩
  · exact fun j hj => hseen ▸ hj
  · exact fun j hj => hseen ▸ List.mem_append_left _ hj

/-- Phases 1 and 2 change nothing but the counters and the dead-letter stream,
and park no message twice. -/
structure ExtractFrame (s t : State F) : Prop where
  corpus : SameCorpus s t
  seen : SameSeen s t
  parkedOnce : ParkedOnce s → ParkedOnce t
  dlqSeen : ∀ i ∈ s.dlqSeen, i ∈ t.dlqSeen

omit [FloatText F] [DecidableEq F] in
theorem ExtractFrame.refl (s : State F) : ExtractFrame s s :=
  ⟨SameCorpus.refl s, ⟨rfl, rfl⟩, id, fun _ hi => hi⟩

/-- An article that is fetched ends with content among the items, or with a
countable rejection. -/
def Settled (env : Surroundings) (fetched : Fetched) (items : Direct F)
    (x : MsgId × Article F) : Prop :=
  ∃ content, fetchContent env fetched (urlOf x.2) = .ok content ∧
    (∀ text, content = .text text → (x.1, x.2, .str text) ∈ items) ∧
    ((∀ text, content ≠ .text text) → hashable (sourceOf x.2) = true)

omit [FloatText F] [DecidableEq F] in
theorem Settled.mono {env : Surroundings} {fetched : Fetched} {items items' : Direct F}
    {x : MsgId × Article F} (h : Settled env fetched items x)
    (hitems : ∀ y ∈ items, y ∈ items') : Settled env fetched items' x := by
  obtain ⟨content, hcontent, htext, hsource⟩ := h
  exact ⟨content, hcontent, fun text ht => hitems _ (htext text ht), hsource⟩

/-- Phases 1 and 2 of a batch, from `s` to `t`. -/
structure ExtractedBatch (cfg : Config) (env : Surroundings) (messages : List Message)
    (s : State F) (r : Tally F × Direct F) (t : State F) : Prop extends ExtractFrame s t where
  obtained : ∃ fetched, env.fetched = some fetched ∧
    (∀ x ∈ r.2, ∃ m ∈ messages, m.id = x.1 ∧ Obtained cfg env fetched m x.2.1 x.2.2) ∧
    ∀ m ∈ messages, Parses F cfg m ∧ ∀ v, payload cfg m = some v → ∃ article, v = .obj article ∧
      (truthy (contentMd article) = true → (m.id, article, contentMd article) ∈ r.2) ∧
      (truthy (contentMd article) = false → Settled env fetched r.2 (m.id, article))
  ids : (r.2.map Prod.fst).Subperm (messages.map Message.id)
  outcomes : ∀ o ∈ r.1.outcomes, o.2 = .notFound ∨ (o.2 = .extractFail ∧
    (∃ m ∈ messages, m.id = o.1 ∧ ExtractFails F cfg env m) ∧
    ((env.plan (.dlqPush o.1)).executed = true → o.1 ∈ t.dlqSeen))

/-- Why phases 1 and 2 raise. -/
def ExtractBatchRaises (F : Type) [FloatText F] (cfg : Config) (env : Surroundings)
    (messages : List Message) : Prop :=
  (∃ m ∈ messages, ¬ Parses F cfg m) ∨
    (∃ m ∈ messages, ∃ v : Value F, payload cfg m = some v ∧ ∀ article, v ≠ .obj article) ∨
    env.fetched = none ∨
    ∃ fetched, env.fetched = some fetched ∧ ∃ m ∈ messages, ∃ article : Article F,
      payload cfg m = some (.obj article) ∧ truthy (contentMd article) = false ∧
      ExtractRaises env fetched (m.id, article)

/-- The loop over `to_fetch` after the turns `done`. -/
structure ExtractLoop (env : Surroundings) (fetched : Fetched) (direct : Direct F)
    (toFetch : List (MsgId × Article F)) (s : State F) (done : List (MsgId × Article F))
    (acc : Tally F × Direct F) (t : State F) : Prop extends ExtractFrame s t where
  items : ∀ x ∈ acc.2, x ∈ direct ∨ ∃ text, x.2.2 = .str text ∧ (x.1, x.2.1) ∈ toFetch ∧
    fetchContent env fetched (urlOf x.2.1) = .ok (.text text)
  kept : ∀ x ∈ direct, x ∈ acc.2
  settled : ∀ x ∈ done, Settled env fetched acc.2 x
  ids : (acc.2.map Prod.fst).Sublist (direct.map Prod.fst ++ done.map Prod.fst)
  outcomes : ∀ o ∈ acc.1.outcomes, o.2 = .notFound ∨ (o.2 = .extractFail ∧
    (∃ article, (o.1, article) ∈ toFetch ∧
      fetchContent env fetched (urlOf article) = .ok .missing) ∧
    ((env.plan (.dlqPush o.1)).executed = true → o.1 ∈ t.dlqSeen))

omit [FloatText F] in
theorem extractLoop_turn {env : Surroundings} {fetched : Fetched} {direct : Direct F}
    {toFetch : List (MsgId × Article F)} {s : State F} {done : List (MsgId × Article F)}
    {x : MsgId × Article F} {acc acc' : Tally F × Direct F} {t t' : State F}
    (hx : x ∈ toFetch) (h : ExtractLoop env fetched direct toFetch s done acc t)
    (hturn : Extracts env fetched t acc x acc' t') :
    ExtractLoop env fetched direct toFetch s (done ++ [x]) acc' t' := by
  have hids : (acc.2.map Prod.fst).Sublist
      (direct.map Prod.fst ++ (done ++ [x]).map Prod.fst) := by
    rw [List.map_append, ← List.append_assoc]
    exact h.ids.trans (List.sublist_append_left _ _)
  have hsettled (hx : Settled env fetched acc'.2 x) (hacc : ∀ y ∈ acc.2, y ∈ acc'.2) :
      ∀ y ∈ done ++ [x], Settled env fetched acc'.2 y := by
    intro y hy
    rcases List.mem_append.mp hy with hy | hy
    · exact (h.settled y hy).mono hacc
    · rw [List.mem_singleton] at hy
      exact hy ▸ hx
  cases hturn with
  | gone tally hcontent htally =>
    refine ⟨h.toExtractFrame, h.items, h.kept, hsettled ⟨.gone, hcontent, nofun, fun _ =>
      (reject_ok htally).1⟩ fun _ hy => hy, hids, fun o ho => ?_⟩
    rw [(reject_ok htally).2, List.mem_append, List.mem_singleton] at ho
    rcases ho with ho | rfl
    · exact h.outcomes o ho
    · exact Or.inl rfl
  | missing tally _ hcontent htally hparks =>
    refine ⟨⟨h.corpus.trans hparks.corpus, ⟨hparks.seen.1.trans h.seen.1,
      hparks.seen.2.trans h.seen.2⟩, fun hs => hparks.parkedOnce (h.parkedOnce hs),
      fun i hi => hparks.dlqSeen_subset i (h.dlqSeen i hi)⟩, h.items, h.kept,
      hsettled ⟨.missing, hcontent, nofun, fun _ => (reject_ok htally).1⟩ fun _ hy => hy, hids,
      fun o ho => ?_⟩
    rw [(reject_ok htally).2, List.mem_append, List.mem_singleton] at ho
    rcases ho with ho | rfl
    · rcases h.outcomes o ho with hgone | ⟨hfail, hcause, hexec⟩
      · exact Or.inl hgone
      · exact Or.inr ⟨hfail, hcause, fun he => hparks.dlqSeen_subset _ (hexec he)⟩
    · exact Or.inr ⟨rfl, ⟨x.2, hx, hcontent⟩, hparks.executed⟩
  | text text hcontent =>
    refine ⟨h.toExtractFrame, fun y hy => ?_, fun y hy => List.mem_append_left _ (h.kept y hy),
      hsettled ⟨.text text, hcontent, ?_, fun hne => (hne text rfl).elim⟩
        fun y hy => List.mem_append_left _ hy, ?_, h.outcomes⟩
    · rcases List.mem_append.mp hy with hy | hy
      · exact h.items y hy
      · rw [List.mem_singleton] at hy
        subst hy
        exact Or.inr ⟨text, rfl, hx, hcontent⟩
    · intro text' htext
      cases htext
      exact List.mem_append_right _ List.mem_cons_self
    · rw [List.map_append, List.map_append, ← List.append_assoc]
      exact h.ids.append (List.Sublist.refl _)

section Extract

variable {cfg : Config} {env : Surroundings} {messages : List Message}
  {parsed : List (MsgId × Value F)}

omit [DecidableEq F] in
theorem exists_message (hparse : parse cfg messages = .ok parsed) {x : MsgId × Value F}
    (hx : x ∈ parsed) : ∃ m ∈ messages, m.id = x.1 ∧ payload cfg m = some x.2 := by
  rw [parse_ok hparse] at hx
  obtain ⟨m, hm, hmx⟩ := List.mem_filterMap.mp hx
  obtain ⟨v, hv, rfl⟩ := Option.map_eq_some_iff.mp hmx
  exact ⟨m, hm, rfl, hv⟩

omit [DecidableEq F] in
theorem exists_unparsed {e : PyExn} (he : parse (F := F) cfg messages = .error e) :
    ∃ m ∈ messages, ¬ Parses F cfg m := by
  by_contra hnone
  have hall : ∀ m ∈ messages, Parses F cfg m := by
    intro m hm
    by_contra hparses
    exact hnone ⟨m, hm, hparses⟩
  obtain ⟨parsed, hparsed⟩ := parse_total hall
  rw [hparsed] at he
  cases he

omit [DecidableEq F] in
theorem exists_not_object (hparse : parse cfg messages = .ok parsed) {e : PyExn}
    (he : splitDirect parsed = .error e) :
    ∃ m ∈ messages, ∃ v : Value F, payload cfg m = some v ∧ ∀ article, v ≠ .obj article := by
  by_contra hnone
  have hall : ∀ x ∈ parsed, ∃ article, x.2 = .obj article := by
    intro x hx
    obtain ⟨m, hm, -, hpayload⟩ := exists_message hparse hx
    by_contra hobj
    exact hnone ⟨m, hm, x.2, hpayload, fun article harticle => hobj ⟨article, harticle⟩⟩
  obtain ⟨split, hsplit⟩ := splitDirect_total hall
  rw [hsplit] at he
  cases he

variable {direct : Direct F} {toFetch : List (MsgId × Article F)} {fetched : Fetched}

omit [DecidableEq F] in
/-- The articles after all turns of the loop are those of the messages. -/
theorem ExtractLoop.extracted {s t : State F} {acc : Tally F × Direct F}
    (hloop : ExtractLoop env fetched direct toFetch s toFetch acc t)
    (hparse : parse cfg messages = .ok parsed) (hsplit : splitDirect parsed = .ok (direct, toFetch))
    (hf : env.fetched = some fetched) : ExtractedBatch cfg env messages s acc t := by
  obtain ⟨hdirect, hfetch, hperm, hall⟩ := splitDirect_ok hsplit
  refine ⟨hloop.toExtractFrame, ⟨fetched, hf, fun x hx => ?_, fun m hm =>
    ⟨parses_of_parse hparse m hm, fun v hv => ?_⟩⟩, ?_, fun o ho => ?_⟩
  · rcases hloop.items x hx with hx | ⟨text, htext, hmem, hcontent⟩
    · obtain ⟨hmem, hmd, htruthy⟩ := hdirect x hx
      obtain ⟨m, hm, hid, hpayload⟩ := exists_message hparse hmem
      exact ⟨m, hm, hid, hmd ▸ .direct x.2.1 hpayload htruthy⟩
    · obtain ⟨hmem, hmd⟩ := hfetch _ hmem
      obtain ⟨m, hm, hid, hpayload⟩ := exists_message hparse hmem
      exact ⟨m, hm, hid, htext ▸ .fetched x.2.1 text hpayload hmd hcontent⟩
  · have hmem : (m.id, v) ∈ parsed := by
      rw [parse_ok hparse]
      exact List.mem_filterMap.mpr ⟨m, hm, by rw [hv]; rfl⟩
    obtain ⟨article, harticle, hin, hout⟩ := hall _ hmem
    exact ⟨article, harticle, fun ht => hloop.kept _ (hin ht),
      fun hf => hloop.settled _ (hout hf)⟩
  · have hids : (parsed.map Prod.fst).Sublist (messages.map Message.id) := by
      rw [parse_ok hparse]
      exact filterMap_ids_sublist _ messages
    exact (hloop.ids.subperm.trans hperm.subperm).trans hids.subperm
  · rcases hloop.outcomes o ho with hgone | ⟨hfail, ⟨article, hmem, hcontent⟩, hexec⟩
    · exact Or.inl hgone
    · obtain ⟨hmem, hmd⟩ := hfetch _ hmem
      obtain ⟨m, hm, hid, hpayload⟩ := exists_message hparse hmem
      exact Or.inr ⟨hfail, ⟨m, hm, hid, fetched, hf, article, hpayload, hmd, hcontent⟩, hexec⟩

end Extract

theorem extractBatch_ends (cfg : Config) (tk : Toolkit F) (env : Surroundings)
    (messages : List Message) (s : State F) :
    Ends (extractBatch cfg tk env messages) s
      (fun r t => ExtractedBatch cfg env messages s r t)
      (fun _ t => ExtractFrame s t ∧ ExtractBatchRaises F cfg env messages) := by
  refine ends_bind (ends_lift (fun parsed hparse => ?_) fun e he => ?_)
  · refine ends_bind (ends_lift (fun split hsplit => ?_) fun e he => ?_)
    · obtain ⟨direct, toFetch⟩ := split
      refine ends_bind (ends_lift (fun fetched hfetched => ?_) fun e he => ?_)
      · have hf : env.fetched = some fetched := by
          cases hopt : env.fetched with
          | none => rw [hopt] at hfetched; cases hfetched
          | some f => rw [hopt] at hfetched; cases hfetched; rfl
        have hstart : ExtractLoop env fetched direct toFetch s [] (.empty, direct) s :=
          ⟨ExtractFrame.refl s, fun _ hx => Or.inl hx, fun _ hx => hx, nofun,
            List.sublist_append_left _ _, nofun⟩
        refine ends_mono (ends_turns fun x _ acc t =>
          extractStep_ends cfg tk env fetched acc x t) ?_ ?_
        · rintro ⟨tally, extracted⟩ t hturns
          have hloop := hturns.invariant hstart fun done x acc t acc' t' hx hdone hturn =>
            extractLoop_turn hx hdone hturn
          exact hloop.extracted hparse hsplit hf
        · rintro e t ⟨done, x, rest, acc, u, hxs, hturns, rfl, hraises⟩
          have hsub : ∀ y ∈ done, y ∈ toFetch := fun y hy => hxs ▸ List.mem_append_left _ hy
          have hloop := hturns.invariant hstart fun done x acc t acc' t' hx hdone hturn =>
            extractLoop_turn (hsub x hx) hdone hturn
          have hx : x ∈ toFetch := hxs ▸ List.mem_append_right _ List.mem_cons_self
          obtain ⟨hmem, hmd⟩ := (splitDirect_ok hsplit).2.1 x hx
          obtain ⟨m, hm, hid, hpayload⟩ := exists_message hparse hmem
          refine ⟨hloop.toExtractFrame, Or.inr (Or.inr (Or.inr
            ⟨fetched, hf, m, hm, x.2, hpayload, hmd, ?_⟩))⟩
          exact hraises
      · refine ⟨ExtractFrame.refl s, Or.inr (Or.inr (Or.inl ?_))⟩
        cases hopt : env.fetched with
        | none => rfl
        | some f => rw [hopt] at he; cases he
    · exact ⟨ExtractFrame.refl s, Or.inr (Or.inl (exists_not_object hparse he))⟩
  · exact ⟨ExtractFrame.refl s, Or.inl (exists_unparsed he)⟩

/-- The whole of phases 1 to 3, from `s` to `t`: the tally and the rows. -/
structure Judges (cfg : Config) (tk : Toolkit F) (env : Surroundings) (messages : List Message)
    (s : State F) (tally : Tally F) (rows : List (Row F)) (t : State F)
    (extraction : Tally F × Direct F) (u : State F) : Prop where
  extracts : ExtractedBatch cfg env messages s extraction u
  turns : Turns (Judged cfg tk env) u (extraction.1, []) extraction.2 (tally, rows) t

/-- An exception in the loop of phase 3: some turns, then one that raises. -/
structure JudgeBatchRaises (cfg : Config) (tk : Toolkit F) (env : Surroundings)
    (messages : List Message) (s t : State F) (extraction : Tally F × Direct F) (u : State F)
    (x : MsgId × Article F × Value F) : Prop where
  extracts : ExtractedBatch cfg env messages s extraction u
  item : x ∈ extraction.2
  turns : ∃ done rest acc v, extraction.2 = done ++ x :: rest ∧
    Turns (Judged cfg tk env) u (extraction.1, []) done acc v ∧ JudgeRaises cfg tk env v x t

/-- How a batch ends. Until the transaction is committed nothing but the
dead-letter stream and the memory of the process changes; from then on `J`
holds, which the counters and the registrations keep. -/
theorem processBatch_ends {cfg : Config} {tk : Toolkit F} {env : Surroundings}
    {messages : List Message} {s : State F} {Q E : State F → Prop}
    {J : Tally F → List (Row F) → State F → Prop} (hne : messages ≠ [])
    (hextract : ∀ t, ExtractFrame s t → ExtractBatchRaises F cfg env messages → E t)
    (hjudge : ∀ t extraction u x, JudgeBatchRaises cfg tk env messages s t extraction u x → E t)
    (hlost : ∀ tally rows t extraction u, Judges cfg tk env messages s tally rows t extraction u →
      (env.plan .insert).executed = false → E t)
    (hcommit : ∀ tally rows t extraction u,
      Judges cfg tk env messages s tally rows t extraction u → J tally rows (t.commit rows))
    (hcount : ∀ tally rows, KeptByCounters (J tally rows))
    (hindex : ∀ tally rows, ∀ row ∈ rows, KeptByIndex cfg row.contentHash (J tally rows))
    (hstore : ∀ tally rows t, J tally rows t → rows ≠ [] →
      env.plan .insert ≠ .returns ∨ CountRaises cfg env rows → E t)
    (hreject : ∀ tally rows t, J tally rows t → env.plan .rejections ≠ .returns → E t)
    (hack : ∀ tally rows t, J tally rows t → (∀ row ∈ rows, ∀ key ∈ keysOf cfg row.contentHash,
      decimal row.contentHash ∈ t.buckets key) →
      ((env.plan .xack).executed = true →
        Q (t.xack (messages.map Message.id) tally.outcomes)) ∧
      (env.plan .xack ≠ .returns → E t ∧ ((env.plan .xack).executed = true →
        E (t.xack (messages.map Message.id) tally.outcomes)))) :
    Ends (processBatch cfg tk env messages) s (fun _ t => Q t) (fun _ t => E t) := by
  refine ends_bind (ends_mono (extractBatch_ends cfg tk env messages s) ?_
    fun _ t h => hextract t h.1 h.2)
  rintro ⟨tally₀, extracted⟩ u hu
  refine ends_bind (ends_mono (ends_turns fun x _ acc t => judgeStep_ends cfg tk env acc x t) ?_ ?_)
  · rintro ⟨tally, rows⟩ t hturns
    have hjudges : Judges cfg tk env messages s tally rows t (tally₀, extracted) u := ⟨hu, hturns⟩
    have hJ := hcommit tally rows t _ u hjudges
    have hnil : rows = [] → J tally rows t := by
      rintro rfl
      rwa [State.commit_nil] at hJ
    refine ends_bind (ends_mono (storeRows_ends hnil hJ (hcount tally rows)
      (hindex tally rows)) ?_ ?_)
    · rintro _ v ⟨hv, hindexed⟩
      have hkept : KeptByCounters fun v : State F => J tally rows v ∧ ∀ row ∈ rows,
          ∀ key ∈ keysOf cfg row.contentHash, decimal row.contentHash ∈ v.buckets key :=
        fun c n w hw => ⟨hcount tally rows c n w hw.1, hw.2⟩
      refine ends_bind (ends_mono (writeRejections_ends ⟨hv, hindexed⟩ hkept) ?_ ?_)
      · rintro _ w ⟨hw, hw'⟩
        have hend := hack tally rows w hw hw'
        unfold acknowledge
        rw [if_neg hne]
        have hraised : ∀ done, env.plan .xack = .raises done → env.plan .xack ≠ .returns := by
          intro done hraise
          rw [hraise]
          exact Outcome.noConfusion
        refine ends_call (fun hok => hend.1 ?_) (fun done hraise hdone =>
          (hend.2 (hraised done hraise)).2 ?_) fun done hraise _ => (hend.2 (hraised done hraise)).1
        · rw [hok]
          rfl
        · rw [hraise]
          exact hdone
      · exact fun _ w hw => hreject tally rows w hw.1.1 hw.2
    · rintro _ v (⟨rfl, hexec⟩ | ⟨hv, hrows, hcause⟩)
      · exact hlost tally rows v _ u hjudges hexec
      · exact hstore tally rows v hv hrows hcause
  · rintro _ t ⟨done, x, rest, acc, v, hxs, hturns, hraises⟩
    refine hjudge t _ u x ⟨hu, ?_, done, rest, acc, v, hxs, hturns, hraises⟩
    rw [hxs]
    exact List.mem_append_right _ List.mem_cons_self

/-! ## The loop of phase 3 -/

/-- What a kept row was made from. -/
structure RowFrom (cfg : Config) (tk : Toolkit F) (env : Surroundings) (s : State F)
    (x : MsgId × Article F × Value F) (row : Row F) : Prop where
  passed : ∃ language score, gate cfg tk env x.1 x.2.2 = .ok (.passed language score)
  contentHash : row.contentHash = simhash tk (contentText x.2.2) cfg.simhashBits
  notCaptured : captured cfg s row.contentHash = false
  url : ∃ url, encodeUrl (urlOf x.2.1) = .ok url ∧ row.url = url ∧ row.urlHash = tk.sha256 url
  sourceType : hashable row.sourceType = hashable (sourceOf x.2.1)

/-- The loop after the turns `done`, from `s`. -/
structure JudgeLoop (cfg : Config) (tk : Toolkit F) (env : Surroundings) (s : State F)
    (outcomes : List (MsgId × Verdict)) (done : List (MsgId × Article F × Value F))
    (acc : Tally F × List (Row F)) (t : State F) : Prop where
  corpus : SameCorpus s t
  dlq : SameDlq s t
  inFlight : t.inFlight = s.inFlight ++ acc.2.map Row.contentHash
  seenHashes : ∀ h ∈ t.seenHashes, h ∈ s.seenHashes ∨ h ∈ acc.2.map Row.contentHash
  rows : ∃ items, items.Sublist done ∧ List.Forall₂ (RowFrom cfg tk env s) items acc.2
  outcomes : ∀ o ∈ acc.1.outcomes, o ∈ outcomes ∨ (∃ reason, o.2 = .rejected reason) ∨
    o.2 = .lang ∨ (∃ h, o.2 = .kept h) ∨ ∃ h, o.2 = .dup h ∧ (∃ x ∈ done, o.1 = x.1 ∧
      (∃ language score, gate cfg tk env x.1 x.2.2 = .ok (.passed language score)) ∧
      h = simhash tk (contentText x.2.2) cfg.simhashBits) ∧
      (captured cfg s h = true ∨ h ∈ s.seenHashes ∨ h ∈ acc.2.map Row.contentHash)

omit [FloatText F] [DecidableEq F] in
theorem captured_congr (cfg : Config) {s t : State F} (h : t.buckets = s.buckets) (c : Nat) :
    captured cfg t c = captured cfg s c := by
  simp only [captured, h]

omit [FloatText F] [DecidableEq F] in
theorem mem_pushSeen {seen : List Nat} {maxlen chash h : Nat} (hh : h ∈ pushSeen maxlen seen chash) :
    h ∈ seen ∨ h = chash := by
  have := List.mem_of_mem_drop hh
  simpa using this

omit [FloatText F] [DecidableEq F] in
theorem rowFrom_rowOf {cfg : Config} {tk : Toolkit F} {env : Surroundings} {s : State F}
    {x : MsgId × Article F × Value F} {language url : Str} {score : F} {chash : Nat}
    (hgate : gate cfg tk env x.1 x.2.2 = .ok (.passed language score))
    (hchash : chash = simhash tk (contentText x.2.2) cfg.simhashBits)
    (hcaptured : captured cfg s chash = false) (hurl : encodeUrl (urlOf x.2.1) = .ok url) :
    RowFrom cfg tk env s x (rowOf tk x.2.1 url (contentText x.2.2) language chash score) := by
  refine ⟨⟨language, score, hgate⟩, hchash, hcaptured, ⟨url, hurl, rfl, rfl⟩, ?_⟩
  simp only [rowOf, sourceOf, getField]
  cases lookup (lit "source_type") x.2.1 with
  | none => rfl
  | some v => rfl

omit [FloatText F] [DecidableEq F] in
/-- The outcomes after one more turn, when the turn adds one. -/
theorem judgeLoop_outcomes {cfg : Config} {tk : Toolkit F} {env : Surroundings} {s t : State F}
    {outcomes : List (MsgId × Verdict)} {done : List (MsgId × Article F × Value F)}
    {x : MsgId × Article F × Value F} {acc acc' : Tally F × List (Row F)} {v : Verdict}
    (h : JudgeLoop cfg tk env s outcomes done acc t)
    (hacc : acc'.1.outcomes = acc.1.outcomes ++ [(x.1, v)])
    (hrows : ∀ h ∈ acc.2.map Row.contentHash, h ∈ acc'.2.map Row.contentHash)
    (hnew : (∃ reason, v = .rejected reason) ∨ v = .lang ∨ (∃ h, v = .kept h) ∨
      ∃ h, v = .dup h ∧ (∃ language score,
        gate cfg tk env x.1 x.2.2 = .ok (.passed language score)) ∧
        h = simhash tk (contentText x.2.2) cfg.simhashBits ∧
        (captured cfg s h = true ∨ h ∈ s.seenHashes ∨ h ∈ acc'.2.map Row.contentHash)) :
    ∀ o ∈ acc'.1.outcomes, o ∈ outcomes ∨ (∃ reason, o.2 = .rejected reason) ∨
      o.2 = .lang ∨ (∃ h, o.2 = .kept h) ∨ ∃ h, o.2 = .dup h ∧ (∃ y ∈ done ++ [x], o.1 = y.1 ∧
        (∃ language score, gate cfg tk env y.1 y.2.2 = .ok (.passed language score)) ∧
        h = simhash tk (contentText y.2.2) cfg.simhashBits) ∧
        (captured cfg s h = true ∨ h ∈ s.seenHashes ∨ h ∈ acc'.2.map Row.contentHash) := by
  intro o ho
  rw [hacc, List.mem_append, List.mem_singleton] at ho
  rcases ho with ho | rfl
  · rcases h.outcomes o ho with hold | hold | hold | hold | ⟨k, hk, ⟨y, hy, hfrom⟩, hdup⟩
    · exact Or.inl hold
    · exact Or.inr (Or.inl hold)
    · exact Or.inr (Or.inr (Or.inl hold))
    · exact Or.inr (Or.inr (Or.inr (Or.inl hold)))
    · refine Or.inr (Or.inr (Or.inr (Or.inr ⟨k, hk, ⟨y, List.mem_append_left _ hy, hfrom⟩, ?_⟩)))
      rcases hdup with hdup | hdup | hdup
      · exact Or.inl hdup
      · exact Or.inr (Or.inl hdup)
      · exact Or.inr (Or.inr (hrows k hdup))
  · rcases hnew with hnew | hnew | hnew | ⟨k, hk, hgate, hchash, hdup⟩
    · exact Or.inr (Or.inl hnew)
    · exact Or.inr (Or.inr (Or.inl hnew))
    · exact Or.inr (Or.inr (Or.inr (Or.inl hnew)))
    · exact Or.inr (Or.inr (Or.inr (Or.inr ⟨k, hk, ⟨x, List.mem_append_right _ List.mem_cons_self,
        rfl, hgate, hchash⟩, hdup⟩)))

omit [FloatText F] in
theorem judgeLoop_turn {cfg : Config} {tk : Toolkit F} {env : Surroundings} {s : State F}
    {outcomes : List (MsgId × Verdict)} {done : List (MsgId × Article F × Value F)}
    {x : MsgId × Article F × Value F} {acc acc' : Tally F × List (Row F)} {t t' : State F}
    (h : JudgeLoop cfg tk env s outcomes done acc t) (hturn : Judged cfg tk env t acc x acc' t') :
    JudgeLoop cfg tk env s outcomes (done ++ [x]) acc' t' := by
  obtain ⟨items, hsub, hrows⟩ := h.rows
  have hold : ∃ items, items.Sublist (done ++ [x]) ∧
      List.Forall₂ (RowFrom cfg tk env s) items acc.2 :=
    ⟨items, hsub.trans (List.sublist_append_left _ _), hrows⟩
  have hcaptured := captured_congr cfg h.corpus.buckets
  cases hturn with
  | rejected reason tally hgate htally =>
    exact ⟨h.corpus, h.dlq, h.inFlight, h.seenHashes, hold,
      judgeLoop_outcomes h (reject_ok htally).2 (fun _ hk => hk) (Or.inl ⟨reason, rfl⟩)⟩
  | lang hgate =>
    exact ⟨h.corpus, h.dlq, h.inFlight, h.seenHashes, hold,
      judgeLoop_outcomes h rfl (fun _ hk => hk) (Or.inr (Or.inl rfl))⟩
  | dup language score chash hgate hbands hchash hdup =>
    refine ⟨h.corpus, h.dlq, h.inFlight, h.seenHashes, hold,
      judgeLoop_outcomes h rfl (fun _ hk => hk) (Or.inr (Or.inr (Or.inr
        ⟨chash, rfl, ⟨language, score, hgate⟩, hchash, ?_⟩)))⟩
    rcases hdup with hdup | hdup
    · exact Or.inl (hcaptured chash ▸ hdup)
    · exact Or.inr (h.seenHashes chash hdup)
  | kept language score chash url hgate hbands hchash hnot hseen hurl =>
    have hrow : (rowOf tk x.2.1 url (contentText x.2.2) language chash score).contentHash = chash :=
      rfl
    refine ⟨h.corpus.remember _ chash, h.dlq.remember _ chash, ?_, fun k hk => ?_,
      ⟨items ++ [x], hsub.append (List.Sublist.refl _), ?_⟩,
      judgeLoop_outcomes h rfl (fun k hk => ?_) (Or.inr (Or.inr (Or.inl ⟨chash, rfl⟩)))⟩
    · simp only [State.remember, h.inFlight, List.map_append, List.append_assoc, List.map_cons,
        List.map_nil, hrow]
    · rw [List.map_append, List.mem_append]
      rcases mem_pushSeen hk with hk | rfl
      · rcases h.seenHashes k hk with hk | hk
        · exact Or.inl hk
        · exact Or.inr (Or.inl hk)
      · exact Or.inr (Or.inr List.mem_cons_self)
    · refine List.rel_append hrows (.cons ?_ .nil)
      exact rowFrom_rowOf hgate hchash (hcaptured chash ▸ hnot) hurl
    · rw [List.map_append]
      exact List.mem_append_left _ hk

theorem Judges.loop {cfg : Config} {tk : Toolkit F} {env : Surroundings} {messages : List Message}
    {s t u : State F} {tally : Tally F} {rows : List (Row F)} {extraction : Tally F × Direct F}
    (h : Judges cfg tk env messages s tally rows t extraction u) :
    JudgeLoop cfg tk env u extraction.1.outcomes extraction.2 (tally, rows) t :=
  h.turns.invariant ⟨SameCorpus.refl u, ⟨rfl, rfl, rfl⟩, (List.append_nil _).symm,
    fun _ hk => Or.inl hk, ⟨[], List.nil_sublist _, .nil⟩, fun _ ho => Or.inl ho⟩
    fun _ _ _ _ _ _ _ hdone hturn => judgeLoop_turn hdone hturn

/-- What a raising judgement leaves: the fingerprints it remembered are in flight. -/
theorem JudgeBatchRaises.frame {cfg : Config} {tk : Toolkit F} {env : Surroundings}
    {messages : List Message} {s t u : State F} {extraction : Tally F × Direct F}
    {x : MsgId × Article F × Value F}
    (h : JudgeBatchRaises cfg tk env messages s t extraction u x) :
    SameCorpus u t ∧ SameDlq u t ∧
      ∃ hs, t.inFlight = u.inFlight ++ hs ∧ ∀ k ∈ t.seenHashes, k ∈ u.seenHashes ∨ k ∈ hs := by
  obtain ⟨done, rest, acc, v, -, hturns, hraises⟩ := h.turns
  have hloop : JudgeLoop cfg tk env u extraction.1.outcomes done acc v :=
    hturns.invariant ⟨SameCorpus.refl u, ⟨rfl, rfl, rfl⟩, (List.append_nil _).symm,
      fun _ hk => Or.inl hk, ⟨[], List.nil_sublist _, .nil⟩, fun _ ho => Or.inl ho⟩
      fun _ _ _ _ _ _ _ hdone hturn => judgeLoop_turn hdone hturn
  have hsame : SameCorpus u v ∧ SameDlq u v ∧ ∃ hs, v.inFlight = u.inFlight ++ hs ∧
      ∀ k ∈ v.seenHashes, k ∈ u.seenHashes ∨ k ∈ hs :=
    ⟨hloop.corpus, hloop.dlq, _, hloop.inFlight, hloop.seenHashes⟩
  cases hraises with
  | gate e hgate => exact hsame
  | source reason hgate hsource => exact hsame
  | lookup language score hgate hfail => exact hsame
  | url language score chash e hgate hchash hcaptured hseen hurl =>
    obtain ⟨hcorpus, hdlq, hs, hflight, hseen⟩ := hsame
    refine ⟨hcorpus.remember _ chash, hdlq.remember _ chash, hs ++ [chash], ?_, fun k hk => ?_⟩
    · simp only [State.remember, hflight, List.append_assoc]
    · rcases mem_pushSeen hk with hk | rfl
      · rcases hseen k hk with hk | hk
        · exact Or.inl hk
        · exact Or.inr (List.mem_append_left _ hk)
      · exact Or.inr (List.mem_append_right _ List.mem_cons_self)

/-! ## Where the rows come from -/

/-- The content of a message passes the quality and the language gate. -/
def Passes (cfg : Config) (tk : Toolkit F) (env : Surroundings) (m : Message)
    (article : Article F) (content : Value F) : Prop :=
  (∃ fetched, env.fetched = some fetched ∧ Obtained cfg env fetched m article content) ∧
    ∃ language score, gate cfg tk env m.id content = .ok (.passed language score)

def fingerprint (cfg : Config) (tk : Toolkit F) (content : Value F) : Nat :=
  simhash tk (contentText content) cfg.simhashBits

/-- A row of a batch that starts in `s` is made from a message that passes the
gates and is not captured by the index. -/
def RowOfMessage (cfg : Config) (tk : Toolkit F) (env : Surroundings) (messages : List Message)
    (s : State F) (row : Row F) : Prop :=
  ∃ m ∈ messages, ∃ article content url, Passes cfg tk env m article content ∧
    row.contentHash = fingerprint cfg tk content ∧
    captured cfg s (fingerprint cfg tk content) = false ∧
    encodeUrl (urlOf article) = .ok url ∧ row.urlHash = tk.sha256 url

omit [FloatText F] [DecidableEq F] in
theorem exists_of_forall₂ {α β : Type} {R : α → β → Prop} {as : List α} {bs : List β}
    (h : List.Forall₂ R as bs) : ∀ b ∈ bs, ∃ a ∈ as, R a b := by
  induction h with
  | nil => exact nofun
  | cons hab _ ih =>
    intro b hb
    rcases List.mem_cons.mp hb with rfl | hb
    · exact ⟨_, List.mem_cons_self, hab⟩
    · obtain ⟨a, ha, hR⟩ := ih b hb
      exact ⟨a, List.mem_cons_of_mem _ ha, hR⟩

theorem Judges.rowOfMessage {cfg : Config} {tk : Toolkit F} {env : Surroundings}
    {messages : List Message} {s t u : State F} {tally : Tally F} {rows : List (Row F)}
    {extraction : Tally F × Direct F}
    (h : Judges cfg tk env messages s tally rows t extraction u) :
    ∀ row ∈ rows, RowOfMessage cfg tk env messages s row := by
  intro row hrow
  obtain ⟨items, hsub, hrows⟩ := h.loop.rows
  obtain ⟨x, hx, hfrom⟩ := exists_of_forall₂ hrows row hrow
  obtain ⟨fetched, hfetched, hobtained, -⟩ := h.extracts.obtained
  obtain ⟨m, hm, hid, hcontent⟩ := hobtained x (hsub.subset hx)
  obtain ⟨url, hurl, -, hhash⟩ := hfrom.url
  have hchash : row.contentHash = fingerprint cfg tk x.2.2 := hfrom.contentHash
  refine ⟨m, hm, x.2.1, x.2.2, url, ⟨⟨fetched, hfetched, hcontent⟩, ?_⟩, hchash, ?_, hurl, hhash⟩
  · rw [hid]
    exact hfrom.passed
  · rw [← hchash, ← captured_congr cfg h.extracts.corpus.buckets]
    exact hfrom.notCaptured

end WebSpider.Processor
