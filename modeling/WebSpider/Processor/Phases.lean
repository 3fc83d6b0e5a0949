import WebSpider.Processor.Batch

/-!
# What each phase of a batch does

One lemma for each function of `process_batch` says how its run ends: what it
returns, how it changes the state, and for an exception what caused it. The
properties of whole batches are derived from these lemmas alone.
-/

namespace WebSpider.Processor

open Text Json Bits Effects

variable {F : Type} [FloatText F]

/-! ## Parsing -/

/-- The decoded payload of a message that is not skipped. -/
def payload (cfg : Config) (m : Message) : Option (Value F) :=
  match m.article with
  | none => none
  | some [] => none
  | some raw => (loads cfg.nesting raw).toOption

/-- The payload cannot make the parser raise. -/
def Parses (F : Type) [FloatText F] (cfg : Config) (m : Message) : Prop :=
  ∀ raw e, m.article = some raw → raw ≠ [] → loads (F := F) cfg.nesting raw = .error e → e = .decode

/-- When the parser returns no payload could have made it raise. -/
theorem parses_of_parse {cfg : Config} {messages : List Message} {parsed : List (MsgId × Value F)}
    (h : parse cfg messages = .ok parsed) : ∀ m ∈ messages, Parses F cfg m := by
  induction messages generalizing parsed with
  | nil => exact nofun
  | cons m messages ih =>
    have hcons (hm : Parses F cfg m) {rest : List (MsgId × Value F)}
        (hrest : parse cfg messages = .ok rest) : ∀ m' ∈ m :: messages, Parses F cfg m' := by
      intro m' hm'
      rcases List.mem_cons.mp hm' with rfl | hm'
      · exact hm
      · exact ih hrest m' hm'
    have hloaded (raw : Str) (r : Except LoadsError (Value F)) (harticle : m.article = some raw)
        (hr : loads cfg.nesting raw = r) (hok : ∀ e, r = .error e → e = .decode) :
        Parses F cfg m := by
      intro raw' e harticle' _ he
      obtain rfl : raw' = raw := Option.some.inj (harticle'.symm.trans harticle)
      exact hok e (hr.symm.trans he)
    unfold parse at h
    split at h
    · rename_i harticle
      refine hcons (fun raw e hraw _ _ => ?_) h
      rw [harticle] at hraw
      cases hraw
    · rename_i harticle
      refine hcons (fun raw e hraw hne _ => ?_) h
      rw [harticle] at hraw
      exact (hne (Option.some.inj hraw).symm).elim
    · rename_i raw _ harticle
      split at h
      · rename_i hloads
        exact hcons (hloaded raw _ harticle hloads fun e he => (Except.error.inj he).symm) h
      · cases h
      · cases h
      · cases h
      · rename_i hloads
        cases hrest : parse (F := F) cfg messages with
        | error e => simp [hrest, bind, Except.bind] at h
        | ok rest => exact hcons (hloaded raw _ harticle hloads nofun) hrest

theorem parse_ok {cfg : Config} {messages : List Message} {parsed : List (MsgId × Value F)}
    (h : parse cfg messages = .ok parsed) :
    parsed = messages.filterMap fun m => (payload cfg m).map fun v => (m.id, v) := by
  induction messages generalizing parsed with
  | nil =>
    cases h
    rfl
  | cons m messages ih =>
    have hskip (hp : payload (F := F) cfg m = none) (hrest : parse cfg messages = .ok parsed) :
        parsed = (m :: messages).filterMap fun m => (payload cfg m).map fun v => (m.id, v) := by
      rw [List.filterMap_cons, hp, ih hrest]
      rfl
    unfold parse at h
    split at h
    · rename_i harticle
      exact hskip (by simp only [payload, harticle]) h
    · rename_i harticle
      exact hskip (by simp only [payload, harticle]) h
    · rename_i raw hraw harticle
      have hpayload : payload (F := F) cfg m = (loads cfg.nesting raw).toOption := by
        unfold payload
        rw [harticle]
        cases raw with
        | nil => exact (hraw rfl).elim
        | cons c raw => rfl
      split at h
      · rename_i hloads
        exact hskip (by rw [hpayload, hloads]; rfl) h
      · cases h
      · cases h
      · cases h
      · rename_i article hloads
        cases hrest : parse (F := F) cfg messages with
        | error e => simp [hrest, bind, Except.bind] at h
        | ok rest =>
          simp only [hrest, bind, Except.bind] at h
          cases h
          rw [List.filterMap_cons, hpayload, hloads, ih hrest]
          rfl

omit [FloatText F] in
/-- The parsed messages keep the order of the batch. -/
theorem filterMap_ids_sublist (f : Message → Option (Value F)) (messages : List Message) :
    ((messages.filterMap fun m => (f m).map fun v => (m.id, v)).map Prod.fst).Sublist
      (messages.map Message.id) := by
  induction messages with
  | nil => exact List.Sublist.refl _
  | cons m messages ih =>
    rw [List.filterMap_cons, List.map_cons]
    cases f m with
    | none => exact ih.cons _
    | some v => exact ih.cons_cons _

theorem parse_total {cfg : Config} {messages : List Message}
    (h : ∀ m ∈ messages, Parses F cfg m) : ∃ parsed, parse (F := F) cfg messages = .ok parsed := by
  induction messages with
  | nil => exact ⟨[], rfl⟩
  | cons m messages ih =>
    obtain ⟨rest, hrest⟩ := ih fun m' hm' => h m' (List.mem_cons_of_mem _ hm')
    have hm := h m List.mem_cons_self
    unfold parse
    split
    · exact ⟨rest, hrest⟩
    · exact ⟨rest, hrest⟩
    · rename_i raw hraw harticle
      have hne : raw ≠ [] := fun hnil => hraw hnil
      split
      · exact ⟨rest, hrest⟩
      · rename_i hloads
        cases hm raw _ harticle hne hloads
      · rename_i hloads
        cases hm raw _ harticle hne hloads
      · rename_i hloads
        cases hm raw _ harticle hne hloads
      · rw [hrest]
        exact ⟨_, rfl⟩

/-- The inline content of an article. -/
def contentMd (article : Article F) : Value F := getField article (lit "content_md") .null

theorem splitDirect_ok {parsed : List (MsgId × Value F)} {direct : Direct F}
    {toFetch : List (MsgId × Article F)} (h : splitDirect parsed = .ok (direct, toFetch)) :
    (∀ x ∈ direct, (x.1, .obj x.2.1) ∈ parsed ∧ x.2.2 = contentMd x.2.1 ∧
      truthy (contentMd x.2.1) = true) ∧
    (∀ x ∈ toFetch, (x.1, .obj x.2) ∈ parsed ∧ truthy (contentMd x.2) = false) ∧
    (direct.map Prod.fst ++ toFetch.map Prod.fst).Perm (parsed.map Prod.fst) ∧
    ∀ x ∈ parsed, ∃ article, x.2 = .obj article ∧
      (truthy (contentMd article) = true → (x.1, article, contentMd article) ∈ direct) ∧
      (truthy (contentMd article) = false → (x.1, article) ∈ toFetch) := by
  induction parsed generalizing direct toFetch with
  | nil =>
    cases h
    exact ⟨nofun, nofun, List.Perm.refl _, nofun⟩
  | cons p parsed ih =>
    obtain ⟨i, v⟩ := p
    cases v with
    | obj article =>
      rw [splitDirect] at h
      cases hrest : splitDirect parsed with
      | error e => simp [hrest, bind, Except.bind] at h
      | ok q =>
        obtain ⟨direct', toFetch'⟩ := q
        obtain ⟨hdirect, hfetch, hperm, hall⟩ := ih hrest
        simp only [hrest, bind, Except.bind] at h
        split at h
        · rename_i hmd
          cases h
          refine ⟨?_, fun x hx => ⟨List.mem_cons_of_mem _ (hfetch x hx).1, (hfetch x hx).2⟩, ?_, ?_⟩
          · intro x hx
            rcases List.mem_cons.mp hx with rfl | hx
            · exact ⟨List.mem_cons_self, rfl, hmd⟩
            · exact ⟨List.mem_cons_of_mem _ (hdirect x hx).1, (hdirect x hx).2⟩
          · exact hperm.cons i
          · intro x hx
            rcases List.mem_cons.mp hx with rfl | hx
            · refine ⟨article, rfl, fun _ => List.mem_cons_self, fun hfalse => ?_⟩
              rw [contentMd, hmd] at hfalse
              cases hfalse
            · obtain ⟨a, ha, hin, hout⟩ := hall x hx
              exact ⟨a, ha, fun ht => List.mem_cons_of_mem _ (hin ht), hout⟩
        · rename_i hmd
          cases h
          refine ⟨fun x hx => ⟨List.mem_cons_of_mem _ (hdirect x hx).1, (hdirect x hx).2⟩, ?_, ?_,
            ?_⟩
          · intro x hx
            rcases List.mem_cons.mp hx with rfl | hx
            · exact ⟨List.mem_cons_self, Bool.eq_false_iff.mpr hmd⟩
            · exact ⟨List.mem_cons_of_mem _ (hfetch x hx).1, (hfetch x hx).2⟩
          · exact List.perm_middle.trans (hperm.cons i)
          · intro x hx
            rcases List.mem_cons.mp hx with rfl | hx
            · exact ⟨article, rfl, fun htrue => (hmd htrue).elim, fun _ => List.mem_cons_self⟩
            · obtain ⟨a, ha, hin, hout⟩ := hall x hx
              exact ⟨a, ha, hin, fun hf => List.mem_cons_of_mem _ (hout hf)⟩
    | _ => cases h

theorem splitDirect_total {parsed : List (MsgId × Value F)}
    (h : ∀ x ∈ parsed, ∃ article, x.2 = .obj article) :
    ∃ split, splitDirect parsed = .ok split := by
  induction parsed with
  | nil => exact ⟨_, rfl⟩
  | cons p parsed ih =>
    obtain ⟨split, hsplit⟩ := ih fun x hx => h x (List.mem_cons_of_mem _ hx)
    obtain ⟨article, hp⟩ := h p List.mem_cons_self
    obtain ⟨i, v⟩ := p
    obtain rfl : v = .obj article := hp
    rw [splitDirect, hsplit]
    simp only [bind, Except.bind]
    split <;> exact ⟨_, rfl⟩

/-! ## Frames -/

/-- What judging a batch leaves alone: everything but the counters, the
dead-letter stream and the fingerprints of the process. -/
structure SameCorpus (s t : State F) : Prop where
  nextId : t.nextId = s.nextId
  queue : t.queue = s.queue
  pending : t.pending = s.pending
  buckets : t.buckets = s.buckets
  articles : t.articles = s.articles
  acked : t.acked = s.acked
  volatile : t.volatile = s.volatile
  warmed : t.warmed = s.warmed

omit [FloatText F] in
theorem SameCorpus.refl (s : State F) : SameCorpus s s := ⟨rfl, rfl, rfl, rfl, rfl, rfl, rfl, rfl⟩

omit [FloatText F] in
theorem SameCorpus.trans {s t u : State F} (h : SameCorpus s t) (h' : SameCorpus t u) :
    SameCorpus s u :=
  ⟨h'.1.trans h.1, h'.2.trans h.2, h'.3.trans h.3, h'.4.trans h.4, h'.5.trans h.5, h'.6.trans h.6,
    h'.7.trans h.7, h'.8.trans h.8⟩

omit [FloatText F] in
theorem SameCorpus.remember {s t : State F} (h : SameCorpus s t) (maxlen chash : Nat) :
    SameCorpus s (t.remember maxlen chash) :=
  ⟨h.nextId, h.queue, h.pending, h.buckets, h.articles, h.acked, h.volatile, h.warmed⟩

/-- The fingerprints of the process are untouched. -/
structure SameSeen (s t : State F) : Prop where
  seenHashes : t.seenHashes = s.seenHashes
  inFlight : t.inFlight = s.inFlight

/-- The dead-letter stream and its guard are untouched. -/
structure SameDlq (s t : State F) : Prop where
  dlqSeen : t.dlqSeen = s.dlqSeen
  dlq : t.dlq = s.dlq
  parked : t.parked = s.parked

omit [FloatText F] in
theorem SameDlq.remember {s t : State F} (h : SameDlq s t) (maxlen chash : Nat) :
    SameDlq s (t.remember maxlen chash) :=
  ⟨h.dlqSeen, h.dlq, h.parked⟩

/-! ## Dead-letter parking -/

/-- What `push_dlq` may do to the state, depending on how its script call ends. -/
structure Parks (env : Surroundings) (i : MsgId) (s t : State F) : Prop where
  corpus : SameCorpus s t
  seen : SameSeen s t
  atomic : (t.dlqSeen = s.dlqSeen ∧ t.parked = s.parked) ∨
    (i ∉ s.dlqSeen ∧ t.dlqSeen = s.dlqSeen ++ [i] ∧ t.parked = s.parked ++ [i])
  executed : (env.plan (.dlqPush i)).executed = true → i ∈ t.dlqSeen

omit [FloatText F] in
theorem dlqPushScript_parks (cfg : Config) (trimmed : Nat) (i : MsgId) (entry : Nat → DlqEntry F)
    (s : State F) :
    let t := (dlqPushScript cfg trimmed i entry s).2
    SameCorpus s t ∧ SameSeen s t ∧ i ∈ t.dlqSeen ∧
      ((t.dlqSeen = s.dlqSeen ∧ t.parked = s.parked) ∨
        (i ∉ s.dlqSeen ∧ t.dlqSeen = s.dlqSeen ++ [i] ∧ t.parked = s.parked ++ [i])) := by
  unfold dlqPushScript
  by_cases hseen : i ∈ s.dlqSeen
  · rw [if_pos hseen]
    exact ⟨SameCorpus.refl s, ⟨rfl, rfl⟩, hseen, Or.inl ⟨rfl, rfl⟩⟩
  · rw [if_neg hseen]
    exact ⟨⟨rfl, rfl, rfl, rfl, rfl, rfl, rfl, rfl⟩, ⟨rfl, rfl⟩, by simp, Or.inr ⟨hseen, rfl, rfl⟩⟩

variable [DecidableEq F]

omit [FloatText F] in
theorem Parks.incrby {env : Surroundings} {i : MsgId} {s t : State F} (h : Parks env i s t)
    (c : Counter F) (n : Nat) : Parks env i s (t.incrby c n) :=
  ⟨⟨h.1.1, h.1.2, h.1.3, h.1.4, h.1.5, h.1.6, h.1.7, h.1.8⟩, ⟨h.2.1, h.2.2⟩, h.3, h.4⟩

theorem pushDlq_ends (cfg : Config) (tk : Toolkit F) (env : Surroundings) (i : MsgId)
    (article : Article F) (reason : Str) (detail : Value F) (s : State F) :
    Ends (pushDlq cfg tk env i article reason detail) s (fun _ t => Parks env i s t)
      (fun _ _ => False) := by
  obtain ⟨hcorpus, hseen, hmem, hatomic⟩ := dlqPushScript_parks cfg env.trimmed i
    (fun entryId => dlqEntry tk entryId i article reason detail) s
  refine ends_attempt (ends_bind (ends_call ?_ ?_ ?_))
  · intro _
    have hparks : Parks env i s (dlqPushScript cfg env.trimmed i
        (fun entryId => dlqEntry tk entryId i article reason detail) s).2 :=
      ⟨hcorpus, hseen, hatomic, fun _ => hmem⟩
    split
    · refine ends_call (fun _ => ?_) (fun _ _ _ => ends_pure ?_) fun _ _ _ => ends_pure hparks
      · exact hparks.incrby .dlq 1
      · exact hparks.incrby .dlq 1
    · exact ends_pure hparks
  · exact fun _ _ _ => ends_pure ⟨hcorpus, hseen, hatomic, fun _ => hmem⟩
  · intro done hraise hdone
    refine ends_pure ⟨SameCorpus.refl s, ⟨rfl, rfl⟩, Or.inl ⟨rfl, rfl⟩, fun hexec => ?_⟩
    rw [hraise, Outcome.executed, hdone] at hexec
    cases hexec

/-! ## Extraction -/

/-- One turn of the loop over `to_fetch`, from `s` with the accumulator `acc`. -/
inductive Extracts (env : Surroundings) (fetched : Fetched) (s : State F)
    (acc : Tally F × Direct F) (x : MsgId × Article F) : Tally F × Direct F → State F → Prop
  | gone (tally : Tally F) (hcontent : fetchContent env fetched (urlOf x.2) = .ok .gone)
      (htally : acc.1.reject (lit "not_found") (sourceOf x.2) x.1 .notFound = .ok tally) :
      Extracts env fetched s acc x (tally, acc.2) s
  | missing (tally : Tally F) (t : State F)
      (hcontent : fetchContent env fetched (urlOf x.2) = .ok .missing)
      (htally : acc.1.reject (lit "extract_fail") (sourceOf x.2) x.1 .extractFail = .ok tally)
      (hparks : Parks env x.1 s t) : Extracts env fetched s acc x (tally, acc.2) t
  | text (text : Str) (hcontent : fetchContent env fetched (urlOf x.2) = .ok (.text text)) :
      Extracts env fetched s acc x (acc.1, acc.2 ++ [(x.1, x.2, .str text)]) s

/-- Why a turn of that loop raises. -/
def ExtractRaises (env : Surroundings) (fetched : Fetched) (x : MsgId × Article F) : Prop :=
  (∃ e, fetchContent env fetched (urlOf x.2) = .error e) ∨
    (∀ text, fetchContent env fetched (urlOf x.2) ≠ .ok (.text text)) ∧
      hashable (sourceOf x.2) = false

omit [FloatText F] in
theorem reject_error {t : Tally F} {reason : Str} {source : Value F} {i : MsgId} {v : Verdict}
    {e : PyExn} (h : t.reject reason source i v = .error e) : hashable source = false := by
  unfold Tally.reject at h
  split at h
  · cases h
  · rename_i hsource
    exact Bool.eq_false_iff.mpr hsource

omit [FloatText F] in
theorem reject_ok {t t' : Tally F} {reason : Str} {source : Value F} {i : MsgId} {v : Verdict}
    (h : t.reject reason source i v = .ok t') :
    hashable source = true ∧ t'.outcomes = t.outcomes ++ [(i, v)] := by
  unfold Tally.reject at h
  split at h
  · rename_i hsource
    cases h
    exact ⟨hsource, rfl⟩
  · cases h

theorem extractStep_ends (cfg : Config) (tk : Toolkit F) (env : Surroundings) (fetched : Fetched)
    (acc : Tally F × Direct F) (x : MsgId × Article F) (s : State F) :
    Ends (extractStep cfg tk env fetched acc x) s (fun acc' t => Extracts env fetched s acc x acc' t)
      (fun _ t => t = s ∧ ExtractRaises env fetched x) := by
  obtain ⟨i, article⟩ := x
  refine ends_bind (ends_lift (fun content hcontent => ?_) fun e he => ⟨rfl, Or.inl ⟨e, he⟩⟩)
  cases content with
  | gone =>
    refine ends_bind (ends_lift (fun tally htally => ?_) fun e he => ⟨rfl, Or.inr ⟨?_, ?_⟩⟩)
    · exact ends_pure (.gone tally hcontent htally)
    · exact fun text htext => by rw [hcontent] at htext; cases htext
    · exact reject_error he
  | missing =>
    refine ends_bind (ends_lift (fun tally htally => ?_) fun e he => ⟨rfl, Or.inr ⟨?_, ?_⟩⟩)
    · refine ends_bind (ends_mono (pushDlq_ends cfg tk env i article _ _ s) ?_
        fun _ _ he => he.elim)
      exact fun _ t hparks => ends_pure (.missing tally t hcontent htally hparks)
    · exact fun text htext => by rw [hcontent] at htext; cases htext
    · exact reject_error he
  | text text => exact ends_pure (.text text hcontent)

/-! ## Judging -/

/-- One turn of the loop of phase 3, from `s` with the accumulator `acc`. -/
inductive Judged (cfg : Config) (tk : Toolkit F) (env : Surroundings) (s : State F)
    (acc : Tally F × List (Row F)) (x : MsgId × Article F × Value F) :
    Tally F × List (Row F) → State F → Prop
  | rejected (reason : Str) (tally : Tally F)
      (hgate : gate cfg tk env x.1 x.2.2 = .ok (.rejected reason))
      (htally : acc.1.reject reason (sourceOf x.2.1) x.1 (.rejected reason) = .ok tally) :
      Judged cfg tk env s acc x (tally, acc.2) s
  | lang (hgate : gate cfg tk env x.1 x.2.2 = .ok .lang) :
      Judged cfg tk env s acc x (acc.1.count (lit "lang") x.1 .lang, acc.2) s
  | dup (language : Str) (score : F) (chash : Nat)
      (hgate : gate cfg tk env x.1 x.2.2 = .ok (.passed language score))
      (hbands : BandsDivide cfg)
      (hchash : chash = simhash tk (contentText x.2.2) cfg.simhashBits)
      (hdup : captured cfg s chash = true ∨ chash ∈ s.seenHashes) :
      Judged cfg tk env s acc x (acc.1.count (lit "dup") x.1 (.dup chash), acc.2) s
  | kept (language : Str) (score : F) (chash : Nat) (url : Str)
      (hgate : gate cfg tk env x.1 x.2.2 = .ok (.passed language score))
      (hbands : BandsDivide cfg)
      (hchash : chash = simhash tk (contentText x.2.2) cfg.simhashBits)
      (hcaptured : captured cfg s chash = false) (hseen : chash ∉ s.seenHashes)
      (hurl : encodeUrl (urlOf x.2.1) = .ok url) :
      Judged cfg tk env s acc x (acc.1.keep x.1 (.kept chash),
        acc.2 ++ [rowOf tk x.2.1 url (contentText x.2.2) language chash score]) (s.remember cfg.seenMaxlen chash)

/-- How a turn of that loop raises, and the state it leaves. -/
inductive JudgeRaises (cfg : Config) (tk : Toolkit F) (env : Surroundings) (s : State F)
    (x : MsgId × Article F × Value F) : State F → Prop
  | gate (e : PyExn) (hgate : gate cfg tk env x.1 x.2.2 = .error e) : JudgeRaises cfg tk env s x s
  | source (reason : Str) (hgate : gate cfg tk env x.1 x.2.2 = .ok (.rejected reason))
      (hsource : hashable (sourceOf x.2.1) = false) : JudgeRaises cfg tk env s x s
  | lookup (language : Str) (score : F)
      (hgate : gate cfg tk env x.1 x.2.2 = .ok (.passed language score))
      (hfail : ¬ BandsDivide cfg ∨ ∃ band, env.plan (.smembers x.1 band) ≠ .returns) :
      JudgeRaises cfg tk env s x s
  | url (language : Str) (score : F) (chash : Nat) (e : PyExn)
      (hgate : gate cfg tk env x.1 x.2.2 = .ok (.passed language score))
      (hchash : chash = simhash tk (contentText x.2.2) cfg.simhashBits)
      (hcaptured : captured cfg s chash = false) (hseen : chash ∉ s.seenHashes)
      (hurl : encodeUrl (urlOf x.2.1) = .error e) :
      JudgeRaises cfg tk env s x (s.remember cfg.seenMaxlen chash)

omit [FloatText F] in
theorem judgeStep_ends (cfg : Config) (tk : Toolkit F) (env : Surroundings)
    (acc : Tally F × List (Row F)) (x : MsgId × Article F × Value F) (s : State F) :
    Ends (judgeStep cfg tk env acc x) s (fun acc' t => Judged cfg tk env s acc x acc' t)
      (fun _ t => JudgeRaises cfg tk env s x t) := by
  obtain ⟨i, article, content⟩ := x
  refine ends_bind (ends_lift (fun decision hgate => ?_) fun e he => .gate e he)
  cases decision with
  | rejected reason =>
    refine ends_bind (ends_lift (fun tally htally => ?_) fun e he => ?_)
    · exact ends_pure (.rejected reason tally hgate htally)
    · exact .source reason hgate (reject_error he)
  | lang => exact ends_pure (.lang hgate)
  | passed language score =>
    refine ends_bind (ends_mono (isDuplicate_ends cfg tk env i _ s) ?_ ?_)
    · rintro ⟨dup, chash⟩ t ⟨rfl, hbands, hr⟩
      obtain ⟨rfl, hchash⟩ := Prod.mk.inj hr
      by_cases hcaptured : captured cfg t (simhash tk (contentText content) cfg.simhashBits) = true
      · simp only [hcaptured, if_true]
        exact ends_pure (.dup language score chash hgate hbands hchash (Or.inl (hchash ▸ hcaptured)))
      · have hfalse := Bool.eq_false_iff.mpr hcaptured
        simp only [hfalse, if_false, Bool.false_eq_true]
        refine ends_bind (ends_read ?_)
        split
        · rename_i hseen
          exact ends_pure (.dup language score chash hgate hbands hchash (Or.inr hseen))
        · rename_i hseen
          refine ends_bind (ends_update (ends_bind (ends_lift (fun url hurl => ?_) fun e he => ?_)))
          · exact ends_pure (.kept language score chash url hgate hbands hchash (hchash ▸ hfalse)
              hseen hurl)
          · exact .url language score chash e hgate hchash (hchash ▸ hfalse) hseen he
    · rintro _ t ⟨rfl, hfail⟩
      exact .lookup language score hgate hfail

/-! ## Storing -/

omit [FloatText F] [DecidableEq F] in
theorem insertPages_articles (table rows : List (Row F)) :
    (insertPages table rows).2 = rows.foldl insertRow table := by
  suffices haux : ∀ (pages : List (List (Row F))) (n : Nat) (table : List (Row F)),
      (pages.foldl (fun acc page => ((page.foldl insertRow acc.2).length - acc.2.length,
        page.foldl insertRow acc.2)) (n, table)).2 =
      pages.foldl (fun acc page => page.foldl insertRow acc) table by
    rw [insertPages, haux, Lists.foldl_pages (by omega)]
  intro pages
  induction pages with
  | nil => exact fun _ _ => rfl
  | cons page pages ih => exact fun n table => ih _ _

/-- A property that counting keeps. -/
def KeptByCounters (I : State F → Prop) : Prop := ∀ c n s, I s → I (s.incrby c n)

omit [FloatText F] in
theorem countSources_ok {rows : List (Row F)} :
    (∃ d, countSources rows = .ok d) ↔ ∀ row ∈ rows, hashable row.sourceType = true := by
  unfold countSources
  suffices haux : ∀ d : List (Value F × Nat), (∃ d', rows.foldlM (fun d row =>
      if hashable row.sourceType then .ok (bump d row.sourceType)
      else (.error .typeError : Except PyExn (List (Value F × Nat)))) d = .ok d') ↔
      ∀ row ∈ rows, hashable row.sourceType = true from haux []
  induction rows with
  | nil => exact fun d => ⟨fun _ => nofun, fun _ => ⟨d, rfl⟩⟩
  | cons row rows ih =>
    intro d
    rw [List.foldlM_cons]
    by_cases hrow : hashable row.sourceType = true
    · rw [if_pos hrow]
      apply (ih (bump d row.sourceType)).trans
      simp [hrow]
    · rw [if_neg hrow]
      refine ⟨fun ⟨d', hd'⟩ => ?_, fun hall => (hrow (hall row List.mem_cons_self)).elim⟩
      cases hd'

omit [FloatText F] [DecidableEq F] in
@[simp] theorem State.commit_nil (s : State F) : s.commit [] = s := by
  simp [State.commit, insertPages_articles]

/-- Why counting and indexing stored rows raises. -/
def CountRaises (cfg : Config) (env : Surroundings) (rows : List (Row F)) : Prop :=
  env.plan .incrStored ≠ .returns ∨ (∃ row ∈ rows, hashable row.sourceType = false) ∨
    env.plan .storedBySource ≠ .returns ∨ ¬ BandsDivide cfg ∨
    ∃ k, env.plan (.index k) ≠ .returns

omit [FloatText F] in
theorem countStored_ends (cfg : Config) {env : Surroundings} {rows : List (Row F)} {stored : Nat}
    {I : State F → Prop} {s : State F} (hs : I s) (hcount : KeptByCounters I) :
    Ends (countStored env rows stored) s (fun _ t => I t)
      (fun _ t => I t ∧ CountRaises cfg env rows) := by
  unfold countStored
  split
  · exact ends_pure hs
  · have hincr := hcount .stored stored s hs
    have hfail : env.plan .incrStored ≠ .returns → CountRaises cfg env rows := Or.inl
    refine ends_bind (ends_call (fun _ => ?_) ?_ ?_)
    · refine ends_bind (ends_lift (fun bySource _ => ?_) fun e he => ⟨hincr, Or.inr (Or.inl ?_)⟩)
      · refine ends_pipeline (I := I) ?_ hincr (fun _ ht => ht)
          fun t hfail ht => ⟨ht, Or.inr (Or.inr (Or.inl hfail))⟩
        intro c hc t ht
        obtain ⟨x, -, rfl⟩ := List.mem_map.mp hc
        exact hcount _ _ t ht
      · by_contra hnone
        have hall : ∀ row ∈ rows, hashable row.sourceType = true := fun row hrow => by
          by_contra hsource
          exact hnone ⟨row, hrow, Bool.eq_false_iff.mpr hsource⟩
        obtain ⟨d, hd⟩ := countSources_ok.mpr hall
        rw [hd] at he
        cases he
    · exact fun done hraise _ => ⟨hincr, hfail (by rw [hraise]; exact Outcome.noConfusion)⟩
    · exact fun done hraise _ => ⟨hs, hfail (by rw [hraise]; exact Outcome.noConfusion)⟩

omit [FloatText F] in
/-- Either the transaction was not committed and nothing else was done, or what
the commit, the counters and the registrations keep holds. -/
theorem storeRows_ends {cfg : Config} {env : Surroundings} {rows : List (Row F)}
    {I : State F → Prop} {s : State F} (hempty : rows = [] → I s) (hcommit : I (s.commit rows))
    (hcount : KeptByCounters I) (hindex : ∀ row ∈ rows, KeptByIndex cfg row.contentHash I) :
    Ends (storeRows cfg env rows) s
      (fun _ t => I t ∧ ∀ row ∈ rows, ∀ key ∈ keysOf cfg row.contentHash,
        decimal row.contentHash ∈ t.buckets key)
      (fun _ t => (t = s ∧ (env.plan .insert).executed = false) ∨
        (I t ∧ rows ≠ [] ∧ (env.plan .insert ≠ .returns ∨ CountRaises cfg env rows))) := by
  have hloop (hne : rows ≠ []) (t : State F) (ht : I t) :
      Ends (rows.zipIdx.foldlM (fun _ x => index cfg env x.2 x.1.contentHash) ()) t
        (fun _ t => I t ∧ ∀ row ∈ rows, ∀ key ∈ keysOf cfg row.contentHash,
          decimal row.contentHash ∈ t.buckets key)
        (fun _ t => (t = s ∧ (env.plan .insert).executed = false) ∨
          (I t ∧ rows ≠ [] ∧ (env.plan .insert ≠ .returns ∨ CountRaises cfg env rows))) := by
    refine ends_mono (ends_foldlM (fun done _ t => I t ∧ ∀ row ∈ done.map Prod.fst,
      ∀ key ∈ keysOf cfg row.contentHash, decimal row.contentHash ∈ t.buckets key)
      ⟨ht, nofun⟩ ?_) ?_ fun _ _ he => he
    · rintro done ⟨row, k⟩ rest _ u hsplit ⟨hu, hdone⟩
      have hmem : row ∈ rows := by
        have hx : (row, k) ∈ rows.zipIdx := by
          rw [hsplit]
          exact List.mem_append_right _ List.mem_cons_self
        exact List.fst_mem_of_mem_zipIdx hx
      have hkept : KeptByIndex cfg row.contentHash fun u : State F => I u ∧
          ∀ row ∈ done.map Prod.fst, ∀ key ∈ keysOf cfg row.contentHash,
            decimal row.contentHash ∈ u.buckets key :=
        ⟨fun key hkey v hv => ⟨(hindex row hmem).1 key hkey v hv.1,
            fun row' hrow' k' hk' => mem_buckets_sadd.mpr (Or.inl (hv.2 row' hrow' k' hk'))⟩,
          fun httl key v hv => ⟨(hindex row hmem).2 httl key v hv.1, hv.2⟩⟩
      refine ends_mono (index_ends hkept ⟨hu, hdone⟩) ?_ ?_
      · rintro _ v ⟨⟨hv, hold⟩, hnew⟩
        refine ⟨hv, fun row' hrow' => ?_⟩
        rw [List.map_append, List.mem_append] at hrow'
        rcases hrow' with hrow' | hrow'
        · exact hold row' hrow'
        · obtain rfl : row' = row := by simpa using hrow'
          exact hnew
      · rintro _ v ⟨⟨hv, -⟩, hfail⟩
        refine Or.inr ⟨hv, hne, Or.inr (Or.inr (Or.inr (Or.inr ?_)))⟩
        rcases hfail with hbad | hfail
        · exact Or.inl hbad
        · exact Or.inr ⟨k, hfail⟩
    · rintro _ u ⟨hu, hall⟩
      refine ⟨hu, fun row hrow => hall row ?_⟩
      rwa [List.zipIdx_map_fst]
  unfold storeRows
  split
  · rename_i hnil
    subst hnil
    exact ends_pure ⟨hempty rfl, nofun⟩
  · rename_i hne
    refine ends_bind (ends_call (fun _ => ?_) ?_ ?_)
    · refine ends_bind (ends_mono (countStored_ends cfg hcommit hcount)
        (fun _ t ht => hloop hne t ht) ?_)
      exact fun _ t ht => Or.inr ⟨ht.1, hne, Or.inr ht.2⟩
    · intro done hraise _
      refine Or.inr ⟨hcommit, hne, Or.inl ?_⟩
      rw [hraise]
      exact Outcome.noConfusion
    · intro done hraise hdone
      refine Or.inl ⟨rfl, ?_⟩
      rw [hraise, Outcome.executed, hdone]

omit [FloatText F] in
theorem writeRejections_ends {env : Surroundings} {tally : Tally F} {I : State F → Prop}
    {s : State F} (hs : I s) (hcount : KeptByCounters I) :
    Ends (writeRejections env tally) s (fun _ t => I t)
      (fun _ t => I t ∧ env.plan .rejections ≠ .returns) := by
  unfold writeRejections
  split
  · exact ends_pure hs
  · refine ends_pipeline (I := I) ?_ hs (fun _ ht => ht) fun t hfail ht => ⟨ht, hfail⟩
    intro c hc t ht
    rw [List.cons_append, List.mem_cons, List.mem_append, List.mem_map, List.mem_map] at hc
    rcases hc with rfl | ⟨x, -, rfl⟩ | ⟨x, -, rfl⟩ <;> exact hcount _ _ t ht

end WebSpider.Processor
