import WebSpider.Processor.Replay

/-!
# The replay loop

`main --loop` of `dlq_replay.py`. Each round reads the oldest entries again, so an
entry that is kept is replayed in every round, and entries without an article that
fill a round hide what is behind them. An invocation replays each entry with an
article once, and stops with none left, exactly when the entries are deleted or there
are none, all can be read, and none has a whole round of entries without an article
before it (`replaysOnce_iff`).
-/

namespace WebSpider.Processor

open Text Json Effects

variable {F : Type} [FloatText F]

/-! ## The loop -/

/-- The calls of the loop; rounds are counted from the last one allowed. -/
inductive LoopSite where
  | round (left : Nat) (site : ReplaySite)
  | xlen (left : Nat)

/-- Why the loop stops. -/
inductive LoopEnd where
  | noneReplayed
  | dryRun
  | empty
  | capped
  deriving DecidableEq

/-- The rounds of `main --loop`. -/
def replayLoop (cfg : Config) (plan : LoopSite → Outcome) (batch : Nat) (delete dryRun : Bool) :
    Nat → Prog (State F) PyExn LoopEnd
  | 0 => pure .capped
  | left + 1 => do
    let counts ← replayRound cfg (fun site => plan (.round left site)) batch delete dryRun
    let remaining ← query .redisError (plan (.xlen left)) fun s => s.dlq.length
    if counts.1 = 0 then pure .noneReplayed
    else if dryRun then pure .dryRun
    else if remaining = 0 then pure .empty
    else replayLoop cfg plan batch delete dryRun left

/-- An invocation whose calls all return. -/
def invocation (cfg : Config) (batch : Nat) (delete : Bool) (maxRounds : Nat) :
    Prog (State F) PyExn LoopEnd :=
  replayLoop cfg (fun _ => .returns) batch delete false maxRounds

/-! ## The property and the condition -/

/-- An entry with an article. -/
def hasArticle (e : DlqEntry F) : Bool := decide (e.article ≠ [])

/-- The entries with an article. -/
def articlesOf (entries : List (DlqEntry F)) : List (DlqEntry F) := entries.filter hasArticle

/-- The entries without one. -/
def skipsOf (entries : List (DlqEntry F)) : List (DlqEntry F) := entries.filter fun e => !hasArticle e

/-- Each entry with an article is added to the main stream once, and when the loop
stops because nothing was replayed or nothing remains, none was left out. -/
structure ReplaysOnce (cfg : Config) (batch : Nat) (delete : Bool) (maxRounds : Nat)
    (s : State F) : Prop where
  once : ∃ messages, (after (invocation cfg batch delete maxRounds) s).queue = s.queue ++ messages ∧
    (messages.map Message.article).Perm ((articlesOf s.dlq).map fun e => some e.article)
  noneLeft : ∀ stop t, Returns (invocation cfg batch delete maxRounds) s stop t →
    stop = .noneReplayed ∨ stop = .empty →
      ∀ e ∈ articlesOf s.dlq, some e.article ∈ (t.queue.drop s.queue.length).map Message.article

/-- What a turn reads of an entry with an article raises nothing. -/
def Readable (cfg : Config) (e : DlqEntry F) : Prop :=
  ∃ info url, entryInfo cfg e = .ok info ∧ entryUrl e info = .ok url

/-- Every entry with an article can be read and has fewer than `batch` entries without
one before it. -/
def Unblocked (cfg : Config) (batch : Nat) (entries : List (DlqEntry F)) : Prop :=
  ∀ before e later, entries = before ++ e :: later → hasArticle e = true →
    Readable cfg e ∧ (skipsOf before).length < batch

/-! ## One round -/

section Entries

omit [FloatText F]

@[simp] theorem articlesOf_append (xs ys : List (DlqEntry F)) :
    articlesOf (xs ++ ys) = articlesOf xs ++ articlesOf ys := List.filter_append _ _

@[simp] theorem skipsOf_append (xs ys : List (DlqEntry F)) :
    skipsOf (xs ++ ys) = skipsOf xs ++ skipsOf ys := List.filter_append _ _

@[simp] theorem articlesOf_skipsOf (xs : List (DlqEntry F)) : articlesOf (skipsOf xs) = [] := by
  rw [articlesOf, skipsOf, List.filter_filter, List.filter_eq_nil_iff]
  simp

theorem skipsOf_skipsOf (xs : List (DlqEntry F)) : skipsOf (skipsOf xs) = skipsOf xs := by
  unfold skipsOf
  rw [List.filter_filter]
  simp

theorem remainder_sublist (gone rest : List (DlqEntry F)) :
    (skipsOf gone ++ rest).Sublist (gone ++ rest) :=
  List.filter_sublist.append (List.Sublist.refl rest)

/-- What a round leaves of the entries it has gone through and the others. -/
def remainder (delete : Bool) (gone rest : List (DlqEntry F)) : List (DlqEntry F) :=
  if delete then skipsOf gone ++ rest else gone ++ rest

/-- The entries gone through have been sent. -/
structure Sent (delete : Bool) (gone rest : List (DlqEntry F)) (s t : State F) : Prop where
  queue : ∃ messages, t.queue = s.queue ++ messages ∧
    messages.map Message.article = (articlesOf gone).map fun e => some e.article
  dlq : t.dlq = remainder delete gone rest

/-- Deleting the entry after some skipped ones leaves these and the rest. -/
theorem xdel_remainder {gone rest : List (DlqEntry F)} {e : DlqEntry F}
    (hids : ((gone ++ e :: rest).map DlqEntry.entryId).Nodup) :
    (skipsOf gone ++ e :: rest).filter (fun x => decide (x.entryId ≠ e.entryId)) =
      skipsOf gone ++ rest := by
  rw [List.map_append, List.map_cons, List.nodup_append] at hids
  obtain ⟨-, hrest, hgone⟩ := hids
  have hne {x : DlqEntry F} (hx : x ∈ skipsOf gone ∨ x ∈ rest) : x.entryId ≠ e.entryId := by
    rcases hx with hx | hx
    · exact hgone _ (List.mem_map_of_mem (List.mem_filter.mp hx).1) _ (by simp)
    · intro hsame
      exact (List.nodup_cons.mp hrest).1 (hsame ▸ List.mem_map_of_mem hx)
  rw [List.filter_append, List.filter_cons_of_neg (by simp)]
  congr 1
  · exact List.filter_eq_self.mpr fun x hx => by simpa using hne (Or.inl hx)
  · exact List.filter_eq_self.mpr fun x hx => by simpa using hne (Or.inr hx)

end Entries

/-- A turn sends its entry, skips it, or raises before any call. -/
theorem replayEntry_sent (cfg : Config) {delete : Bool} {gone rest : List (DlqEntry F)}
    {x : DlqEntry F × Nat} (acc : Nat × Nat) {s t : State F}
    (hids : ((gone ++ x.1 :: rest).map DlqEntry.entryId).Nodup)
    (hsent : Sent delete gone (x.1 :: rest) s t) :
    Ends (replayEntry cfg (fun _ => .returns) delete false acc x) t
      (fun acc' u => acc'.1 = acc.1 + (articlesOf [x.1]).length ∧
        Sent delete (gone ++ [x.1]) rest s u ∧ (hasArticle x.1 = true → Readable cfg x.1))
      (fun _ u => hasArticle x.1 = true ∧ ¬ Readable cfg x.1 ∧
        Sent delete gone (x.1 :: rest) s u) := by
  obtain ⟨⟨messages, hqueue, htexts⟩, hdlq⟩ := hsent
  unfold replayEntry
  split
  · rename_i hempty
    have hskip : hasArticle x.1 = false := by simp [hasArticle, hempty]
    refine ends_pure ⟨by simp [articlesOf, hskip], ⟨⟨messages, hqueue, ?_⟩, ?_⟩, ?_⟩
    · simp [htexts, articlesOf, hskip]
    · cases delete <;> simp [hdlq, remainder, skipsOf, hskip]
    · simp [hskip]
  · rename_i hne
    have hhas : hasArticle x.1 = true := by simp [hasArticle, hne]
    have hraise (h : ¬ Readable cfg x.1) : hasArticle x.1 = true ∧ ¬ Readable cfg x.1 ∧
        Sent delete gone (x.1 :: rest) s t := ⟨hhas, h, ⟨⟨messages, hqueue, htexts⟩, hdlq⟩⟩
    refine ends_bind (ends_lift (fun info hinfo => ?_) fun e he => hraise ?_)
    · refine ends_bind (ends_lift (fun url hurl => ?_) fun e he => hraise ?_)
      · have hcount : acc.1 + 1 = acc.1 + (articlesOf [x.1]).length := by simp [articlesOf, hhas]
        have htexts' : (messages ++ [Message.mk t.nextId (some x.1.article)]).map Message.article =
            (articlesOf (gone ++ [x.1])).map fun e => some e.article := by
          simp [htexts, articlesOf, hhas]
        simp only [Bool.false_eq_true, if_false]
        refine ends_bind (ends_call_returns ?_)
        cases delete with
        | true =>
          rw [if_pos rfl]
          refine ends_call_returns ⟨hcount, ⟨⟨_, ?_, htexts'⟩, ?_⟩, ?_⟩
          · simp [State.xdel, State.publish, hqueue]
          · simp only [State.xdel, State.publish, hdlq, remainder, if_true]
            rw [xdel_remainder hids]
            simp [skipsOf, hhas]
          · exact fun _ => ⟨info, url, hinfo, hurl⟩
        | false =>
          rw [if_neg (by decide)]
          refine ends_pure ⟨hcount, ⟨⟨_, ?_, htexts'⟩, ?_⟩, ?_⟩
          · simp [State.publish, hqueue]
          · simp [State.publish, hdlq, remainder]
          · exact fun _ => ⟨info, url, hinfo, hurl⟩
      · rintro ⟨info', url, hinfo', hurl⟩
        rw [hinfo] at hinfo'
        cases hinfo'
        rw [he] at hurl
        cases hurl
    · rintro ⟨info, url, hinfo, -⟩
      rw [he] at hinfo
      cases hinfo

/-- A round goes through the oldest entries, or raises at one it cannot read. -/
theorem replayRound_sent (cfg : Config) {batch : Nat} (hbatch : 1 ≤ batch) (delete : Bool)
    {s : State F} (hids : (s.dlq.map DlqEntry.entryId).Nodup) :
    Ends (replayRound cfg (fun _ => .returns) batch delete false) s
      (fun counts t => counts.1 = (articlesOf (s.dlq.take batch)).length ∧
        Sent delete (s.dlq.take batch) (s.dlq.drop batch) s t ∧
        ∀ e ∈ articlesOf (s.dlq.take batch), Readable cfg e)
      (fun _ t => ∃ gone e rest, s.dlq = gone ++ e :: rest ∧ gone.length < batch ∧
        hasArticle e = true ∧ ¬ Readable cfg e ∧ Sent delete gone (e :: rest) s t) := by
  have hsplit := List.take_append_drop batch s.dlq
  have hentries : oldestEntries batch s = s.dlq.take batch := if_neg (by omega)
  refine ends_bind (ends_query (fun _ => ?_) fun h => (h rfl).elim)
  rw [hentries]
  refine ends_mono (E := fun _ t => ∃ gone e rest, s.dlq = gone ++ e :: rest ∧
    gone.length < batch ∧ hasArticle e = true ∧ ¬ Readable cfg e ∧ Sent delete gone (e :: rest) s t)
    (ends_foldlM (fun done acc t => ∃ rest, s.dlq = done.map Prod.fst ++ rest ∧
      acc.1 = (articlesOf (done.map Prod.fst)).length ∧
      Sent delete (done.map Prod.fst) rest s t ∧
      ∀ e ∈ articlesOf (done.map Prod.fst), Readable cfg e) ?_ ?_) ?_ ?_
  · exact ⟨s.dlq, rfl, rfl, ⟨⟨[], by simp [articlesOf]⟩, by cases delete <;> rfl⟩, by simp [articlesOf]⟩
  · rintro done x later acc t hxs ⟨rest, hdlq, hacc, hsent, hread⟩
    obtain ⟨rest', rfl⟩ : ∃ rest', rest = x.1 :: rest' := by
      have hwindow := congrArg (List.map Prod.fst) hxs
      rw [List.zipIdx_map_fst, List.map_append, List.map_cons] at hwindow
      rw [← hsplit, hwindow, List.append_assoc] at hdlq
      exact ⟨_, (List.append_cancel_left hdlq).symm⟩
    refine ends_mono (replayEntry_sent cfg acc (hdlq ▸ hids) hsent) ?_ ?_
    · rintro acc' u ⟨hacc', hsent', hread'⟩
      refine ⟨rest', by simp [hdlq], ?_, by simpa using hsent', fun e he => ?_⟩
      · simp [hacc', hacc]
      · rw [List.map_append, articlesOf_append, List.mem_append] at he
        rcases he with he | he
        · exact hread e he
        · obtain ⟨hmem, hhas⟩ := List.mem_filter.mp he
          obtain rfl := List.mem_singleton.mp hmem
          exact hread' hhas
    · rintro _ u ⟨hhas, hraise, hsent'⟩
      refine ⟨done.map Prod.fst, x.1, rest', hdlq, ?_, hhas, hraise, hsent'⟩
      have hlength := congrArg List.length hxs
      rw [List.length_zipIdx, List.length_append, List.length_cons, List.length_take] at hlength
      rw [List.length_map]
      omega
  · rintro counts t ⟨rest, hdlq, hacc, hsent, hread⟩
    rw [List.zipIdx_map_fst] at hdlq hacc hsent hread
    obtain rfl : rest = s.dlq.drop batch := List.append_cancel_left (hdlq.symm.trans hsplit.symm)
    exact ⟨hacc, hsent, hread⟩
  · exact fun _ _ h => h

/-! ## The rounds of an invocation -/

/-- One round, and then the others unless it was the last one. -/
theorem invocation_ends {cfg : Config} {batch left : Nat} {delete : Bool} {s : State F}
    {Q : LoopEnd → State F → Prop} {E : PyExn → State F → Prop}
    (h : Ends (replayRound cfg (fun _ => .returns) batch delete false) s
      (fun counts t => (counts.1 = 0 → Q .noneReplayed t) ∧ (t.dlq = [] → Q .empty t) ∧
        (counts.1 ≠ 0 → t.dlq ≠ [] → Ends (invocation cfg batch delete left) t Q E)) E) :
    Ends (invocation cfg batch delete (left + 1)) s Q E := by
  refine ends_bind (ends_mono h (fun counts t ht => ?_) fun _ _ he => he)
  obtain ⟨hnone, hempty, hrest⟩ := ht
  refine ends_bind (ends_query (fun _ => ?_) fun hne => (hne rfl).elim)
  split
  · rename_i hzero
    exact ends_pure (hnone hzero)
  · rename_i hsome
    rw [if_neg (by decide)]
    split
    · rename_i hzero
      exact ends_pure (hempty (List.eq_nil_of_length_eq_zero hzero))
    · rename_i hmore
      exact hrest hsome fun hnil => hmore (by rw [hnil]; rfl)

/-- The messages an invocation has added. -/
def Added (s t : State F) (P : List Message → Prop) : Prop :=
  ∃ messages, t.queue = s.queue ++ messages ∧ P messages

omit [FloatText F] in
theorem Added.trans {s t u : State F} {P Q R : List Message → Prop} (h : Added s t P)
    (h' : Added t u Q) (hR : ∀ ms ms', P ms → Q ms' → R (ms ++ ms')) : Added s u R := by
  obtain ⟨ms, hqueue, hms⟩ := h
  obtain ⟨ms', hqueue', hms'⟩ := h'
  exact ⟨ms ++ ms', by rw [hqueue', hqueue, List.append_assoc], hR ms ms' hms hms'⟩

omit [FloatText F] in
theorem Sent.added {delete : Bool} {gone rest : List (DlqEntry F)} {s t : State F}
    (h : Sent delete gone rest s t) : Added s t fun ms => ms.length = (articlesOf gone).length := by
  obtain ⟨ms, hqueue, htexts⟩ := h.queue
  refine ⟨ms, hqueue, ?_⟩
  simpa using congrArg List.length htexts

omit [FloatText F] in
/-- Not all articles are sent before one of them. -/
theorem Sent.added_less {delete : Bool} {gone rest : List (DlqEntry F)} {e : DlqEntry F}
    {s t : State F} (h : Sent delete gone (e :: rest) s t) (hdlq : s.dlq = gone ++ e :: rest)
    (hhas : hasArticle e = true) :
    Added s t fun ms => ms.length < (articlesOf s.dlq).length := by
  obtain ⟨ms, hqueue, hms⟩ := h.added
  have hcons : articlesOf (e :: rest) = e :: articlesOf rest := List.filter_cons_of_pos hhas
  have hlength := congrArg (fun entries => (articlesOf entries).length) hdlq
  simp only [articlesOf_append, List.length_append, hcons, List.length_cons] at hlength
  exact ⟨ms, hqueue, by omega⟩

theorem not_unblocked_articles {cfg : Config} {batch : Nat} {entries : List (DlqEntry F)}
    (h : ¬ Unblocked cfg batch entries) : 0 < (articlesOf entries).length := by
  by_contra hzero
  apply h
  intro before e later hentries hhas
  have hmem : e ∈ articlesOf entries := List.mem_filter.mpr ⟨by rw [hentries]; simp, hhas⟩
  rw [List.eq_nil_of_length_eq_zero (by omega : (articlesOf entries).length = 0)] at hmem
  cases hmem

/-- Deleting what a round has sent changes nothing for the others. -/
theorem unblocked_remainder_iff {cfg : Config} {batch : Nat} {gone rest : List (DlqEntry F)}
    (hgone : gone.length ≤ batch) (hread : ∀ e ∈ articlesOf gone, Readable cfg e) :
    Unblocked cfg batch (skipsOf gone ++ rest) ↔ Unblocked cfg batch (gone ++ rest) := by
  constructor
  · intro h before e later hentries hhas
    rcases List.append_eq_append_iff.mp hentries with ⟨more, rfl, hrest⟩ | ⟨more, hstart, hlater⟩
    · have := h (skipsOf gone ++ more) e later (by rw [hrest, List.append_assoc]) hhas
      simpa [skipsOf_skipsOf] using this
    · cases more with
      | nil =>
        rw [List.nil_append] at hlater
        rw [List.append_nil] at hstart
        have := h (skipsOf gone) e later (by rw [hlater]) hhas
        simpa [hstart, skipsOf_skipsOf] using this
      | cons x more =>
        obtain ⟨rfl, -⟩ := List.cons.inj hlater
        have hmem : e ∈ articlesOf gone := List.mem_filter.mpr ⟨by rw [hstart]; simp, hhas⟩
        refine ⟨hread e hmem, ?_⟩
        have hle : (skipsOf before).length ≤ before.length := List.length_filter_le _ _
        rw [hstart, List.length_append, List.length_cons] at hgone
        omega
  · intro h before e later hentries hhas
    rcases List.append_eq_append_iff.mp hentries with ⟨more, rfl, hrest⟩ | ⟨more, hstart, hlater⟩
    · have := h (gone ++ more) e later (by rw [hrest, List.append_assoc]) hhas
      simpa [skipsOf_skipsOf] using this
    · cases more with
      | nil =>
        rw [List.nil_append] at hlater
        rw [List.append_nil] at hstart
        have := h gone e later (by rw [hlater]) hhas
        simpa [← hstart, skipsOf_skipsOf] using this
      | cons x more =>
        obtain ⟨rfl, -⟩ := List.cons.inj hlater
        have hmem : e ∈ skipsOf gone := by rw [hstart]; simp
        have hskip := (List.mem_filter.mp hmem).2
        rw [hhas] at hskip
        cases hskip

/-- With deletion, an invocation that nothing blocks sends every article. -/
theorem invocation_sends (cfg : Config) {batch : Nat} (hbatch : 1 ≤ batch) {rounds : Nat}
    {s : State F} (hids : (s.dlq.map DlqEntry.entryId).Nodup) (h : Unblocked cfg batch s.dlq)
    (hrounds : (articlesOf s.dlq).length < rounds) :
    Ends (invocation cfg batch true rounds) s
      (fun _ t => Added s t fun ms =>
        ms.map Message.article = (articlesOf s.dlq).map fun e => some e.article)
      (fun _ _ => False) := by
  induction rounds generalizing s with
  | zero => omega
  | succ left ih =>
    have hsplit := List.take_append_drop batch s.dlq
    refine invocation_ends (ends_mono (replayRound_sent cfg hbatch true hids) ?_ ?_)
    · rintro counts t ⟨hcount, hsent, hread⟩
      have hdlq : t.dlq = skipsOf (s.dlq.take batch) ++ s.dlq.drop batch := hsent.dlq
      have harticles : articlesOf s.dlq =
          articlesOf (s.dlq.take batch) ++ articlesOf (s.dlq.drop batch) := by
        rw [← articlesOf_append, hsplit]
      have hall (hnone : articlesOf (s.dlq.drop batch) = []) : Added s t fun ms =>
          ms.map Message.article = (articlesOf s.dlq).map fun e => some e.article := by
        obtain ⟨ms, hqueue, htexts⟩ := hsent.queue
        refine ⟨ms, hqueue, htexts.trans ?_⟩
        rw [harticles, hnone, List.append_nil]
      refine ⟨fun hzero => hall ?_, fun hempty => hall ?_, fun hsome _ => ?_⟩
      · -- a whole round of entries without an article would block the others
        rw [hcount] at hzero
        have hnil := List.eq_nil_of_length_eq_zero hzero
        rw [List.eq_nil_iff_forall_not_mem]
        intro e he
        obtain ⟨hmem, hhas⟩ := List.mem_filter.mp he
        obtain ⟨before, later, hdrop⟩ := List.append_of_mem hmem
        have hblocked := (h (s.dlq.take batch ++ before) e later
          (by rw [List.append_assoc, ← hdrop, hsplit]) hhas).2
        have hwhole : skipsOf (s.dlq.take batch) = s.dlq.take batch := by
          apply List.filter_eq_self.mpr
          intro x hx
          have := List.filter_eq_nil_iff.mp hnil x hx
          simpa using this
        have hlength : batch < s.dlq.length := by
          have := congrArg List.length hdrop
          simp only [List.length_drop, List.length_append, List.length_cons] at this
          omega
        rw [skipsOf_append, hwhole, List.length_append, List.length_take] at hblocked
        omega
      · rw [hdlq, List.append_eq_nil_iff] at hempty
        rw [hempty.2]
        rfl
      · rw [hcount] at hsome
        have hrest : articlesOf t.dlq = articlesOf (s.dlq.drop batch) := by
          rw [hdlq, articlesOf_append, articlesOf_skipsOf, List.nil_append]
        have hlength := congrArg List.length harticles
        rw [List.length_append] at hlength
        have hsub := remainder_sublist (s.dlq.take batch) (s.dlq.drop batch)
        rw [hsplit] at hsub
        have hunblocked := (unblocked_remainder_iff (List.length_take_le _ _) hread).mpr
          (hsplit.symm ▸ h)
        refine ends_mono (ih (hdlq ▸ (hsub.map _).nodup hids) (hdlq ▸ hunblocked)
          (by rw [hrest]; omega)) (fun _ u hu => ?_) fun _ _ hfalse => hfalse
        apply Added.trans hsent.queue hu
        intro ms ms' hms hms'
        rw [List.map_append, hms, hms', hrest, harticles, List.map_append]
    · rintro _ t ⟨gone, e, rest, hdlq, -, hhas, hraise, -⟩
      exact hraise (h gone e rest hdlq hhas).1

/-- With deletion, an invocation that something blocks leaves an article out. -/
theorem invocation_short (cfg : Config) {batch : Nat} (hbatch : 1 ≤ batch) (rounds : Nat)
    {s : State F} (hids : (s.dlq.map DlqEntry.entryId).Nodup) (h : ¬ Unblocked cfg batch s.dlq) :
    Ends (invocation cfg batch true rounds) s
      (fun _ t => Added s t fun ms => ms.length < (articlesOf s.dlq).length)
      (fun _ t => Added s t fun ms => ms.length < (articlesOf s.dlq).length) := by
  induction rounds generalizing s with
  | zero => exact ends_pure ⟨[], (List.append_nil _).symm, not_unblocked_articles h⟩
  | succ left ih =>
    have hsplit := List.take_append_drop batch s.dlq
    refine invocation_ends (ends_mono (replayRound_sent cfg hbatch true hids) ?_ ?_)
    · rintro counts t ⟨-, hsent, hread⟩
      have hdlq : t.dlq = skipsOf (s.dlq.take batch) ++ s.dlq.drop batch := hsent.dlq
      have hblocked : ¬ Unblocked cfg batch t.dlq := by
        rw [hdlq, unblocked_remainder_iff (List.length_take_le _ _) hread, hsplit]
        exact h
      have hlength : (articlesOf s.dlq).length =
          (articlesOf (s.dlq.take batch)).length + (articlesOf t.dlq).length := by
        rw [hdlq, articlesOf_append, articlesOf_skipsOf, List.nil_append, ← List.length_append,
          ← articlesOf_append, hsplit]
      have hpositive := not_unblocked_articles hblocked
      have hnow : Added s t fun ms => ms.length < (articlesOf s.dlq).length := by
        obtain ⟨ms, hqueue, hms⟩ := hsent.added
        exact ⟨ms, hqueue, by omega⟩
      have hsub := remainder_sublist (s.dlq.take batch) (s.dlq.drop batch)
      rw [hsplit] at hsub
      have hmore {u : State F} (hu : Added t u fun ms => ms.length < (articlesOf t.dlq).length) :
          Added s u fun ms => ms.length < (articlesOf s.dlq).length :=
        hsent.added.trans hu fun ms ms' hms hms' => by
          rw [List.length_append]
          omega
      exact ⟨fun _ => hnow, fun _ => hnow, fun _ _ =>
        ends_mono (ih (hdlq ▸ (hsub.map _).nodup hids) hblocked) (fun _ _ => hmore) fun _ _ => hmore⟩
    · rintro _ t ⟨gone, e, rest, hdlq, -, hhas, -, hsent⟩
      exact hsent.added_less hdlq hhas

/-- Without deletion every round sends the same entries. -/
theorem invocation_repeats (cfg : Config) {batch : Nat} (hbatch : 1 ≤ batch) (rounds : Nat)
    {s : State F} (hids : (s.dlq.map DlqEntry.entryId).Nodup)
    (hread : ∀ e ∈ articlesOf (s.dlq.take batch), Readable cfg e) :
    Ends (invocation cfg batch false rounds) s
      (fun _ t => Added s t fun ms => ms.length = rounds * (articlesOf (s.dlq.take batch)).length)
      (fun _ _ => False) := by
  induction rounds generalizing s with
  | zero => exact ends_pure ⟨[], (List.append_nil _).symm, (Nat.zero_mul _).symm⟩
  | succ left ih =>
    have hsplit := List.take_append_drop batch s.dlq
    refine invocation_ends (ends_mono (replayRound_sent cfg hbatch false hids) ?_ ?_)
    · rintro counts t ⟨hcount, hsent, -⟩
      have hdlq : t.dlq = s.dlq := hsent.dlq.trans hsplit
      have hnow (hzero : (articlesOf (s.dlq.take batch)).length = 0) : Added s t fun ms =>
          ms.length = (left + 1) * (articlesOf (s.dlq.take batch)).length := by
        obtain ⟨ms, hqueue, hms⟩ := hsent.added
        refine ⟨ms, hqueue, hms.trans ?_⟩
        rw [hzero, Nat.mul_zero]
      refine ⟨fun hzero => hnow (hcount ▸ hzero), fun hempty => hnow ?_, fun _ _ => ?_⟩
      · rw [← hdlq, hempty, List.take_nil]
        rfl
      · refine ends_mono (ih (hdlq ▸ hids) (hdlq ▸ hread)) (fun _ u hu => ?_) fun _ _ hfalse => hfalse
        apply hsent.added.trans hu
        intro ms ms' hms hms'
        rw [List.length_append, hms, hms', hdlq, Nat.succ_mul, Nat.add_comm]
    · rintro _ t ⟨gone, e, rest, hdlq, hgone, hhas, hraise, -⟩
      refine hraise (hread e (List.mem_filter.mpr ⟨?_, hhas⟩))
      obtain ⟨k, rfl⟩ := Nat.exists_eq_add_of_lt hgone
      rw [hdlq, Nat.add_assoc, List.take_length_add_append]
      simp

/-! ## Invocations -/

theorem ReplaysOnce.of_ends {cfg : Config} {batch maxRounds : Nat} {delete : Bool} {s : State F}
    (h : Ends (invocation cfg batch delete maxRounds) s
      (fun _ t => Added s t fun ms =>
        ms.map Message.article = (articlesOf s.dlq).map fun e => some e.article)
      (fun _ _ => False)) : ReplaysOnce cfg batch delete maxRounds s := by
  refine ⟨?_, fun stop t hreturns _ e he => ?_⟩
  · obtain ⟨ms, hqueue, htexts⟩ := h.after (I := fun t => Added s t fun ms =>
      ms.map Message.article = (articlesOf s.dlq).map fun e => some e.article) (fun _ _ ht => ht)
      fun _ _ hfalse => hfalse.elim
    exact ⟨ms, hqueue, List.Perm.of_eq htexts⟩
  · obtain ⟨ms, hqueue, htexts⟩ := h.of_returns hreturns
    rw [hqueue, List.drop_left, htexts]
    exact List.mem_map_of_mem (f := fun e => some e.article) he

/-- An invocation that adds as many messages as there are articles. -/
theorem ReplaysOnce.length_eq {cfg : Config} {batch maxRounds : Nat} {delete : Bool} {s : State F}
    (h : ReplaysOnce cfg batch delete maxRounds s) {P : List Message → Prop}
    (hends : Ends (invocation cfg batch delete maxRounds) s (fun _ t => Added s t P)
      (fun _ t => Added s t P)) : ∃ ms, P ms ∧ ms.length = (articlesOf s.dlq).length := by
  obtain ⟨ms, hqueue, hms⟩ := hends.after (I := fun t => Added s t P) (fun _ _ ht => ht)
    fun _ _ ht => ht
  obtain ⟨ms', hqueue', hperm⟩ := h.once
  obtain rfl : ms = ms' := List.append_cancel_left (hqueue.symm.trans hqueue')
  exact ⟨ms, hms, by simpa using hperm.length_eq⟩

theorem unblocked_of_replaysOnce {cfg : Config} {batch maxRounds : Nat} (hbatch : 1 ≤ batch)
    {delete : Bool} {s : State F} (hids : (s.dlq.map DlqEntry.entryId).Nodup)
    (hrounds : (articlesOf s.dlq).length < maxRounds)
    (h : ReplaysOnce cfg batch delete maxRounds s) :
    Unblocked cfg batch s.dlq ∧ (delete = true ∨ articlesOf s.dlq = []) := by
  cases delete with
  | true =>
    refine ⟨?_, Or.inl rfl⟩
    by_contra hblocked
    obtain ⟨ms, hless, hlength⟩ := h.length_eq (invocation_short cfg hbatch maxRounds hids hblocked)
    omega
  | false =>
    have hnone : articlesOf s.dlq = [] := by
      apply List.eq_nil_of_length_eq_zero
      by_cases hread : ∀ e ∈ articlesOf (s.dlq.take batch), Readable cfg e
      · obtain ⟨ms, hrepeats, hlength⟩ := h.length_eq (ends_mono
          (invocation_repeats cfg hbatch maxRounds hids hread) (fun _ _ ht => ht)
          fun _ _ hfalse => hfalse.elim)
        by_cases hzero : (articlesOf (s.dlq.take batch)).length = 0
        · rw [hzero, Nat.mul_zero] at hrepeats
          omega
        · have := Nat.le_mul_of_pos_right maxRounds (Nat.pos_of_ne_zero hzero)
          omega
      · -- the first round raises at the entry that cannot be read
        obtain ⟨left, rfl⟩ := Nat.exists_eq_succ_of_ne_zero (show maxRounds ≠ 0 by omega)
        have hless (u : PyExn) (t : State F) (ht : ∃ gone e rest, s.dlq = gone ++ e :: rest ∧
            gone.length < batch ∧ hasArticle e = true ∧ ¬ Readable cfg e ∧
              Sent false gone (e :: rest) s t) :
            Added s t fun ms => ms.length < (articlesOf s.dlq).length := by
          obtain ⟨gone, e, rest, hdlq, -, hhas, -, hsent⟩ := ht
          exact hsent.added_less hdlq hhas
        obtain ⟨ms, hms, hlength⟩ := h.length_eq (invocation_ends (ends_mono
          (replayRound_sent cfg hbatch false hids) (fun _ _ ht => (hread ht.2.2).elim) hless))
        omega
    refine ⟨fun before e later hdlq hhas => ?_, Or.inr hnone⟩
    have hmem : e ∈ articlesOf s.dlq := List.mem_filter.mpr ⟨by rw [hdlq]; simp, hhas⟩
    rw [hnone] at hmem
    cases hmem

theorem replaysOnce_of_unblocked {cfg : Config} {batch maxRounds : Nat} (hbatch : 1 ≤ batch)
    {delete : Bool} {s : State F} (hids : (s.dlq.map DlqEntry.entryId).Nodup)
    (hrounds : (articlesOf s.dlq).length < maxRounds) (h : Unblocked cfg batch s.dlq)
    (hdelete : delete = true ∨ articlesOf s.dlq = []) :
    ReplaysOnce cfg batch delete maxRounds s := by
  cases delete with
  | true => exact .of_ends (invocation_sends cfg hbatch hids h hrounds)
  | false =>
    have hnone : articlesOf s.dlq = [] := hdelete.resolve_left (by decide)
    have hwindow : articlesOf (s.dlq.take batch) = [] := by
      rw [← List.take_append_drop batch s.dlq, articlesOf_append, List.append_eq_nil_iff] at hnone
      exact hnone.1
    refine .of_ends (ends_mono (invocation_repeats cfg hbatch maxRounds hids ?_) ?_
      fun _ _ hfalse => hfalse)
    · intro e he
      rw [hwindow] at he
      cases he
    · rintro _ t ⟨ms, hqueue, hlength⟩
      rw [hwindow, List.length_nil, Nat.mul_zero] at hlength
      obtain rfl := List.eq_nil_of_length_eq_zero hlength
      exact ⟨[], hqueue, by rw [hnone]; rfl⟩

/-- An invocation with enough rounds replays each entry with an article once, and stops
with none left, exactly when nothing blocks an entry and the entries are deleted. -/
theorem replaysOnce_iff (cfg : Config) (batch : Nat) (hbatch : 1 ≤ batch) (delete : Bool)
    (maxRounds : Nat) (s : State F) (hids : (s.dlq.map DlqEntry.entryId).Nodup)
    (hrounds : (articlesOf s.dlq).length < maxRounds) :
    ReplaysOnce cfg batch delete maxRounds s ↔
      Unblocked cfg batch s.dlq ∧ (delete = true ∨ articlesOf s.dlq = []) :=
  ⟨unblocked_of_replaysOnce hbatch hids hrounds, fun h =>
    replaysOnce_of_unblocked hbatch hids hrounds h.1 h.2⟩

/-- An entry without an article. -/
def bareEntry : DlqEntry TextFloat := { titledEntry 3 with entryId := 1, article := [] }

/-- The dead-letter stream holds two articles, with that entry between them. -/
def twoParked : State TextFloat :=
  { State.initial TextFloat with
    dlq := [titledEntry 3, bareEntry, { titledEntry 3 with entryId := 2 }] }

theorem titledEntry_readable (n : MsgId) :
    Readable .standard { titledEntry 3 with entryId := n } := by
  have hinfo : entryInfo .standard (titledEntry 3) = .ok (.obj (titled 3)) := by decide +kernel
  exact ⟨.obj (titled 3), urlOf (titled 3), hinfo, rfl⟩

/-- The second article comes into the window in the second round. -/
theorem replaysOnce_iff_deleted : ReplaysOnce .standard 2 true 3 twoParked := by
  refine (replaysOnce_iff .standard 2 (by decide) true 3 twoParked (by decide)
    (by decide +kernel)).mpr ⟨fun before e later hdlq hhas => ?_, Or.inl rfl⟩
  have hbefore : before = twoParked.dlq.take before.length := by rw [hdlq, List.take_left]
  have he : twoParked.dlq[before.length]? = some e := by rw [hdlq]; simp
  rw [hbefore]
  generalize before.length = k at he ⊢
  rcases k with _ | _ | _ | k
  · obtain rfl := Option.some.inj he
    exact ⟨titledEntry_readable 0, by decide⟩
  · obtain rfl := Option.some.inj he
    exact absurd hhas (by decide +kernel)
  · obtain rfl := Option.some.inj he
    exact ⟨titledEntry_readable 2, by decide +kernel⟩
  · cases he

/-- The dead-letter stream holds that entry and then an article. -/
def hiddenState : State TextFloat :=
  { State.initial TextFloat with dlq := [bareEntry, titledEntry 3] }

/-- Without deletion the entry is replayed in each of the rounds; with deletion an entry
without an article hides the one behind it from rounds of one entry. -/
theorem replay_loop_stuck :
    ¬ ReplaysOnce .standard 300 false 40 (parkedState 3) ∧
    ¬ ReplaysOnce .standard 1 true 40 hiddenState := by
  refine ⟨fun h => ?_, fun h => ?_⟩
  · have hnone := (unblocked_of_replaysOnce (by decide) (by decide) (by decide +kernel) h).2
    exact absurd (hnone.resolve_left (by decide)) (by decide +kernel)
  · have hclear := (unblocked_of_replaysOnce (by decide) (by decide) (by decide +kernel) h).1
    have := (hclear [bareEntry] (titledEntry 3) [] rfl (by decide +kernel)).2
    exact absurd this (by decide +kernel)

end WebSpider.Processor
