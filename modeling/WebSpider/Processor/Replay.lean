import WebSpider.Processor.System

/-!
# Replaying the dead-letter stream

`replay_round` of `dlq_replay.py`. An entry carries the text of its article cut
to 10000 characters. The replayed message decodes to the parked article exactly
when nothing was cut (`replay_roundtrip_iff`): a cut text lacks its closing
brace and is then skipped as malformed.
-/

namespace WebSpider.Processor

open Text Json Effects

variable {F : Type} [FloatText F]

/-- The calls `replay_round` makes, for the `k`-th entry. -/
inductive ReplaySite where
  | xrange
  | xadd (k : Nat)
  | xdel (k : Nat)

/-- `json.loads(article)`, `{}` when the text is not JSON. -/
def entryInfo (cfg : Config) (entry : DlqEntry F) : Except PyExn (Value F) :=
  match loads cfg.nesting entry.article with
  | .ok info => .ok info
  | .error .decode => .ok (.obj [])
  | .error .tooManyDigits => .error .valueError
  | .error .tooDeep => .error .recursionError
  -- never the case, see `loads_ne_fuel`
  | .error .fuel => .error .recursionError

/-- `fields.get("url") or info.get("url", "?")` -/
def entryUrl (entry : DlqEntry F) (info : Value F) : Except PyExn (Value F) :=
  match entry.url, info with
  | .str [], .obj article => .ok (getField article (lit "url") (.str (lit "?")))
  | .str [], _ => .error .attributeError
  | url, _ => .ok url

/-- `XDEL` of an entry. -/
def State.xdel (entryId : Nat) (s : State F) : State F :=
  { s with dlq := s.dlq.filter fun e => decide (e.entryId ≠ entryId) }

/-- One turn of the loop: the counts of replayed and skipped entries. -/
def replayEntry (cfg : Config) (plan : ReplaySite → Outcome) (delete dryRun : Bool)
    (acc : Nat × Nat) (x : DlqEntry F × Nat) : Prog (State F) PyExn (Nat × Nat) :=
  if x.1.article = [] then pure (acc.1, acc.2 + 1)
  else do
    let info ← Prog.lift (entryInfo cfg x.1)
    let _ ← Prog.lift (entryUrl x.1 info)
    if dryRun then pure acc
    else do
      call .redisError (plan (.xadd x.2)) fun s => ((), s.publish (some x.1.article))
      if delete then
        call .redisError (plan (.xdel x.2)) fun s => ((acc.1 + 1, acc.2), s.xdel x.1.entryId)
      else pure (acc.1 + 1, acc.2)

/-- The oldest entries; `limit` 0 means all. -/
def oldestEntries (limit : Nat) (s : State F) : List (DlqEntry F) :=
  if limit = 0 then s.dlq else s.dlq.take limit

def replayRound (cfg : Config) (plan : ReplaySite → Outcome) (limit : Nat) (delete dryRun : Bool) :
    Prog (State F) PyExn (Nat × Nat) := do
  let entries ← query .redisError (plan .xrange) (oldestEntries limit)
  entries.zipIdx.foldlM (replayEntry cfg plan delete dryRun) (0, 0)

/-! ## What a round publishes -/

/-- Each turn publishes the article text of its entry, unless that is empty. -/
theorem replayEntry_ends (cfg : Config) (plan : ReplaySite → Outcome) (delete : Bool)
    (acc : Nat × Nat) (x : DlqEntry F × Nat) (s : State F) :
    Ends (replayEntry cfg plan delete false acc x) s
      (fun _ t => (x.1.article = [] ∧ t.queue = s.queue) ∨
        (x.1.article ≠ [] ∧ ∃ i, t.queue = s.queue ++ [⟨i, some x.1.article⟩]))
      (fun _ _ => True) := by
  unfold replayEntry
  split
  · rename_i hempty
    exact ends_pure (Or.inl ⟨hempty, rfl⟩)
  · rename_i hne
    refine ends_bind (ends_lift (fun info _ => ?_) fun _ _ => trivial)
    refine ends_bind (ends_lift (fun url _ => ?_) fun _ _ => trivial)
    simp only [Bool.false_eq_true, if_false]
    refine ends_bind (ends_call (fun _ => ?_) (fun _ _ _ => trivial) fun _ _ _ => trivial)
    split
    · exact ends_call (fun _ => Or.inr ⟨hne, s.nextId, rfl⟩) (fun _ _ _ => trivial)
        fun _ _ _ => trivial
    · exact ends_pure (Or.inr ⟨hne, s.nextId, rfl⟩)

theorem replayRound_ends (cfg : Config) (plan : ReplaySite → Outcome) (limit : Nat)
    (delete : Bool) (s : State F) :
    Ends (replayRound cfg plan limit delete false) s
      (fun _ t => ∃ messages, t.queue = s.queue ++ messages ∧ messages.map Message.article =
        ((oldestEntries limit s).map DlqEntry.article).filterMap fun text =>
          if text = [] then none else some (some text))
      (fun _ _ => True) := by
  refine ends_bind (ends_query (fun _ => ?_) fun _ => trivial)
  refine ends_mono (E := fun _ _ => True) (ends_foldlM (fun done _ t => ∃ messages, t.queue = s.queue ++ messages ∧
    messages.map Message.article = ((done.map Prod.fst).map DlqEntry.article).filterMap fun text =>
      if text = [] then none else some (some text)) ⟨[], (List.append_nil _).symm, rfl⟩ ?_) ?_
      fun _ _ _ => trivial
  · rintro done x rest acc t - ⟨messages, hqueue, htexts⟩
    refine ends_mono (replayEntry_ends cfg plan delete acc x t) ?_ fun _ _ _ => trivial
    rintro _ t' (⟨hempty, hsame⟩ | ⟨hne, i, hnew⟩)
    · refine ⟨messages, hsame.trans hqueue, ?_⟩
      rw [htexts, List.map_append, List.map_append, List.filterMap_append]
      simp [hempty]
    · refine ⟨messages ++ [⟨i, some x.1.article⟩], ?_, ?_⟩
      · rw [hnew, hqueue, List.append_assoc]
      · rw [List.map_append, htexts, List.map_append, List.map_append, List.filterMap_append]
        simp [hne]
  · rintro _ t ⟨messages, hqueue, htexts⟩
    rw [List.zipIdx_map_fst] at htexts
    exact ⟨messages, hqueue, htexts⟩

/-! ## The round trip -/

/-- Among the messages the round added is one with the text of the entry, and
phase 1 of `process_batch` decodes it to the article. -/
def Replayed (cfg : Config) (s t : State F) (entry : DlqEntry F) (article : Article F) : Prop :=
  ∃ m ∈ t.queue.drop s.queue.length, m.article = some entry.article ∧
    parse cfg [m] = .ok [(m.id, .obj article)]

theorem parse_single {cfg : Config} {m : Message} {text : Str} {v : Value F}
    (hm : m.article = some text) (hne : text ≠ []) :
    parse cfg [m] = .ok [(m.id, v)] ↔ loads cfg.nesting text = .ok v := by
  constructor
  · intro h
    have hparsed := parse_ok h
    rw [List.filterMap_cons, List.filterMap_nil] at hparsed
    cases hp : payload (F := F) cfg m with
    | none =>
      rw [hp] at hparsed
      cases hparsed
    | some v' =>
      rw [hp] at hparsed
      obtain rfl : v = v' := by simpa using hparsed
      unfold payload at hp
      rw [hm] at hp
      cases text with
      | nil => exact (hne rfl).elim
      | cons c text =>
        simp only at hp
        cases hl : loads (F := F) cfg.nesting (c :: text) with
        | error e =>
          rw [hl] at hp
          cases hp
        | ok v' =>
          rw [hl] at hp
          cases hp
          rfl
  · intro h
    cases text with
    | nil => exact (hne rfl).elim
    | cons c text =>
      simp [parse, hm, h, bind, Except.bind]

/-- An article decoded from a message, parked and picked by a replay, comes back
exactly when its text has at most 10000 characters. -/
theorem replay_roundtrip_iff (cfg : Config) (tk : Toolkit F) (plan : ReplaySite → Outcome)
    (raw : Str) (article : Article F) (hraw : loads cfg.nesting raw = .ok (.obj article))
    (entryId : Nat) (i : MsgId) (reason : Str) (detail : Value F) (limit : Nat) (delete : Bool)
    (s t : State F) (counts : Nat × Nat)
    (hpicked : dlqEntry tk entryId i article reason detail ∈ oldestEntries limit s)
    (hround : Returns (replayRound cfg plan limit delete false) s counts t) :
    Replayed cfg s t (dlqEntry tk entryId i article reason detail) article ↔
      (dumps (.obj article)).length ≤ 10000 := by
  have hfits := loads_fits hraw
  have htext : (dlqEntry tk entryId i article reason detail).article =
      (dumps (.obj article)).take 10000 := rfl
  have hne : (dumps (.obj article)).take 10000 ≠ [] := by
    rw [dumps]
    exact List.cons_ne_nil _ _
  constructor
  · rintro ⟨m, -, hm, hparse⟩
    rw [htext] at hm
    by_contra hlong
    exact loads_take_ne hfits (by omega) ((parse_single hm hne).mp hparse)
  · intro hshort
    obtain ⟨messages, hqueue, htexts⟩ := (replayRound_ends cfg plan limit delete s).of_returns hround
    have hmem : some ((dumps (.obj article)).take 10000) ∈ messages.map Message.article := by
      rw [htexts, List.mem_filterMap]
      refine ⟨_, List.mem_map_of_mem hpicked, ?_⟩
      rw [htext, if_neg hne]
    obtain ⟨m, hm, harticle⟩ := List.mem_map.mp hmem
    refine ⟨m, ?_, harticle, ?_⟩
    · rw [hqueue, List.drop_left]
      exact hm
    · rw [parse_single harticle hne, List.take_of_length_le hshort]
      exact loads_dumps hfits

/-! ## An article that comes back, and one that does not -/

/-- A parked article with a URL and a title of `x`s. -/
def titled (n : Nat) : Article TextFloat :=
  [(lit "url", .str (lit "https://dev.to/a/1")), (lit "title", .str (List.replicate n 120))]

def titledEntry (n : Nat) : DlqEntry TextFloat :=
  dlqEntry (.ofTables [] [] []) 0 0 (titled n) (lit "extract_fail") (urlOf (titled n))

/-- The dead-letter stream holds that article. -/
def parkedState (n : Nat) : State TextFloat := { State.initial TextFloat with dlq := [titledEntry n] }

theorem fits_titled (n : Nat) : Fits 1000 (.obj (titled n)) := by
  refine ⟨?_, trivial, trivial, trivial⟩
  show [lit "url", lit "title"].Nodup
  decide

omit [FloatText F] in
theorem encoded_prefix {p q : Str} {k m : Nat} (hk : k = p.length + m) :
    (p ++ q).take k = p ++ q.take m := by
  rw [hk, List.take_length_add_append]

/-- A round over a single entry that can be read returns. -/
theorem replayRound_single {cfg : Config} {e : DlqEntry F} {s : State F} {info url : Value F}
    (hdlq : s.dlq = [e]) (hne : e.article ≠ []) (hinfo : entryInfo cfg e = .ok info)
    (hurl : entryUrl e info = .ok url) :
    Returns (replayRound cfg (fun _ => .returns) 0 true false) s (1, 0)
      ((s.publish (some e.article)).xdel e.entryId) := by
  have hentries : oldestEntries 0 s = [e] := by rw [oldestEntries, if_pos rfl, hdlq]
  have hturn : replayEntry cfg (fun _ => .returns) true false (0, 0) (e, 0) s =
      (.ok (1, 0), (s.publish (some e.article)).xdel e.entryId) := by
    rw [replayEntry, if_neg hne, hinfo]
    change (Prog.lift (entryUrl e info) >>= _) s = _
    rw [hurl]
    rfl
  have hloop : ([(e, 0)].foldlM (replayEntry cfg (fun _ => .returns) true false) (0, 0)) s =
      (.ok (1, 0), (s.publish (some e.article)).xdel e.entryId) := by
    rw [List.foldlM_cons]
    change Prog.bind _ _ s = _
    simp only [Prog.bind, hturn]
    rfl
  unfold Returns replayRound
  change Prog.bind _ _ s = _
  simp only [Prog.bind, query, call, hentries]
  exact hloop

theorem replay_roundtrip_iff_short :
    ∃ t, Replayed .standard (parkedState 3) t (titledEntry 3) (titled 3) ↔
      (dumps (.obj (titled 3))).length ≤ 10000 := by
  have hinfo : entryInfo .standard (titledEntry 3) = .ok (.obj (titled 3)) := by decide +kernel
  have hround := replayRound_single (s := parkedState 3) rfl (by decide +kernel) hinfo
    (show entryUrl (titledEntry 3) (.obj (titled 3)) = .ok (urlOf (titled 3)) from rfl)
  exact ⟨_, replay_roundtrip_iff .standard (.ofTables [] [] []) (fun _ => .returns)
    (dumps (.obj (titled 3))) (titled 3) (loads_dumps (fits_titled 3)) 0 0 (lit "extract_fail")
    (urlOf (titled 3)) 0 true (parkedState 3) _ _ List.mem_cons_self hround⟩

theorem scanPieces_unclosed (m : Nat) : scanPieces (List.replicate m 120) = none := by
  induction m with
  | zero => rfl
  | succ m ih =>
    rw [List.replicate_succ, scanPieces_raw (by decide) (by decide) (by decide), ih]
    rfl

theorem flatMap_escapeChar_replicate (m : Nat) :
    (List.replicate m 120).flatMap escapeChar = List.replicate m 120 := by
  induction m with
  | zero => rfl
  | succ m ih =>
    rw [List.replicate_succ, List.flatMap_cons, ih]
    rfl

/-- The text of such an article up to a character of its title. -/
def cutText (m : Nat) : Str :=
  123 :: (dumpStr (lit "url") ++ 58 :: 32 :: (dumpStr (lit "https://dev.to/a/1") ++
    44 :: 32 :: (dumpStr (lit "title") ++ 58 :: 32 :: 34 :: List.replicate m 120)))

theorem take_dumps_titled {n m : Nat} (hm : m ≤ n) :
    (dumps (.obj (titled n))).take (40 + m) = cutText m := by
  have htext : dumps (.obj (titled n)) =
      lit "\x7b\"url\": \"https://dev.to/a/1\", \"title\": \"" ++
        (List.replicate n 120 ++ lit "\"\x7d") := by
    simp only [titled, dumps, dumpFields, dumpStr, flatMap_escapeChar_replicate]
    simp [escapeChar, lit]
  have hlen : 40 + m = (lit "\x7b\"url\": \"https://dev.to/a/1\", \"title\": \"").length + m := rfl
  rw [htext, encoded_prefix hlen, List.take_append_of_le_length (by simpa using hm),
    List.take_replicate, Nat.min_eq_left hm]
  simp [cutText, dumpStr, escapeChar, lit]

/-- The cut text is no JSON: its last string is not closed. -/
theorem loads_cutText (m : Nat) :
    loads (F := TextFloat) 1000 (cutText m) = .error .decode := by
  have hstring : scanString (List.replicate m 120) = none := by
    rw [scanString, scanPieces_unclosed]
    rfl
  have hvalue (n : Nat) : value (F := TextFloat) (n + 4) 1000 (cutText m) = .error .decode := by
    have htitle : members (F := TextFloat) (n + 2) 999 (dumpStr (lit "title") ++
        58 :: 32 :: 34 :: List.replicate m 120) = .error .decode := by
      rw [dumpStr_append]
      exact members_error (scanString_dumpStr _ _) rfl (value_str_error hstring)
    have hurl (r : Str) : value (F := TextFloat) (n + 2) 999 (dumpStr (lit "https://dev.to/a/1") ++
        r) = .ok (.str (lit "https://dev.to/a/1"), r) := by
      rw [dumpStr_append]
      exact value_str (scanString_dumpStr _ _)
    have hfields : members (F := TextFloat) (n + 3) 999 (dumpStr (lit "url") ++ 58 :: 32 ::
        (dumpStr (lit "https://dev.to/a/1") ++ 44 :: 32 :: (dumpStr (lit "title") ++
          58 :: 32 :: 34 :: List.replicate m 120))) = .error .decode := by
      rw [dumpStr_append]
      exact members_cons_error (scanString_dumpStr _ _) rfl (hurl _) rfl htitle
    refine value_obj_error ?_ hfields
    rw [dumpStr_append]
    exact fun h => absurd (Option.some.inj h) (by decide)
  have hfuel : 2 * (cutText m).length + 2 = 2 * (cutText m).length - 2 + 4 := by
    have : 0 < (cutText m).length := Nat.succ_pos _
    omega
  have hhead : (cutText m).head? ≠ some 0xFEFF :=
    fun h => absurd (Option.some.inj h) (by decide)
  have hskip : skipWs (cutText m) = cutText m := rfl
  rw [loads, if_neg hhead, hskip, hfuel, hvalue]

/-- The title is longer than the cut: the round publishes the cut text and
removes the entry, and the processor skips the message. -/
theorem replay_loses_article :
    ¬ ∀ (raw : Str) (article : Article TextFloat),
      loads 1000 raw = .ok (.obj article) →
      ∀ (entryId : Nat) (i : MsgId) (reason : Str) (detail : Value TextFloat) (limit : Nat)
        (delete : Bool) (s t : State TextFloat) (counts : Nat × Nat),
        dlqEntry (.ofTables [] [] []) entryId i article reason detail ∈ oldestEntries limit s →
        Returns (replayRound .standard (fun _ => .returns) limit delete false) s counts t →
        Replayed .standard s t (dlqEntry (.ofTables [] [] []) entryId i article reason detail)
          article := by
  intro hroundtrip
  have hcut : (titledEntry 10000).article = cutText 9960 :=
    take_dumps_titled (n := 10000) (m := 9960) (by omega)
  have hloads : loads (F := TextFloat) 1000 (titledEntry 10000).article = .error .decode := by
    rw [hcut, loads_cutText]
  have hinfo : entryInfo .standard (titledEntry 10000) = .ok (.obj []) := by
    rw [entryInfo, show Config.standard.nesting = 1000 from rfl, hloads]
  have hne : (titledEntry 10000).article ≠ [] := by
    rw [hcut]
    exact List.cons_ne_nil _ _
  have hround := replayRound_single (s := parkedState 10000) rfl hne hinfo
    (show entryUrl (titledEntry 10000) (.obj []) = .ok (urlOf (titled 10000)) from rfl)
  obtain ⟨m, -, hm, hparse⟩ := hroundtrip (dumps (.obj (titled 10000))) (titled 10000)
    (loads_dumps (fits_titled 10000)) 0 0 (lit "extract_fail") (urlOf (titled 10000)) 0 true
    (parkedState 10000) _ _ List.mem_cons_self hround
  have hdecoded := (parse_single hm hne).mp hparse
  rw [show Config.standard.nesting = 1000 from rfl] at hdecoded
  exact nomatch hloads.symm.trans hdecoded

end WebSpider.Processor
