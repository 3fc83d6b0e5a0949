import WebSpider.Processor.System

/-!
# Acknowledged failures and the dead-letter stream

The script of `push_dlq` adds a message and enters it in the guard set in one
step, so no message is added twice. A failed message need not be added at all:
`push_dlq` swallows its own failure and the message is acknowledged with its
batch (`unparked_message_is_acked`). In a run where the script of every failed
message is executed, or the acknowledgement is not, every acknowledged failure
was added exactly once (`extractFail_parked`).
-/

namespace WebSpider.Processor

open Text Json Effects

variable {F : Type} [FloatText F] [DecidableEq F]

/-- The condition on a step: the script of every message whose extraction fails
is executed, unless it was before, or the acknowledgement is not executed. -/
def ParksFailures (cfg : Config) (s : State F) (e : Event) : Prop :=
  ∀ env messages, batchOf cfg s e = some (env, messages) →
    ∀ m ∈ messages, ExtractFails F cfg env m →
      (env.plan (.dlqPush m.id)).executed = true ∨ m.id ∈ s.dlqSeen ∨
        (env.plan .xack).executed = false

/-- Nothing was added twice, and what was acknowledged as failed was added. -/
structure Accounted (s : State F) : Prop where
  once : ParkedOnce s
  acked : ∀ i, (i, Verdict.extractFail) ∈ s.acked → i ∈ s.dlqSeen

omit [FloatText F] [DecidableEq F] in
theorem ParkedOnce.congr {s t : State F} (h : ParkedOnce s) (hseen : t.dlqSeen = s.dlqSeen)
    (hparked : t.parked = s.parked) : ParkedOnce t := by
  intro i
  rw [hseen, hparked]
  exact h i

omit [FloatText F] [DecidableEq F] in
theorem Accounted.grow {s t : State F} (h : Accounted s) (honce : ParkedOnce t)
    (hacked : t.acked = s.acked) (hseen : ∀ i ∈ s.dlqSeen, i ∈ t.dlqSeen) : Accounted t :=
  ⟨honce, fun i hi => hseen i (h.acked i (hacked ▸ hi))⟩

theorem accounted_batch {cfg : Config} {tk : Toolkit F} {env : Surroundings}
    {messages : List Message} {s : State F} (hne : messages ≠ []) (hs : Accounted s)
    (hparks : ∀ m ∈ messages, ExtractFails F cfg env m →
      (env.plan (.dlqPush m.id)).executed = true ∨ m.id ∈ s.dlqSeen ∨
        (env.plan .xack).executed = false) :
    Accounted (after (processBatch cfg tk env messages) s) := by
  let J : Tally F → List (Row F) → State F → Prop := fun tally _ t => Accounted t ∧
    ∀ o ∈ tally.outcomes, o.2 = .extractFail →
      o.1 ∈ t.dlqSeen ∨ (env.plan .xack).executed = false
  have hextracted (u : State F) (h : ExtractFrame s u) : Accounted u :=
    hs.grow (h.parkedOnce hs.once) h.corpus.acked h.dlqSeen
  have hjudged (u t : State F) (hu : Accounted u) (hcorpus : SameCorpus u t) (hdlq : SameDlq u t) :
      Accounted t :=
    hu.grow (hu.once.congr hdlq.dlqSeen hdlq.parked) hcorpus.acked fun i hi => hdlq.dlqSeen ▸ hi
  have hends : Ends (processBatch cfg tk env messages) s (fun _ t => Accounted t)
      (fun _ t => Accounted t) := by
    refine processBatch_ends (J := J) hne ?_ ?_ ?_ ?_ ?_ ?_ ?_ ?_ ?_
    · exact fun t hframe _ => hextracted t hframe
    · intro t extraction u x hraises
      obtain ⟨hcorpus, hdlq, -⟩ := hraises.frame
      exact hjudged u t (hextracted u hraises.extracts.toExtractFrame) hcorpus hdlq
    · intro tally rows t extraction u hjudges _
      have hloop := hjudges.loop
      exact hjudged u t (hextracted u hjudges.extracts.toExtractFrame) hloop.corpus hloop.dlq
    · intro tally rows t extraction u hjudges
      have hloop := hjudges.loop
      have ht := hjudged u t (hextracted u hjudges.extracts.toExtractFrame) hloop.corpus hloop.dlq
      refine ⟨⟨ht.once, ht.acked⟩, fun o ho hfail => ?_⟩
      have hold : o ∈ extraction.1.outcomes := by
        rcases hloop.outcomes o ho with ho | ⟨_, ho⟩ | ho | ⟨_, ho⟩ | ⟨_, ho, -⟩
        · exact ho
        all_goals
          rw [ho] at hfail
          cases hfail
      rcases hjudges.extracts.outcomes o hold with hgone | ⟨-, ⟨m, hm, hid, hfails⟩, hexec⟩
      · rw [hgone] at hfail
        cases hfail
      · have hseen : t.dlqSeen = u.dlqSeen := hloop.dlq.dlqSeen
        rcases hparks m hm hfails with hdone | hbefore | hnot
        · exact Or.inl (hseen ▸ hexec (hid ▸ hdone))
        · exact Or.inl (hseen ▸ hjudges.extracts.dlqSeen _ (hid ▸ hbefore))
        · exact Or.inr hnot
    · exact fun tally rows c n t ht => ⟨⟨ht.1.once, ht.1.acked⟩, ht.2⟩
    · exact fun tally rows row _ => ⟨fun key _ t ht => ⟨⟨ht.1.once, ht.1.acked⟩, ht.2⟩,
        fun _ key t ht => ⟨⟨ht.1.once, ht.1.acked⟩, ht.2⟩⟩
    · exact fun tally rows t ht _ _ => ht.1
    · exact fun tally rows t ht _ => ht.1
    · intro tally rows t ht _
      have hacked (hexec : (env.plan .xack).executed = true) :
          Accounted (t.xack (messages.map Message.id) tally.outcomes) := by
        refine ⟨ht.1.once, fun i hi => ?_⟩
        rcases List.mem_append.mp hi with hi | hi
        · exact ht.1.acked i hi
        · rcases ht.2 _ hi rfl with hseen | hnot
          · exact hseen
          · rw [hexec] at hnot
            cases hnot
      exact ⟨hacked, fun _ => ⟨ht.1, hacked⟩⟩
  exact hends.after (fun _ _ h => h) fun _ _ h => h

theorem accounted_step {cfg : Config} {tk : Toolkit F} {s t : State F} {e : Event}
    (hs : Accounted s) (hparks : ParksFailures cfg s e) (hstep : step cfg tk s e = some t) :
    Accounted t := by
  cases stepped_of_step hstep with
  | publish article => exact ⟨hs.once, hs.acked⟩
  | deliver n => exact ⟨hs.once, hs.acked⟩
  | batch env messages u hbatch hne hbefore _ =>
    have hcond := hparks env messages hbatch
    rcases hbefore with rfl | ⟨n, rfl⟩
    · exact accounted_batch hne hs hcond
    · exact accounted_batch hne ⟨hs.once, hs.acked⟩ hcond
  | warm env =>
    have hends := warmFromDb_ends cfg env (I := fun t : State F => Accounted t) hs
      (fun row _ => ⟨fun key _ t ht => ⟨ht.once, ht.acked⟩, fun _ key t ht => ⟨ht.once, ht.acked⟩⟩)
      fun t ht => ⟨ht.once, ht.acked⟩
    exact hends.after (fun _ _ h => h) fun _ _ h => h
  | restart => exact ⟨hs.once, hs.acked⟩
  | expire key => exact ⟨hs.once, hs.acked⟩

omit [FloatText F] [DecidableEq F] in
theorem accounted_initial : Accounted (State.initial F) :=
  ⟨fun _ => rfl, fun _ hi => nomatch hi⟩

/-- In a run that parks its failures, every message acknowledged as failed is in
the guard set and was added to the dead-letter stream exactly once. -/
theorem extractFail_parked (cfg : Config) (tk : Toolkit F) (es : List Event) (t : State F)
    (hparks : Along (step cfg tk) (ParksFailures cfg) (State.initial F) es)
    (hrun : run (step cfg tk) (State.initial F) es = some t) (i : MsgId)
    (hacked : (i, Verdict.extractFail) ∈ t.acked) :
    i ∈ t.dlqSeen ∧ t.parked.count i = 1 := by
  have ht := run_invariant (fun _ _ _ => accounted_step) accounted_initial hparks hrun
  refine ⟨ht.acked i hacked, ?_⟩
  rw [ht.once i, if_pos (ht.acked i hacked)]

/-! ## A run that parks its failure, and one that does not -/

/-- The payload of an article whose content has to be fetched. -/
def linkArticle (url : String) : Str :=
  dumps (F := TextFloat) (.obj [(lit "url", .str (lit url)), (lit "title", .str (lit "A"))])

/-- One message whose page is not found, in the given surroundings. -/
def unreachableRun (env : Surroundings) : List Event :=
  [.publish (some (linkArticle "https://dev.to/a/1")), .consume 1 env]

theorem extractFail_parked_unreachable :
    ∃ t, run (step .standard (.ofTables [] [] [])) (State.initial TextFloat)
        (unreachableRun (.calm (lit "en"))) = some t ∧ 0 ∈ t.dlqSeen ∧ t.parked.count 0 = 1 := by
  have hend : (run (step .standard (.ofTables [] [] [])) (State.initial TextFloat)
      (unreachableRun (.calm (lit "en")))).map (fun t => t.acked) = some [(0, .extractFail)] := by
    decide +kernel
  obtain ⟨t, hrun, hacked⟩ := Option.map_eq_some_iff.mp hend
  refine ⟨t, hrun, extractFail_parked .standard (.ofTables [] [] []) _ t ?_ hrun 0
    (hacked ▸ List.mem_cons_self)⟩
  refine ⟨nofun, fun s _ => ⟨fun env messages hbatch m _ _ => Or.inl ?_, fun _ _ => trivial⟩⟩
  rw [(batchOf_consume hbatch).1]
  rfl

/-- The script call fails and everything else succeeds: the message is
acknowledged as failed and is not on the dead-letter stream. -/
theorem unparked_message_is_acked :
    ¬ ∀ (es : List Event) (t : State TextFloat),
      run (step .standard (.ofTables [] [] [])) (State.initial TextFloat) es = some t →
      ∀ i, (i, Verdict.extractFail) ∈ t.acked → i ∈ t.dlqSeen ∧ t.parked.count i = 1 := by
  intro hparks
  have hend : (run (step .standard (.ofTables [] [] [])) (State.initial TextFloat)
      (unreachableRun { Surroundings.calm (lit "en") with
        plan := fun site => if site = .dlqPush 0 then .lost else .returns })).map
      (fun t => (t.acked, t.dlqSeen)) = some ([(0, .extractFail)], []) := by
    decide +kernel
  obtain ⟨t, hrun, hview⟩ := Option.map_eq_some_iff.mp hend
  obtain ⟨hacked, hseen⟩ := Prod.mk.inj hview
  have hmem := (hparks _ t hrun 0 (hacked ▸ List.mem_cons_self)).1
  rw [hseen] at hmem
  cases hmem

end WebSpider.Processor
