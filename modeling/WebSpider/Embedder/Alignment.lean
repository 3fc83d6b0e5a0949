import WebSpider.Embedder.Run
import Mathlib.Data.List.Perm.Basic

/-!
# Vectors and their texts

With an API that answers each batch by an embedding for every text, or refuses it, the
archives that a run writes hold the vectors of the chunks whose ids they list
(`archives_aligned`): the old archive is extended by chunks of the file that it did not have,
the others are listed as failed, and a run that starts from one of them asks for the rest.
-/

namespace WebSpider.Embedder

open Text Json Effects

variable {F R : Type}

/-! ## The assumptions -/

/-- A batch is answered by embeddings of its texts or given up after the last attempt. -/
structure Faithful (cfg : Config) (lib : Library F) (Embeds : Str → List (Value F) → Prop)
    (Vector : Vec F R → Prop) (api : Api F) : Prop where
  bodies : ∀ offset texts attempt retryAfter body,
    api offset texts attempt = .response 200 retryAfter body →
    ∃ vectors, List.Forall₂ Embeds texts vectors ∧
      (∀ v ∈ vectors, Vector (.json (.arr v))) ∧ Holds (vectors.map .arr) body
  decided : ∀ offset texts x,
    embedBatchRetry lib cfg.maxAttempts (api offset texts) = .error x → x = .runtimeError

/-- The vectors are stored and loaded again: `toRow` makes the row of a vector. -/
structure Stores (np : Numpy F R) (Vector : Vec F R → Prop) (toRow : Vec F R → R) : Prop where
  row : ∀ r, toRow (.row r) = r
  stored : ∀ v, Vector v → Vector (.row (toRow v))
  matrix : ∀ vs, (∀ v ∈ vs, Vector v) → ∃ dim, np.asarray vs = .ok ⟨vs.map toRow, dim⟩ ∧
    (vs ≠ [] → dim.isSome = true)

/-- The archive lists different ids, each with its vector. -/
structure Sound (Vector : Vec F R → Prop) (w : Archive R) : Prop where
  distinct : w.ids.Nodup
  length : w.vectors.length = w.ids.length
  vectors : ∀ r ∈ w.vectors, Vector (.row r)

/-- The archive extends the old one by chunks of the file with their embeddings. -/
structure Extends (Embeds : Str → List (Value F) → Prop) (toRow : Vec F R → R)
    (old : Archive R) (items : List Item) (w : Archive R) : Prop where
  distinct : w.ids.Nodup
  added : ∃ new : List (Item × List (Value F)),
    (new.map Prod.fst).Sublist (todoOf old items) ∧
    w.ids = old.ids ++ new.map (fun x => x.1.chunkId) ∧
    w.vectors = old.vectors ++ new.map (fun x => toRow (.json (.arr x.2))) ∧
    ∀ x ∈ new, Embeds x.1.text x.2

/-! ## One answer -/

section Answers

variable {cfg : Config} {lib : Library F} {api : Api F} {Embeds : Str → List (Value F) → Prop}
  {Vector : Vec F R → Prop} {b : Nat × List Str}

/-- A batch that is granted gets the embeddings of its texts. -/
theorem Faithful.embeddings (h : Faithful cfg lib Embeds Vector api) {vs : List (Value F)}
    (hreply : replyTo cfg lib api b = .ok vs) : ∃ vectors, vs = vectors.map .arr ∧
      List.Forall₂ Embeds b.2 vectors ∧ ∀ v ∈ vectors, Vector (.json (.arr v)) := by
  rw [replyTo, answer] at hreply
  split at hreply
  · rename_i k reply hdecision
    obtain ⟨-, hk, -⟩ := firstDecision_eq_some.mp hdecision
    have hrefusal (pause : Except Exn Unit) (hpause : refusal pause = some reply) : False := by
      subst hreply
      cases pause with
      | ok _ => cases hpause
      | error e => cases hpause
    rw [decision] at hk
    split at hk
    · exact (hrefusal _ hk).elim
    · rename_i status retryAfter body hpost
      split at hk
      · rename_i hstatus
        subst hstatus
        obtain ⟨vectors, hembeds, hvectors, hholds⟩ := h.bodies _ _ _ _ _ hpost
        obtain rfl := Option.some.inj hk
        rw [embeddingsOf_holds lib hholds] at hreply
        cases hreply
        exact ⟨vectors, rfl, hembeds, hvectors⟩
      · exact (hrefusal _ hk).elim
  · cases hreply

theorem Faithful.given_up (h : Faithful cfg lib Embeds Vector api) {x : Exn}
    (hreply : replyTo cfg lib api b = .error x) : x = .runtimeError := by
  rw [replyTo, ← embedBatchRetry_eq] at hreply
  exact h.decided _ _ x hreply

/-- The vector of an embedding. -/
def arrOf : Value F → List (Value F)
  | .arr v => v
  | _ => []

/-- A chunk of the file with an embedding of its text. -/
structure Aligned (Embeds : Str → List (Value F) → Prop) (Vector : Vec F R → Prop)
    (x : Item × Value F) : Prop where
  arr : x.2 = .arr (arrOf x.2)
  embeds : Embeds x.1.text (arrOf x.2)
  vector : Vector (.json x.2)

omit b in
theorem aligned_zip {is : List Item} {vectors : List (List (Value F))}
    (hembeds : List.Forall₂ Embeds (is.map Item.text) vectors)
    (hvectors : ∀ v ∈ vectors, Vector (.json (.arr v))) {x : Item × Value F}
    (hx : x ∈ is.zip (vectors.map .arr)) : Aligned Embeds Vector x := by
  induction is generalizing vectors with
  | nil => cases hx
  | cons item is ih =>
    cases vectors with
    | nil => cases hx
    | cons v vectors =>
      obtain ⟨hv, hrest⟩ := List.forall₂_cons.mp hembeds
      rcases List.mem_cons.mp hx with rfl | hx
      · exact ⟨rfl, hv, hvectors v List.mem_cons_self⟩
      · exact ih hrest (fun w hw => hvectors w (List.mem_cons_of_mem _ hw)) hx

/-- The chunks of a batch get a vector each, or all of them are skipped. -/
theorem Faithful.batch (h : Faithful cfg lib Embeds Vector api) {todo : List Item}
    (htexts : b.2 = (window todo b.1 b.2.length).map Item.text) :
    (gain todo b.1 (replyTo cfg lib api b)).map Prod.fst ++
        loss todo b.1 b.2.length (replyTo cfg lib api b) = window todo b.1 b.2.length ∧
      ∀ x ∈ gain todo b.1 (replyTo cfg lib api b), Aligned Embeds Vector x := by
  cases hreply : replyTo cfg lib api b with
  | error x => exact ⟨rfl, nofun⟩
  | ok vs =>
    obtain ⟨vectors, rfl, hembeds, hvectors⟩ := h.embeddings hreply
    have hlength : (vectors.map Value.arr).length = b.2.length := by
      rw [List.length_map, hembeds.length_eq]
    have hwindow : (window todo b.1 b.2.length).length = b.2.length := by
      have hlen := congrArg List.length htexts
      rw [List.length_map] at hlen
      exact hlen.symm
    rw [gain, hlength]
    refine ⟨?_, fun x hx => ?_⟩
    · rw [List.map_fst_zip (by omega)]
      exact List.append_nil _
    · exact aligned_zip (htexts ▸ hembeds) hvectors hx

end Answers

/-! ## All answers -/

section Run

variable {cfg : Config} {lib : Library F} {np : Numpy F R} {api : Api F}
  {Embeds : Str → List (Value F) → Prop} {Vector : Vec F R → Prop} {toRow : Vec F R → R}
  {items todo : List Item} {old : Archive R} {d t : Disk R}

theorem flatMap_sublist {α β : Type} {xs : List α} {f g : α → List β}
    (h : ∀ x ∈ xs, (f x).Sublist (g x)) : (xs.flatMap f).Sublist (xs.flatMap g) := by
  induction xs with
  | nil => exact .slnil
  | cons x xs ih =>
    rw [List.flatMap_cons, List.flatMap_cons]
    exact (h x List.mem_cons_self).append (ih fun y hy => h y (List.mem_cons_of_mem _ hy))

theorem Faithful.aligned (h : Faithful cfg lib Embeds Vector api) {x : Item × Value F}
    (hx : x ∈ granted cfg lib api todo (batchTexts todo cfg.batchSize)) :
    Aligned Embeds Vector x := by
  obtain ⟨b, hb, hx⟩ := List.mem_flatMap.mp hx
  exact (h.batch (batch_of_mem cfg.batchSize_pos hb).1).2 x hx

/-- The chunks with a vector, and all chunks, in the order of the file. -/
theorem Faithful.order (h : Faithful cfg lib Embeds Vector api) :
    ((granted cfg lib api todo (batchTexts todo cfg.batchSize)).map Prod.fst).Sublist todo := by
  have hsub : ((granted cfg lib api todo (batchTexts todo cfg.batchSize)).map Prod.fst).Sublist
      ((batchTexts todo cfg.batchSize).flatMap fun b => window todo b.1 b.2.length) := by
    rw [granted, List.map_flatMap]
    apply flatMap_sublist
    intro b hb
    rw [← (h.batch (batch_of_mem cfg.batchSize_pos hb).1).1]
    exact List.sublist_append_left _ _
  rwa [flatMap_batches todo cfg.batchSize_pos] at hsub

/-- The chunks with a vector and those of the skipped batches are those of the file. -/
theorem Faithful.partition (h : Faithful cfg lib Embeds Vector api) :
    ((granted cfg lib api todo (batchTexts todo cfg.batchSize)).map Prod.fst ++
      refused cfg lib api todo (batchTexts todo cfg.batchSize)).Perm todo := by
  rw [granted, refused, List.map_flatMap]
  refine (List.flatMap_append_perm _ _ _).trans (.of_eq ?_)
  rw [List.flatMap_congr fun b hb => (h.batch (batch_of_mem cfg.batchSize_pos hb).1).1,
    flatMap_batches todo cfg.batchSize_pos]

/-- The vectors of the archive and of the answers are vectors. -/
theorem vector_vecsOf (hold : Sound Vector old) {gs : List (Item × Value F)}
    (hgs : ∀ x ∈ gs, Aligned Embeds Vector x) : ∀ v ∈ vecsOf old gs, Vector v := by
  intro v hv
  rcases List.mem_append.mp hv with hv | hv
  · obtain ⟨r, hr, rfl⟩ := List.mem_map.mp hv
    exact hold.vectors r hr
  · obtain ⟨x, hx, rfl⟩ := List.mem_map.mp hv
    exact (hgs x hx).vector

/-- The archive written for some of the chunks. -/
theorem extends_of_matrix (hnp : Stores np Vector toRow) (hitems : (items.map Item.chunkId).Nodup)
    (hold : Sound Vector old) {gs : List (Item × Value F)}
    (hgs : ∀ x ∈ gs, Aligned Embeds Vector x) (horder : (gs.map Prod.fst).Sublist (todoOf old items))
    {m : Matrix R} (hm : np.asarray (vecsOf old gs) = .ok m) :
    Extends Embeds toRow old items ⟨idsOf old gs, m.rows⟩ := by
  obtain ⟨dim, hrows, -⟩ := hnp.matrix _ (vector_vecsOf hold hgs)
  obtain rfl := Except.ok.inj (hrows.symm.trans hm)
  have hids : gs.map (fun x => x.1.chunkId) = (gs.map Prod.fst).map Item.chunkId := by
    rw [List.map_map]
    rfl
  refine ⟨?_, gs.map fun x => (x.1, arrOf x.2), ?_, ?_, ?_, ?_⟩
  · have hsub : ((gs.map Prod.fst).map Item.chunkId).Sublist (items.map Item.chunkId) :=
      (horder.trans List.filter_sublist).map _
    apply hold.distinct.append (hids ▸ hitems.sublist hsub)
    intro i hi hi'
    rw [hids] at hi'
    obtain ⟨item, hitem, rfl⟩ := List.mem_map.mp hi'
    exact of_decide_eq_true (List.mem_filter.mp (horder.subset hitem)).2 hi
  · rw [List.map_map]
    exact horder
  · rw [List.map_map]
    rfl
  · dsimp only
    rw [vecsOf, List.map_append, List.map_map, List.map_map, List.map_map]
    congr 1
    · exact (List.map_congr_left fun r _ => hnp.row r).trans (List.map_id _)
    · exact List.map_congr_left fun x hx => congrArg (fun v => toRow (.json v)) (hgs x hx).arr
  · intro x hx
    obtain ⟨y, hy, rfl⟩ := List.mem_map.mp hx
    exact (hgs y hy).embeds

/-- No answer makes the run raise. -/
theorem Faithful.not_stuck (h : Faithful cfg lib Embeds Vector api) (hnp : Stores np Vector toRow)
    (hold : Sound Vector old) :
    ¬ Stuck cfg lib np api todo old (batchTexts todo cfg.batchSize) := by
  intro hstuck
  cases hstuck with
  | raised b hb x hreply hx =>
    obtain rfl := h.given_up hreply
    cases hx
  | beyond b hb vs hreply hend =>
    obtain ⟨vectors, rfl, hembeds, -⟩ := h.embeddings hreply
    have hbatch := batch_of_mem cfg.batchSize_pos hb
    have hlen := congrArg List.length hbatch.1
    rw [List.length_map, window, List.length_take, List.length_drop] at hlen
    rw [List.length_map, ← hembeds.length_eq] at hend
    have hlt := hbatch.2
    omega
  | unsized x hx hnot =>
    have hx' := (h.aligned (List.mem_of_mem_head? hx)).arr
    exact hnot ⟨_, by rw [hx']; rfl⟩
  | unconverted before x hbefore hx =>
    obtain ⟨dim, hrows, -⟩ := hnp.matrix _ (vector_vecsOf hold fun y hy =>
      h.aligned (hbefore.subset hy))
    rw [hx] at hrows
    cases hrows

/-- So is the next archive. -/
theorem sound_of_matrix (hnp : Stores np Vector toRow) (hitems : (items.map Item.chunkId).Nodup)
    (hold : Sound Vector old) {gs : List (Item × Value F)}
    (hgs : ∀ x ∈ gs, Aligned Embeds Vector x) (horder : (gs.map Prod.fst).Sublist (todoOf old items))
    {m : Matrix R} (hm : np.asarray (vecsOf old gs) = .ok m) :
    Sound Vector ⟨idsOf old gs, m.rows⟩ := by
  have hvectors := vector_vecsOf hold hgs
  obtain ⟨dim, hrows, -⟩ := hnp.matrix _ hvectors
  obtain rfl := Except.ok.inj (hrows.symm.trans hm)
  refine ⟨(extends_of_matrix hnp hitems hold hgs horder hm).distinct, ?_, fun r hr => ?_⟩
  · simp only [vecsOf, idsOf, List.length_map, List.length_append, hold.length]
  · obtain ⟨v, hv, rfl⟩ := List.mem_map.mp hr
    exact hnp.stored v (hvectors v hv)

/-- A run has read all answers, and leaves the archive of all vectors. -/
theorem Faithful.collected (h : Faithful cfg lib Embeds Vector api)
    (hnp : Stores np Vector toRow) (hold : Sound Vector (loadExisting d)) (items : List Item) :
    ∃ e m u, Collected cfg lib np api items d e m u ∧
      (after (run cfg lib np api items) d).archive = some ⟨e.ids, m.rows⟩ ∧
      (after (run cfg lib np api items) d).asked = u.asked := by
  refine Ends.after (I := fun t => ∃ e m u, Collected cfg lib np api items d e m u ∧
    t.archive = some ⟨e.ids, m.rows⟩ ∧ t.asked = u.asked) (run_ends cfg lib np api items d) ?_ ?_
  · rintro - t ⟨e, m, u, dim, hcollected, -, rfl⟩
    exact ⟨e, m, u, hcollected, rfl, rfl⟩
  · rintro - t (hstuck | ⟨e, m, u, hcollected, -, rfl⟩)
    · exact (h.not_stuck hnp hold hstuck).elim
    · exact ⟨e, m, u, hcollected, rfl, rfl⟩

/-- There is a vector at the end: an old one, or one of a batch that is answered. -/
def HasVector (cfg : Config) (lib : Library F) (api : Api F) (items : List Item) (d : Disk R) :
    Prop :=
  (loadExisting d).ids ≠ [] ∨ ∃ b ∈ batchesOf cfg items d, ∃ vs,
    embedBatchRetry lib cfg.maxAttempts (api b.1 b.2) = .ok vs

theorem Faithful.vecs_ne (h : Faithful cfg lib Embeds Vector api)
    (hold : Sound Vector (loadExisting d)) (hvector : HasVector cfg lib api items d) :
    vecsOf (loadExisting d) (granted cfg lib api (todoOf (loadExisting d) items)
      (batchesOf cfg items d)) ≠ [] := by
  intro hnil
  obtain ⟨hrows, hgranted⟩ := List.append_eq_nil_iff.mp hnil
  rcases hvector with hids | ⟨b, hb, vs, hvs⟩
  · have hlength := hold.length
    rw [List.map_eq_nil_iff.mp hrows] at hlength
    exact hids (List.eq_nil_of_length_eq_zero hlength.symm)
  · rw [embedBatchRetry_eq] at hvs
    have hgain : gain (todoOf (loadExisting d) items) b.1 (replyTo cfg lib api b) = [] :=
      List.flatMap_eq_nil_iff.mp (List.map_eq_nil_iff.mp hgranted) b hb
    have htexts := (batch_of_mem cfg.batchSize_pos hb).1
    have hwindow := (h.batch htexts).1
    rw [hgain, replyTo, hvs] at hwindow
    rw [← hwindow] at htexts
    exact batch_ne cfg.batchSize_pos hb htexts

/-- Whatever run starts from the archive `w` asks for the texts it has no vector for, and
when all batches are answered it leaves an archive of all chunks. -/
def Resumes (cfg : Config) (lib : Library F) (np : Numpy F R)
    (Embeds : Str → List (Value F) → Prop) (Vector : Vec F R → Prop) (items : List Item)
    (w : Archive R) : Prop :=
  ∀ (d : Disk R) (api : Api F), d.archive = some w → Faithful cfg lib Embeds Vector api →
    (∃ requests, (after (run cfg lib np api items) d).asked = d.asked ++ requests ∧
      requests.flatten = (todoOf w items).map Item.text) ∧
    ((∀ offset texts, ∃ vs, embedBatchRetry lib cfg.maxAttempts (api offset texts) = .ok vs) →
      ∃ full, (after (run cfg lib np api items) d).archive = some full ∧
        ∀ item ∈ items, item.chunkId ∈ full.ids)

theorem resumes_of_sound (hnp : Stores np Vector toRow) {w : Archive R} (hw : Sound Vector w) :
    Resumes cfg lib np Embeds Vector items w := by
  intro d api hd hapi
  have hload : loadExisting d = w := by rw [loadExisting, hd]; rfl
  obtain ⟨e, m, u, hcollected, harchive, hasked⟩ := hapi.collected hnp (hload ▸ hw) items
  have hloop := hcollected.loop
  rw [hload] at hloop
  refine ⟨⟨_, hasked.trans hloop.asked, ?_⟩, fun hall => ⟨_, harchive, fun item hitem => ?_⟩⟩
  · rw [batchesOf, hload]
    exact texts_batches _ cfg.batchSize_pos
  · dsimp only
    rw [hloop.ids, idsOf, List.mem_append]
    by_cases hin : item.chunkId ∈ w.ids
    · exact .inl hin
    · right
      have htodo : item ∈ todoOf w items := List.mem_filter.mpr ⟨hitem, decide_eq_true hin⟩
      have hrefused : refused cfg lib api (todoOf w items)
          (batchTexts (todoOf w items) cfg.batchSize) = [] := by
        apply List.flatMap_eq_nil_iff.mpr
        intro b _
        obtain ⟨vs, hvs⟩ := hall b.1 b.2
        rw [embedBatchRetry_eq] at hvs
        rw [replyTo, hvs]
        rfl
      have hperm : ((granted cfg lib api (todoOf w items)
          (batchTexts (todoOf w items) cfg.batchSize)).map Prod.fst ++ refused cfg lib api
            (todoOf w items) (batchTexts (todoOf w items) cfg.batchSize)).Perm
          (todoOf w items) := hapi.partition
      rw [hrefused, List.append_nil] at hperm
      obtain ⟨x, hx, rfl⟩ := List.mem_map.mp (hperm.mem_iff.mpr htodo)
      rw [batchesOf, hload]
      exact List.mem_map_of_mem (f := fun x : Item × Value F => x.1.chunkId) hx

/-- Whatever batches it is written after, an archive extends the old one, and a run that starts
from it goes on. -/
theorem Faithful.saved (h : Faithful cfg lib Embeds Vector api) (hnp : Stores np Vector toRow)
    (hitems : (items.map Item.chunkId).Nodup) (hold : Sound Vector (loadExisting d))
    {before : List (Item × Value F)} (hbefore : before <+: granted cfg lib api
      (todoOf (loadExisting d) items) (batchesOf cfg items d)) {m : Matrix R}
    (hm : np.asarray (vecsOf (loadExisting d) before) = .ok m) :
    Extends Embeds toRow (loadExisting d) items ⟨idsOf (loadExisting d) before, m.rows⟩ ∧
      Resumes cfg lib np Embeds Vector items ⟨idsOf (loadExisting d) before, m.rows⟩ := by
  have haligned (x : Item × Value F) (hx : x ∈ before) : Aligned Embeds Vector x :=
    h.aligned (hbefore.subset hx)
  have horder : (before.map Prod.fst).Sublist (todoOf (loadExisting d) items) :=
    (hbefore.sublist.map Prod.fst).trans h.order
  exact ⟨extends_of_matrix hnp hitems hold haligned horder hm,
    resumes_of_sound hnp (sound_of_matrix hnp hitems hold haligned horder hm)⟩

end Run

/-- A run with a vector at the end returns. Each archive it writes extends the old one and
can be resumed from; the new ids of the last one and the failed ids are those that were
missing. -/
theorem archives_aligned (cfg : Config) (lib : Library F) (np : Numpy F R) (api : Api F)
    (Embeds : Str → List (Value F) → Prop) (Vector : Vec F R → Prop) (toRow : Vec F R → R)
    (items : List Item) (d : Disk R) (hnp : Stores np Vector toRow)
    (hapi : Faithful cfg lib Embeds Vector api) (hitems : (items.map Item.chunkId).Nodup)
    (hold : Sound Vector (loadExisting d)) (hvector : HasVector cfg lib api items d) :
    ∃ t ws last failed, Returns (run cfg lib np api items) d () t ∧
      t.written = d.written ++ ws ++ [last] ∧ t.archive = some last ∧
      t.failedFile = (if failed = [] then d.failedFile else some failed) ∧
      (∀ w ∈ ws ++ [last], Extends Embeds toRow (loadExisting d) items w ∧
        Resumes cfg lib np Embeds Vector items w) ∧
      ∃ new, last.ids = (loadExisting d).ids ++ new ∧
        (new ++ failed).Perm ((todoOf (loadExisting d) items).map Item.chunkId) := by
  obtain ⟨dim, hrows, hsome⟩ := hnp.matrix _ (vector_vecsOf hold fun x hx => hapi.aligned hx)
  obtain ⟨t, hrun, e, m, u, dim, hcollected, hdim, rfl⟩ :=
    run_returns (hapi.not_stuck hnp hold) hrows (hsome (hapi.vecs_ne hold hvector))
  have hloop := hcollected.loop
  obtain ⟨ws, hwritten, -, hws⟩ := hloop.written
  refine ⟨_, ws, ⟨e.ids, m.rows⟩, e.failed, hrun, ?_, rfl, ?_, fun w hw => ?_,
    (granted cfg lib api (todoOf (loadExisting d) items) (batchesOf cfg items d)).map
      fun x : Item × Value F => x.1.chunkId, hloop.ids, ?_⟩
  · exact congrArg (· ++ _) hwritten
  · dsimp only
    rw [hloop.failedFile]
  · rcases List.mem_append.mp hw with hw | hw
    · obtain ⟨before, m', hbefore, hm', rfl⟩ := hws w hw
      exact hapi.saved hnp hitems hold hbefore hm'
    · obtain rfl := List.mem_singleton.mp hw
      rw [hloop.ids]
      exact hapi.saved hnp hitems hold (List.prefix_refl _) hcollected.asarray
  · rw [hloop.failed]
    have hall : ((granted cfg lib api (todoOf (loadExisting d) items)
        (batchesOf cfg items d)).map Prod.fst ++ refused cfg lib api
          (todoOf (loadExisting d) items) (batchesOf cfg items d)).Perm
        (todoOf (loadExisting d) items) := hapi.partition
    have hperm := hall.map Item.chunkId
    rw [List.map_append, List.map_map] at hperm
    exact hperm

/-! ## A run with a batch that is given up -/

/-- The numbers of a vector. -/
def rowOf : Vec F (List (Value F)) → Option (List (Value F))
  | .row r => some r
  | .json (.arr v) => some v
  | .json _ => none

/-- Lists of the same length make a matrix. -/
def plainNumpy : Numpy F (List (Value F)) where
  asarray vs :=
    match vs.mapM rowOf with
    | none => .error .typeError
    | some [] => .ok ⟨[], none⟩
    | some (r :: rows) =>
      if ∀ r' ∈ rows, r'.length = r.length then .ok ⟨r :: rows, some r.length⟩
      else .error .valueError

/-- A vector of two numbers. -/
def Pair (v : Vec F (List (Value F))) : Prop := ∃ r, rowOf v = some r ∧ r.length = 2

theorem mapM_rowOf {vs : List (Vec F (List (Value F)))} (h : ∀ v ∈ vs, Pair v) :
    vs.mapM rowOf = some (vs.map fun v => (rowOf v).getD []) := by
  induction vs with
  | nil => rfl
  | cons v vs ih =>
    obtain ⟨r, hr, -⟩ := h v List.mem_cons_self
    rw [List.mapM_cons, hr, ih fun w hw => h w (List.mem_cons_of_mem _ hw), List.map_cons, hr]
    rfl

theorem stores_plainNumpy :
    Stores (F := F) plainNumpy Pair fun v => (rowOf v).getD [] := by
  refine ⟨fun _ => rfl, fun v hv => ?_, fun vs hvs => ?_⟩
  · obtain ⟨r, hr, hlength⟩ := hv
    exact ⟨r, by rw [hr]; rfl, hlength⟩
  · have hlengths : ∀ r ∈ vs.map (fun v => (rowOf v).getD []), r.length = 2 := by
      intro r hr
      obtain ⟨v, hv, rfl⟩ := List.mem_map.mp hr
      obtain ⟨r, hr, hlength⟩ := hvs v hv
      rw [hr]
      exact hlength
    have hmap := mapM_rowOf hvs
    cases hrows : vs.map (fun v => (rowOf v).getD []) with
    | nil =>
      refine ⟨none, ?_, fun hne => (hne (List.map_eq_nil_iff.mp hrows)).elim⟩
      simp only [plainNumpy, hmap, hrows]
    | cons r rows =>
      rw [hrows] at hlengths hmap
      refine ⟨some r.length, ?_, fun _ => rfl⟩
      simp only [plainNumpy, hmap]
      apply if_pos
      intro r' hr'
      rw [hlengths r' (List.mem_cons_of_mem _ hr'), hlengths r List.mem_cons_self]

def wordVector (text : Str) : List (Value F) := [.int text.length, .int (text.headD 0)]

def entryAt (x : Str × Nat) : Value F :=
  .obj [(lit "index", .int x.2), (lit "embedding", .arr (wordVector x.1))]

/-- The entries for the texts, the last one first. -/
def reversedBody (texts : List Str) : Body F :=
  .json (.obj [(lit "data", .arr (texts.zipIdx.map entryAt).reverse)])

/-- The batch at the offset 2 is refused at every attempt. -/
def secondRefused : Api F := fun offset texts _ =>
  if offset = 2 then .requestException else .response 200 none (reversedBody texts)

def plainLibrary : Library F where
  float _ := none
  val _ := none

theorem smallBatch_pos : 0 < 2 := by decide

def smallConfig : Config where
  batchSize := 2
  saveEvery := 1
  maxAttempts := 8
  batchSize_pos := smallBatch_pos

def threeItems : List Item :=
  [⟨lit "a#0", lit "one"⟩, ⟨lit "a#1", lit "two"⟩, ⟨lit "b#0", lit "three"⟩]

/-- The archive of an earlier run. -/
def oldDisk : Disk (List (Value F)) where
  archive := some ⟨[lit "z#0"], [[.int 4, .int 122]]⟩
  metaFile := .written 2 1
  failedFile := none
  written := []
  asked := []

theorem holds_reversedBody (texts : List Str) :
    Holds (F := F) ((texts.map wordVector).map .arr) (reversedBody texts) := by
  refine ⟨_, _, texts.zipIdx.map entryAt, rfl, rfl, List.reverse_perm _, ?_⟩
  rw [List.map_map, List.zipIdx_map, List.forall₂_map_left_iff, List.forall₂_map_right_iff]
  exact List.forall₂_same.mpr fun x _ => ⟨rfl, rfl⟩

theorem faithful_secondRefused :
    Faithful (F := F) smallConfig plainLibrary (fun text v => v = wordVector text) Pair
      secondRefused := by
  refine ⟨fun offset texts attempt retryAfter body hbody => ?_, fun offset texts x hx => ?_⟩
  · unfold secondRefused at hbody
    split at hbody
    · cases hbody
    · cases hbody
      refine ⟨texts.map wordVector, ?_, fun v hv => ?_, holds_reversedBody texts⟩
      · exact List.forall₂_map_right_iff.mpr (List.forall₂_same.mpr fun _ _ => rfl)
      · obtain ⟨text, -, rfl⟩ := List.mem_map.mp hv
        exact ⟨wordVector text, rfl, rfl⟩
  · by_cases hoffset : offset = 2
    · subst hoffset
      cases hx
      rfl
    · have hpost : secondRefused (F := F) offset texts 0 = .response 200 none (reversedBody texts) :=
        if_neg hoffset
      have hanswer : embedBatchRetry plainLibrary smallConfig.maxAttempts
          (secondRefused (F := F) offset texts) = embeddingsOf plainLibrary (reversedBody texts) := by
        change attempts _ _ 0 (7 + 1) = _
        rw [attempts, hpost]
        rfl
      rw [hanswer, embeddingsOf_holds _ (holds_reversedBody texts)] at hx
      cases hx

theorem archives_aligned_refused :
    ∃ t last failed new, Returns (run (F := Empty) smallConfig plainLibrary plainNumpy
        secondRefused threeItems) oldDisk () t ∧ t.archive = some last ∧
      last.ids = [lit "z#0"] ++ new ∧
      (new ++ failed).Perm [lit "a#0", lit "a#1", lit "b#0"] := by
  have haligned := archives_aligned (F := Empty) smallConfig plainLibrary plainNumpy secondRefused
    (fun text v => v = wordVector text) Pair (fun v => (rowOf v).getD []) threeItems oldDisk
    stores_plainNumpy faithful_secondRefused (by decide) ?_ (.inl (List.cons_ne_nil _ _))
  · obtain ⟨t, ws, last, failed, hrun, -, harchive, -, -, new, hids, hperm⟩ := haligned
    exact ⟨t, last, failed, new, hrun, harchive, hids, hperm⟩
  · refine ⟨by decide, rfl, fun r hr => ?_⟩
    obtain rfl := List.mem_singleton.mp hr
    exact ⟨_, rfl, rfl⟩

end WebSpider.Embedder
