import WebSpider.Embedder.Alignment

/-!
# A hot streak of failures

Whatever the API answers, a run should end with an archive, its meta file and each chunk
either in the archive or in `failed.json`. It does when no attempt raises, the answered
batches reach the chunks of the batches that are not skipped and no others, and there is a
vector at the end (`survives_iff`). When every batch of a first run is skipped, the dimension
is read from a matrix that has none and the failed ids are lost (`streak_lost`).
-/

namespace WebSpider.Embedder

open Text Json Effects

variable {F R : Type}

/-! ## The property -/

/-- The run ends normally with the archive and the meta file, and each chunk is either in the
archive or in `failed.json`. -/
def Survives (cfg : Config) (lib : Library F) (np : Numpy F R) (api : Api F) (items : List Item)
    (d : Disk R) : Prop :=
  ∃ t ws w dim count, Returns (run cfg lib np api items) d () t ∧
    t.written = d.written ++ ws ++ [w] ∧ t.archive = some w ∧ t.metaFile = .written dim count ∧
    (∀ item ∈ items, item.chunkId ∈ w.ids ∨ item.chunkId ∈ t.failedFile.getD []) ∧
    ∀ item ∈ items, ¬ (item.chunkId ∈ w.ids ∧ item.chunkId ∈ t.failedFile.getD [])

/-! ## The condition -/

/-- No attempt that is made raises: the API never asks for a pause that `time.sleep` refuses,
and the first response with status 200 has embeddings, or is too deep to be read. -/
def Tolerable (lib : Library F) (maxAttempts : Nat) (post : Nat → Post F) : Prop :=
  ∀ k < maxAttempts, (∀ j < k, decision lib post j = none) →
    ∀ x, decision lib post k = some (.error x) → x.isRuntimeError = true

section Condition

variable (cfg : Config) (lib : Library F) (np : Numpy F R) (api : Api F) (items : List Item)
  (d : Disk R)

/-- The vectors of an answered batch reach a chunk with this id. -/
def Reached (i : Str) : Prop :=
  ∃ b ∈ batchesOf cfg items d, ∃ vs, answer lib cfg.maxAttempts (api b.1 b.2) = .ok vs ∧
    i ∈ (window (todoOf (loadExisting d) items) b.1 vs.length).map Item.chunkId

/-- A batch that is given up has a chunk with this id. -/
def Skipped (i : Str) : Prop :=
  ∃ b ∈ batchesOf cfg items d, ∃ x, answer lib cfg.maxAttempts (api b.1 b.2) = .error x ∧
    i ∈ (window (todoOf (loadExisting d) items) b.1 b.2.length).map Item.chunkId

/-- The id is skipped; or no batch is, and an earlier run has left it in `failed.json`. -/
def Listed (i : Str) : Prop :=
  Skipped cfg lib api items d i ∨
    ((∀ b ∈ batchesOf cfg items d, ∃ vs, answer lib cfg.maxAttempts (api b.1 b.2) = .ok vs) ∧
      i ∈ d.failedFile.getD [])

/-- The condition on the answers, the chunks file and the files of an earlier run. -/
structure Survivable : Prop where
  tolerable : ∀ b ∈ batchesOf cfg items d, Tolerable lib cfg.maxAttempts (api b.1 b.2)
  within : ∀ b ∈ batchesOf cfg items d, ∀ vs, answer lib cfg.maxAttempts (api b.1 b.2) = .ok vs →
    b.1 + vs.length ≤ (todoOf (loadExisting d) items).length
  sized : ∀ x ∈ (granted cfg lib api (todoOf (loadExisting d) items)
    (batchesOf cfg items d)).head?, Sized x.2
  matrix : ∃ m dim, np.asarray (vecsOf (loadExisting d) (granted cfg lib api
    (todoOf (loadExisting d) items) (batchesOf cfg items d))) = .ok m ∧ m.dim = some dim
  covered : ∀ item ∈ items, item.chunkId ∈ (loadExisting d).ids ∨
    Reached cfg lib api items d item.chunkId ∨ Listed cfg lib api items d item.chunkId
  apart : ∀ item ∈ items, Listed cfg lib api items d item.chunkId →
    item.chunkId ∉ (loadExisting d).ids ∧ ¬ Reached cfg lib api items d item.chunkId

end Condition

/-- Some of the vectors of a matrix make a matrix. -/
def Hereditary (np : Numpy F R) : Prop :=
  ∀ vs ws m, np.asarray (vs ++ ws) = .ok m → ∃ m', np.asarray vs = .ok m'

/-! ## The answers -/

variable {cfg : Config} {lib : Library F} {np : Numpy F R} {api : Api F} {items : List Item}
  {d t : Disk R}

theorem tolerable_iff {maxAttempts : Nat} {post : Nat → Post F} :
    Tolerable lib maxAttempts post ↔
      ∀ x, answer lib maxAttempts post = .error x → x.isRuntimeError = true := by
  constructor
  · intro h x hx
    rw [answer] at hx
    split at hx
    · rename_i k reply hfirst
      subst hx
      obtain ⟨⟨-, hk⟩, hdecision, hbefore⟩ := firstDecision_eq_some.mp hfirst
      exact h k (by omega) (fun j hj => hbefore j (Nat.zero_le j) hj) x hdecision
    · cases hx
      rfl
  · intro h k hk hbefore x hx
    have hfirst : firstDecision (decision lib post) 0 maxAttempts = some (k, .error x) :=
      firstDecision_eq_some.mpr ⟨⟨Nat.zero_le k, by omega⟩, hx, fun j _ hj => hbefore j hj⟩
    exact h x (by rw [answer, hfirst])

/-- The new ids are those that are reached. -/
theorem mem_granted (hwithin : ∀ b ∈ batchesOf cfg items d, ∀ vs,
      answer lib cfg.maxAttempts (api b.1 b.2) = .ok vs →
      b.1 + vs.length ≤ (todoOf (loadExisting d) items).length) {i : Str} :
    i ∈ idsOf (loadExisting d) (granted cfg lib api (todoOf (loadExisting d) items)
        (batchesOf cfg items d)) ↔
      i ∈ (loadExisting d).ids ∨ Reached cfg lib api items d i := by
  rw [idsOf, List.mem_append]
  apply or_congr Iff.rfl
  rw [granted, List.map_flatMap, List.mem_flatMap]
  refine exists_congr fun b => and_congr_right fun hb => ?_
  rw [replyTo]
  cases hanswer : answer lib cfg.maxAttempts (api b.1 b.2) with
  | error x =>
    apply iff_of_false List.not_mem_nil
    rintro ⟨vs, hvs, -⟩
    cases hvs
  | ok vs =>
    rw [gain, ids_zip (hwithin b hb vs hanswer)]
    constructor
    · exact fun hi => ⟨vs, rfl, hi⟩
    · rintro ⟨vs', hvs, hi⟩
      cases hvs
      exact hi

theorem mem_refused {i : Str} :
    i ∈ (refused cfg lib api (todoOf (loadExisting d) items) (batchesOf cfg items d)).map
        Item.chunkId ↔ Skipped cfg lib api items d i := by
  rw [refused, List.map_flatMap, List.mem_flatMap]
  refine exists_congr fun b => and_congr_right fun hb => ?_
  rw [replyTo]
  cases answer lib cfg.maxAttempts (api b.1 b.2) with
  | error x =>
    constructor
    · exact fun hi => ⟨x, rfl, hi⟩
    · rintro ⟨y, -, hi⟩
      exact hi
  | ok vs =>
    apply iff_of_false List.not_mem_nil
    rintro ⟨x, hx, -⟩
    cases hx

/-- Nothing is listed as failed when all batches are answered. -/
theorem refused_eq_nil : refused cfg lib api (todoOf (loadExisting d) items)
      (batchesOf cfg items d) = [] ↔
    ∀ b ∈ batchesOf cfg items d, ∃ vs, answer lib cfg.maxAttempts (api b.1 b.2) = .ok vs := by
  rw [refused, List.flatMap_eq_nil_iff]
  apply forall₂_congr
  intro b hb
  rw [replyTo]
  cases answer lib cfg.maxAttempts (api b.1 b.2) with
  | ok vs => exact iff_of_true rfl ⟨vs, rfl⟩
  | error x =>
    refine iff_of_false (fun hnil => ?_) ?_
    · have htexts := (batch_of_mem cfg.batchSize_pos hb).1
      rw [show window (todoOf (loadExisting d) items) b.1 b.2.length = [] from hnil] at htexts
      exact batch_ne cfg.batchSize_pos hb htexts
    · rintro ⟨vs, hvs⟩
      cases hvs

/-- What `failed.json` holds after a run. -/
theorem mem_failedFile {i : Str} {failed : List Str}
    (hfailed : failed = (refused cfg lib api (todoOf (loadExisting d) items)
      (batchesOf cfg items d)).map Item.chunkId) :
    i ∈ (if failed = [] then d.failedFile else some failed).getD [] ↔
      Listed cfg lib api items d i := by
  subst hfailed
  rw [Listed, ← mem_refused]
  split
  · rename_i hnil
    have hrefused := List.map_eq_nil_iff.mp hnil
    rw [hnil, ← refused_eq_nil]
    constructor
    · exact fun hi => .inr ⟨hrefused, hi⟩
    · rintro (hi | ⟨-, hi⟩)
      · cases hi
      · exact hi
  · rename_i hne
    rw [← refused_eq_nil]
    constructor
    · exact fun hi => .inl hi
    · rintro (hi | ⟨hnil, -⟩)
      · exact hi
      · exact (hne (List.map_eq_nil_iff.mpr hnil)).elim

/-- Nothing makes such a run raise. -/
theorem Survivable.not_stuck (h : Survivable cfg lib np api items d) (hnp : Hereditary np) :
    ¬ Stuck cfg lib np api (todoOf (loadExisting d) items) (loadExisting d)
      (batchesOf cfg items d) := by
  intro hstuck
  cases hstuck with
  | raised b hb x hreply hx =>
    rw [tolerable_iff.mp (h.tolerable b hb) x hreply] at hx
    cases hx
  | beyond b hb vs hreply hend => exact Nat.not_lt.mpr (h.within b hb vs hreply) hend
  | unsized x hx hnot => exact hnot (h.sized x hx)
  | unconverted before x hbefore hx =>
    obtain ⟨m, -, hm, -⟩ := h.matrix
    obtain ⟨after, hafter⟩ := hbefore
    rw [← hafter, vecsOf, List.map_append, ← List.append_assoc] at hm
    obtain ⟨m', hm'⟩ := hnp _ _ m hm
    rw [vecsOf, hm'] at hx
    cases hx

/-- The ids of the failed chunks after a run that has collected its answers. -/
theorem Collected.mem_failed {e : Loop F R} {m : Matrix R} {u : Disk R}
    (h : Collected cfg lib np api items d e m u) {i : Str} :
    i ∈ (if e.failed = [] then u.failedFile else some e.failed).getD [] ↔
      Listed cfg lib api items d i := by
  rw [h.loop.failedFile]
  exact mem_failedFile h.loop.failed

theorem Collected.mem_ids {e : Loop F R} {m : Matrix R} {u : Disk R}
    (h : Collected cfg lib np api items d e m u) {i : Str} :
    i ∈ e.ids ↔ i ∈ (loadExisting d).ids ∨ Reached cfg lib api items d i := by
  rw [h.loop.ids]
  exact mem_granted h.loop.within

/-- A run survives exactly when its answers and its files meet the condition. -/
theorem survives_iff (cfg : Config) (lib : Library F) (np : Numpy F R) (api : Api F)
    (items : List Item) (d : Disk R) (hnp : Hereditary np) :
    Survives cfg lib np api items d ↔ Survivable cfg lib np api items d := by
  constructor
  · rintro ⟨t, ws, w, dim, count, hrun, -, harchive, -, hcovered, hapart⟩
    obtain ⟨e, m, u, dim', hcollected, hdim, rfl⟩ := (run_ends cfg lib np api items d).of_returns hrun
    obtain rfl := Option.some.inj harchive
    have hloop := hcollected.loop
    refine ⟨fun b hb => tolerable_iff.mpr (hloop.decided b hb), hloop.within, hloop.sized,
      ⟨m, dim', hcollected.asarray, hdim⟩, fun item hitem => ?_, fun item hitem hlisted => ?_⟩
    · rcases hcovered item hitem with hin | hin
      · exact (hcollected.mem_ids.mp hin).imp_right .inl
      · exact .inr (.inr (hcollected.mem_failed.mp hin))
    · have hnot : item.chunkId ∉ e.ids := fun hin =>
        hapart item hitem ⟨hin, hcollected.mem_failed.mpr hlisted⟩
      rw [hcollected.mem_ids, not_or] at hnot
      exact hnot
  · intro h
    obtain ⟨m', dim', hm', hdim'⟩ := h.matrix
    obtain ⟨t, hrun, e, m, u, dim, hcollected, -, rfl⟩ :=
      run_returns (h.not_stuck hnp) hm' (by rw [hdim', Option.isSome_some])
    obtain ⟨ws, hwritten, -, -⟩ := hcollected.loop.written
    refine ⟨_, ws, ⟨e.ids, m.rows⟩, dim, m.rows.length, hrun, congrArg (· ++ _) hwritten, rfl, rfl,
      fun item hitem => ?_, ?_⟩
    · rcases h.covered item hitem with hin | hin | hin
      · exact .inl (hcollected.mem_ids.mpr (.inl hin))
      · exact .inl (hcollected.mem_ids.mpr (.inr hin))
      · exact .inr (hcollected.mem_failed.mpr hin)
    · rintro item hitem ⟨hin, hlisted⟩
      obtain ⟨hold, hreached⟩ := h.apart item hitem (hcollected.mem_failed.mp hlisted)
      rcases hcollected.mem_ids.mp hin with hin | hin
      · exact hold hin
      · exact hreached hin

/-! ## Runs that survive, and one that does not -/

/-- An API that answers a batch properly or gives it up meets the condition, when there is a
vector at the end and no `failed.json` before. -/
theorem Faithful.survivable {Embeds : Str → List (Value F) → Prop} {Vector : Vec F R → Prop}
    {toRow : Vec F R → R} (h : Faithful cfg lib Embeds Vector api)
    (hnp : Stores np Vector toRow) (hitems : (items.map Item.chunkId).Nodup)
    (hold : Sound Vector (loadExisting d)) (hvector : HasVector cfg lib api items d)
    (hfile : d.failedFile = none) : Survivable cfg lib np api items d := by
  have hstuck : ¬ Stuck cfg lib np api (todoOf (loadExisting d) items) (loadExisting d)
      (batchesOf cfg items d) := h.not_stuck hnp hold
  have hperm : ((granted cfg lib api (todoOf (loadExisting d) items)
      (batchesOf cfg items d)).map Prod.fst ++ refused cfg lib api
        (todoOf (loadExisting d) items) (batchesOf cfg items d)).Perm
      (todoOf (loadExisting d) items) := h.partition
  have hwithin : ∀ b ∈ batchesOf cfg items d, ∀ vs,
      answer lib cfg.maxAttempts (api b.1 b.2) = .ok vs →
      b.1 + vs.length ≤ (todoOf (loadExisting d) items).length := by
    intro b hb vs hvs
    by_contra hend
    exact hstuck (.beyond b hb vs hvs (Nat.not_le.mp hend))
  have hlisted {i : Str} (hi : Listed cfg lib api items d i) : Skipped cfg lib api items d i := by
    rcases hi with hi | ⟨-, hi⟩
    · exact hi
    · rw [hfile] at hi
      cases hi
  refine ⟨fun b hb => tolerable_iff.mpr fun x hx => ?_, hwithin, fun x hx => ?_, ?_, ?_, ?_⟩
  · rw [h.given_up hx]
    rfl
  · by_contra hnot
    exact hstuck (.unsized x hx hnot)
  · obtain ⟨dim, hm, hsome⟩ := hnp.matrix _ (vector_vecsOf hold fun x hx => h.aligned hx)
    obtain ⟨dim, rfl⟩ := Option.isSome_iff_exists.mp (hsome (h.vecs_ne hold hvector))
    exact ⟨_, dim, hm, rfl⟩
  · intro item hitem
    by_cases hin : item.chunkId ∈ (loadExisting d).ids
    · exact .inl hin
    · have htodo : item ∈ todoOf (loadExisting d) items :=
        List.mem_filter.mpr ⟨hitem, decide_eq_true hin⟩
      right
      rcases List.mem_append.mp (hperm.mem_iff.mpr htodo) with hgranted | hrefused
      · obtain ⟨x, hx, rfl⟩ := List.mem_map.mp hgranted
        have hnew : x.1.chunkId ∈ idsOf (loadExisting d) (granted cfg lib api
            (todoOf (loadExisting d) items) (batchesOf cfg items d)) :=
          List.mem_append_right _
            (List.mem_map_of_mem (f := fun x : Item × Value F => x.1.chunkId) hx)
        exact .inl (((mem_granted hwithin).mp hnew).resolve_left hin)
      · exact .inr (.inl (mem_refused.mp (List.mem_map_of_mem hrefused)))
  · intro item _ hitem
    have hrefused := mem_refused.mpr (hlisted hitem)
    have hnodup : (((granted cfg lib api (todoOf (loadExisting d) items)
        (batchesOf cfg items d)).map Prod.fst).map Item.chunkId ++ (refused cfg lib api
          (todoOf (loadExisting d) items) (batchesOf cfg items d)).map Item.chunkId).Nodup := by
      rw [← List.map_append]
      exact (hperm.map Item.chunkId).nodup_iff.mpr (hitems.sublist (List.filter_sublist.map _))
    have hnot : item.chunkId ∉ (loadExisting d).ids := by
      obtain ⟨skipped, hskipped, heq⟩ := List.mem_map.mp hrefused
      have htodo := hperm.mem_iff.mp (List.mem_append_right _ hskipped)
      rw [← heq]
      exact of_decide_eq_true (List.mem_filter.mp htodo).2
    refine ⟨hnot, fun hreached => ?_⟩
    have hnew := (mem_granted hwithin).mpr (.inr hreached)
    rcases List.mem_append.mp hnew with hin | hin
    · exact hnot hin
    · refine List.disjoint_of_nodup_append hnodup ?_ hrefused
      rw [List.map_map]
      exact hin

theorem hereditary_plainNumpy : Hereditary (F := F) plainNumpy := by
  intro vs ws m hm
  simp only [plainNumpy, List.mapM_append] at hm ⊢
  cases hvs : vs.mapM rowOf with
  | none =>
    rw [hvs] at hm
    cases hm
  | some rows =>
    cases rows with
    | nil => exact ⟨_, rfl⟩
    | cons r rows =>
      cases hws : ws.mapM rowOf with
      | none =>
        rw [hvs, hws] at hm
        cases hm
      | some others =>
        rw [hvs, hws] at hm
        by_cases hall : ∀ r' ∈ rows ++ others, r'.length = r.length
        · exact ⟨_, if_pos fun r' hr' => hall r' (List.mem_append_left _ hr')⟩
        · have herror : (if ∀ r' ∈ rows ++ others, r'.length = r.length then
              .ok ⟨r :: (rows ++ others), some r.length⟩ else .error .valueError) =
                (.ok m : Except Exn (Matrix (List (Value F)))) := hm
          rw [if_neg hall] at herror
          cases herror

theorem survives_iff_refused :
    Survives (F := Empty) smallConfig plainLibrary plainNumpy secondRefused threeItems oldDisk := by
  refine (survives_iff smallConfig plainLibrary plainNumpy secondRefused threeItems oldDisk
    hereditary_plainNumpy).mpr ?_
  refine faithful_secondRefused.survivable stores_plainNumpy (by decide) ⟨by decide, rfl, ?_⟩
    (.inl (List.cons_ne_nil _ _)) rfl
  intro r hr
  obtain rfl := List.mem_singleton.mp hr
  exact ⟨_, rfl, rfl⟩

/-- Nothing was written before. -/
def emptyDisk : Disk (List (Value F)) where
  archive := none
  metaFile := .absent
  failedFile := none
  written := []
  asked := []

/-- Every request fails. -/
def unreachable : Api F := fun _ _ _ => .requestException

/-- The first run raises, and no `failed.json` is written. -/
theorem streak_lost : ¬ ∀ (api : Api Empty) (items : List Item)
    (d : Disk (List (Value Empty))), Survives smallConfig plainLibrary plainNumpy api items d := by
  intro hsurvives
  obtain ⟨t, -, -, -, -, hrun, -⟩ := hsurvives unreachable threeItems emptyDisk
  have hraises : (run smallConfig plainLibrary plainNumpy unreachable threeItems
      (emptyDisk (F := Empty))).1.toOption = none := by
    decide +kernel
  rw [show run smallConfig plainLibrary plainNumpy unreachable threeItems emptyDisk = (.ok (), t)
    from hrun] at hraises
  cases hraises

end WebSpider.Embedder
