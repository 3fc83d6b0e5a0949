import WebSpider.Processor.Orphans
import WebSpider.Effects.Run

/-!
# Fingerprints for old rows

`backfill_simhash.py` gives the rows that have no fingerprint the one of their text, in one
transaction, while the processor goes on storing articles. A run that fails leaves the rows
as they were. `warm_from_db` skips rows without a fingerprint and runs to its end only once,
so what is filled in is found only when the backfill is committed before the index is first
completed; then every old row is found (`found_after_backfill`).
-/

namespace WebSpider.Processor.Backfill

open Text Json Bits Effects

variable {F : Type}

/-! ## Definitions -/

/-- A row of the database. Its fingerprint is `contentHash`, `none` where the column is NULL,
and the one in `row` is not read. A text that is NULL counts as empty. -/
structure Entry (F : Type) where
  id : Int
  row : Row F
  contentHash : Option Nat

/-- The row as `warm_from_db` reads it, unless its fingerprint is NULL. -/
def Entry.stored (e : Entry F) : Option (Row F) :=
  e.contentHash.map fun chash => { e.row with contentHash := chash }

/-- A running `backfill`: the rows its cursor still holds and the updates of its transaction. -/
structure Job (F : Type) where
  rest : List (Entry F)
  updates : List (Int × Nat)

structure Deployment (F : Type) where
  table : List (Entry F)
  job : Option (Job F)
  /-- Redis. The `articles` in it are not read. -/
  redis : State F

inductive Action (F : Type) where
  /-- `SELECT id, content_md FROM articles WHERE content_hash IS NULL` -/
  | start
  | next
  | commit
  /-- A call fails, and the transaction is rolled back. -/
  | abort
  /-- The processor stores an article. -/
  | store (e : Entry F)
  /-- The processor registers a fingerprint, whether or not its article was new to the table. -/
  | index (chash : Nat) (env : Surroundings)
  | warm (env : Surroundings)
  | expire (key : Str)

/-- The loop of `backfill` takes the next row. -/
def Job.turn (cfg : Config) (tk : Toolkit F) (e : Entry F) (rest : List (Entry F))
    (updates : List (Int × Nat)) : Job F :=
  if e.row.contentMd = [] then ⟨rest, updates⟩
  else ⟨rest, updates ++ [(e.id, simhash tk e.row.contentMd cfg.simhashBits)]⟩

/-- `UPDATE articles SET content_hash = %s WHERE id = %s` -/
def setHash (table : List (Entry F)) (update : Int × Nat) : List (Entry F) :=
  table.map fun e => if e.id = update.1 then { e with contentHash := some update.2 } else e

/-- What `warm_from_db` sees. -/
def Deployment.view (s : Deployment F) : State F :=
  { s.redis with articles := s.table.filterMap Entry.stored }

def step (cfg : Config) (tk : Toolkit F) (s : Deployment F) : Action F → Option (Deployment F)
  | .start =>
    if s.job.isSome then none
    else some { s with job := some ⟨s.table.filter fun e => e.contentHash.isNone, []⟩ }
  | .next =>
    match s.job with
    | some ⟨e :: rest, updates⟩ => some { s with job := some (Job.turn cfg tk e rest updates) }
    | _ => none
  | .commit =>
    match s.job with
    | some ⟨[], updates⟩ => some { s with table := updates.foldl setHash s.table, job := none }
    | _ => none
  | .abort => if s.job.isSome then some { s with job := none } else none
  | .store e =>
    -- the processor never stores an article without its fingerprint
    if e.id ∉ s.table.map Entry.id ∧ e.contentHash.isSome = true then
      some { s with table := s.table ++ [e] }
    else none
  | .index chash env => some { s with redis := after (index cfg env 0 chash) s.redis }
  | .warm env => some { s with redis := after (warmFromDb cfg env) s.view }
  | .expire key =>
    if s.redis.volatile key then some { s with redis := s.redis.dropKey key } else none

/-- The fingerprint the processor registers in a step. -/
def Action.registers : Action F → Option Nat
  | .index chash _ => some chash
  | _ => none

/-! ## What the rows are to have -/

/-- The fingerprint of a row, or of its text. -/
def fingerprint (cfg : Config) (tk : Toolkit F) (e : Entry F) : Option Nat :=
  match e.contentHash with
  | some chash => some chash
  | none =>
    if e.row.contentMd = [] then none else some (simhash tk e.row.contentMd cfg.simhashBits)

def fill (cfg : Config) (tk : Toolkit F) (e : Entry F) : Entry F :=
  { e with contentHash := fingerprint cfg tk e }

section Fill

variable {cfg : Config} {tk : Toolkit F}

theorem fingerprint_of_some {e : Entry F} {chash : Nat} (h : e.contentHash = some chash) :
    fingerprint cfg tk e = some chash := by
  unfold fingerprint
  rw [h]

theorem fill_of_isSome {e : Entry F} (h : e.contentHash.isSome = true) : fill cfg tk e = e := by
  obtain ⟨chash, hchash⟩ := Option.isSome_iff_exists.mp h
  unfold fill
  rw [fingerprint_of_some hchash, ← hchash]

@[simp] theorem fingerprint_fill (e : Entry F) :
    fingerprint cfg tk (fill cfg tk e) = fingerprint cfg tk e := by
  cases h : fingerprint cfg tk e with
  | some chash => exact fingerprint_of_some h
  | none =>
    have hnone : e.contentHash = none := by
      cases hhash : e.contentHash with
      | none => rfl
      | some chash =>
        rw [fingerprint_of_some hhash] at h
        cases h
    have hempty : e.row.contentMd = [] := by
      by_contra hne
      unfold fingerprint at h
      rw [hnone] at h
      simp [hne] at h
    unfold fingerprint fill
    simp [h, hempty]

theorem fill_fill (e : Entry F) : fill cfg tk (fill cfg tk e) = fill cfg tk e := by
  change ({ e with contentHash := fingerprint cfg tk (fill cfg tk e) } : Entry F) = _
  rw [fingerprint_fill]
  rfl

theorem map_fill_of_isSome {table : List (Entry F)}
    (h : ∀ e ∈ table, e.contentHash.isSome = true) : table.map (fill cfg tk) = table := by
  conv_rhs => rw [← List.map_id table]
  exact List.map_congr_left fun e he => fill_of_isSome (h e he)

theorem fingerprint_lt {e : Entry F} {chash : Nat}
    (hbound : ∀ c, e.contentHash = some c → c < 2 ^ cfg.simhashBits)
    (h : fingerprint cfg tk e = some chash) : chash < 2 ^ cfg.simhashBits := by
  cases hhash : e.contentHash with
  | some c =>
    rw [fingerprint_of_some hhash] at h
    exact hbound chash (hhash.trans h)
  | none =>
    unfold fingerprint at h
    rw [hhash] at h
    dsimp only at h
    split at h
    · cases h
    · cases h
      exact simhash_lt tk _ _

/-! ## The transaction -/

/-- The job deals with the rows that have no fingerprint, and with no others. -/
structure Covers (cfg : Config) (tk : Toolkit F) (table : List (Entry F)) (j : Job F) : Prop where
  rest : ∀ e ∈ j.rest, e ∈ table ∧ e.contentHash = none
  updates : ∀ u ∈ j.updates, ∃ e ∈ table, e.contentHash = none ∧ e.id = u.1 ∧
    fingerprint cfg tk e = some u.2
  all : ∀ e ∈ table, e.contentHash = none →
    e ∈ j.rest ∨ ∀ chash, fingerprint cfg tk e = some chash → (e.id, chash) ∈ j.updates

theorem covers_start (table : List (Entry F)) :
    Covers cfg tk table ⟨table.filter fun e => e.contentHash.isNone, []⟩ := by
  refine ⟨fun e he => ?_, fun u hu => absurd hu List.not_mem_nil, fun e he hnone => Or.inl ?_⟩
  · simpa using he
  · simpa [hnone] using he

theorem Covers.turn {table : List (Entry F)} {e : Entry F} {rest : List (Entry F)}
    {updates : List (Int × Nat)} (h : Covers cfg tk table ⟨e :: rest, updates⟩) :
    Covers cfg tk table (Job.turn cfg tk e rest updates) := by
  obtain ⟨he, hnone⟩ := h.rest e List.mem_cons_self
  have hrest : ∀ e' ∈ rest, e' ∈ table ∧ e'.contentHash = none :=
    fun e' he' => h.rest e' (List.mem_cons_of_mem _ he')
  unfold Job.turn
  split
  · rename_i hempty
    refine ⟨hrest, h.updates, fun e' he' hnone' => ?_⟩
    rcases h.all e' he' hnone' with hmem | hupdate
    · rcases List.mem_cons.mp hmem with rfl | hmem
      · right
        intro chash hchash
        unfold fingerprint at hchash
        rw [hnone] at hchash
        simp [hempty] at hchash
      · exact Or.inl hmem
    · exact Or.inr hupdate
  · rename_i hne
    have hprint : fingerprint cfg tk e =
        some (simhash tk e.row.contentMd cfg.simhashBits) := by
      unfold fingerprint
      rw [hnone]
      exact if_neg hne
    refine ⟨hrest, fun u hu => ?_, fun e' he' hnone' => ?_⟩
    · rcases List.mem_append.mp hu with hu | hu
      · exact h.updates u hu
      · obtain rfl := List.mem_singleton.mp hu
        exact ⟨e, he, hnone, rfl, hprint⟩
    · rcases h.all e' he' hnone' with hmem | hupdate
      · rcases List.mem_cons.mp hmem with rfl | hmem
        · right
          intro chash hchash
          rw [hprint] at hchash
          cases hchash
          exact List.mem_append_right _ List.mem_cons_self
        · exact Or.inl hmem
      · exact Or.inr fun chash hchash => List.mem_append_left _ (hupdate chash hchash)

theorem Covers.store {table : List (Entry F)} {j : Job F} {e : Entry F}
    (h : Covers cfg tk table j) (hsome : e.contentHash.isSome = true) :
    Covers cfg tk (table ++ [e]) j := by
  refine ⟨fun e' he' => ?_, fun u hu => ?_, fun e' he' hnone => ?_⟩
  · obtain ⟨hmem, hnone⟩ := h.rest e' he'
    exact ⟨List.mem_append_left _ hmem, hnone⟩
  · obtain ⟨e', he', hrest⟩ := h.updates u hu
    exact ⟨e', List.mem_append_left _ he', hrest⟩
  · rcases List.mem_append.mp he' with he' | he'
    · exact h.all e' he' hnone
    · obtain rfl := List.mem_singleton.mp he'
      rw [hnone] at hsome
      cases hsome

/-- The updates of a row, one after the other. -/
def updated (updates : List (Int × Nat)) (e : Entry F) : Entry F :=
  updates.foldl (fun e u => if e.id = u.1 then { e with contentHash := some u.2 } else e) e

theorem foldl_setHash (updates : List (Int × Nat)) (table : List (Entry F)) :
    updates.foldl setHash table = table.map (updated updates) := by
  induction updates generalizing table with
  | nil => exact (List.map_id table).symm
  | cons u updates ih =>
    rw [List.foldl_cons, ih, setHash, List.map_map]
    rfl

/-- Updates that all give a row the same fingerprint leave it with that one. -/
theorem updated_eq {updates : List (Int × Nat)} {e : Entry F} {target : Option Nat}
    (hall : ∀ u ∈ updates, u.1 = e.id → some u.2 = target)
    (hsome : e.contentHash = target ∨ ∃ u ∈ updates, u.1 = e.id) :
    updated updates e = { e with contentHash := target } := by
  induction updates generalizing e with
  | nil =>
    rcases hsome with heq | ⟨u, hu, -⟩
    · rw [← heq]
      rfl
    · cases hu
  | cons u updates ih =>
    have hrest : ∀ u' ∈ updates, u'.1 = e.id → some u'.2 = target :=
      fun u' hu' => hall u' (List.mem_cons_of_mem _ hu')
    change updated updates (if e.id = u.1 then _ else e) = _
    split
    · rename_i hid
      have htarget : some u.2 = target := hall u List.mem_cons_self hid.symm
      rw [ih (e := { e with contentHash := some u.2 }) hrest (Or.inl htarget)]
    · rename_i hid
      apply ih hrest
      rcases hsome with heq | ⟨u', hu', hid'⟩
      · exact Or.inl heq
      · rcases List.mem_cons.mp hu' with rfl | hu'
        · exact absurd hid'.symm hid
        · exact Or.inr ⟨u', hu', hid'⟩

/-- The commit fills in every row. -/
theorem Covers.commit {table : List (Entry F)} {updates : List (Int × Nat)}
    (hids : (table.map Entry.id).Nodup) (h : Covers cfg tk table ⟨[], updates⟩) :
    updates.foldl setHash table = table.map (fill cfg tk) := by
  rw [foldl_setHash]
  apply List.map_congr_left
  intro e he
  have hown : ∀ u ∈ updates, u.1 = e.id →
      e.contentHash = none ∧ some u.2 = fingerprint cfg tk e := by
    intro u hu hid
    obtain ⟨e', he', hnone, hid', hprint⟩ := h.updates u hu
    obtain rfl : e' = e := List.inj_on_of_nodup_map hids he' he (hid'.trans hid)
    exact ⟨hnone, hprint.symm⟩
  refine updated_eq (fun u hu hid => (hown u hu hid).2) ?_
  cases hhash : e.contentHash with
  | some chash => exact Or.inl (fingerprint_of_some hhash).symm
  | none =>
    cases hprint : fingerprint cfg tk e with
    | none => exact Or.inl rfl
    | some chash =>
      rcases h.all e he hhash with hmem | hupdate
      · cases hmem
      · exact Or.inr ⟨(e.id, chash), hupdate chash hprint, rfl⟩

end Fill

/-! ## Redis -/

section Redis

variable {cfg : Config}

/-- The processor registered the fingerprint, or a row has it. -/
def Known (regs : List Nat) (table : List (Entry F)) (chash : Nat) : Prop :=
  chash ∈ regs ∨ some chash ∈ table.map Entry.contentHash

/-- The members of the buckets are known, and no key expires. -/
def Registered (regs : List Nat) (table : List (Entry F)) (u : State F) : Prop :=
  Sound u (Known regs table) ∧ ∀ key, u.volatile key = false

theorem keptByIndex_registered {regs : List Nat} {table : List (Entry F)} {chash : Nat}
    (httl : cfg.neardupTtl = 0) (hknown : Known regs table chash) :
    KeptByIndex cfg chash (Registered regs table) := by
  refine ⟨fun key hkey u hu => ⟨?_, hu.2⟩, fun hpos => ?_⟩
  · exact (keptByIndex_sound cfg (S := Known regs table) hknown).1 key hkey u hu.1
  · omega

theorem Registered.mono {regs : List Nat} {table table' : List (Entry F)} {u : State F}
    (h : Registered regs table u) (hsub : ∀ chash, some chash ∈ table.map Entry.contentHash →
      some chash ∈ table'.map Entry.contentHash) : Registered regs table' u := by
  refine ⟨fun key raw hraw => ?_, h.2⟩
  obtain ⟨chash, hknown, rfl⟩ := h.1 key raw hraw
  exact ⟨chash, hknown.imp_right (hsub chash), rfl⟩

theorem mem_view {s : Deployment F} {row : Row F} (h : row ∈ s.view.articles) :
    some row.contentHash ∈ s.table.map Entry.contentHash := by
  obtain ⟨e, he, hstored⟩ := List.mem_filterMap.mp h
  obtain ⟨chash, hchash, rfl⟩ := Option.map_eq_some_iff.mp hstored
  exact List.mem_map.mpr ⟨e, he, hchash⟩

theorem mem_view_of_some {s : Deployment F} {chash : Nat}
    (h : some chash ∈ s.table.map Entry.contentHash) :
    ∃ row ∈ s.view.articles, row.contentHash = chash := by
  obtain ⟨e, he, hchash⟩ := List.mem_map.mp h
  refine ⟨{ e.row with contentHash := chash }, List.mem_filterMap.mpr ⟨e, he, ?_⟩, rfl⟩
  unfold Entry.stored
  rw [hchash]
  rfl

theorem after_index {I : State F → Prop} {chash : Nat} {u : State F}
    (hkept : KeptByIndex cfg chash I) (hu : I u) (env : Surroundings) :
    I (after (index cfg env 0 chash) u) := by
  have hindex : Ends (index cfg env 0 chash) u _ _ := index_ends hkept hu
  exact hindex.after (fun _ _ h => h.1) fun _ _ h => h.1

theorem after_warm {I : State F → Prop} {s : Deployment F}
    (hkept : ∀ chash, some chash ∈ s.table.map Entry.contentHash → KeptByIndex cfg chash I)
    (hwarmed : ∀ u, I u → I { u with warmed := true }) (hview : I s.view) (env : Surroundings) :
    I (after (warmFromDb cfg env) s.view) :=
  (warmFromDb_ends cfg env hview (fun _ hrow => hkept _ (mem_view hrow)) hwarmed).after
    (fun _ _ h => h) fun _ _ h => h

end Redis

/-! ## Runs -/

section Runs

variable {cfg : Config} {tk : Toolkit F}

/-- The rows of the beginning are as they were, or all are filled in. -/
structure Kept (cfg : Config) (tk : Toolkit F) (regs : List Nat) (init : List (Entry F))
    (s : Deployment F) : Prop where
  ids : (s.table.map Entry.id).Nodup
  job : ∀ j, s.job = some j → Covers cfg tk s.table j
  table : ∃ stored, (∀ e ∈ stored, e.contentHash.isSome = true) ∧
    (s.table = init ++ stored ∨ s.table = init.map (fill cfg tk) ++ stored)
  redis : Registered regs s.table s.redis

/-- What a step changes. -/
inductive Stepped (cfg : Config) (tk : Toolkit F) (s : Deployment F) :
    Action F → Deployment F → Prop
  | start : Stepped cfg tk s .start
      { s with job := some ⟨s.table.filter fun e => e.contentHash.isNone, []⟩ }
  | next {e : Entry F} {rest : List (Entry F)} {updates : List (Int × Nat)}
      (hjob : s.job = some ⟨e :: rest, updates⟩) :
      Stepped cfg tk s .next { s with job := some (Job.turn cfg tk e rest updates) }
  | commit {updates : List (Int × Nat)} (hjob : s.job = some ⟨[], updates⟩) :
      Stepped cfg tk s .commit { s with table := updates.foldl setHash s.table, job := none }
  | abort : Stepped cfg tk s .abort { s with job := none }
  | store {e : Entry F} (hid : e.id ∉ s.table.map Entry.id)
      (hsome : e.contentHash.isSome = true) :
      Stepped cfg tk s (.store e) { s with table := s.table ++ [e] }
  | index (chash : Nat) (env : Surroundings) : Stepped cfg tk s (.index chash env)
      { s with redis := after (index cfg env 0 chash) s.redis }
  | warm (env : Surroundings) :
      Stepped cfg tk s (.warm env) { s with redis := after (warmFromDb cfg env) s.view }
  | expire {key : Str} (hvolatile : s.redis.volatile key = true) :
      Stepped cfg tk s (.expire key) { s with redis := s.redis.dropKey key }

theorem stepped_of_step {s t : Deployment F} {a : Action F} (h : step cfg tk s a = some t) :
    Stepped cfg tk s a t := by
  cases a with
  | start =>
    simp only [step] at h
    split at h
    · cases h
    · cases h
      exact .start
  | next =>
    simp only [step] at h
    split at h
    · rename_i hjob
      cases h
      exact .next hjob
    · cases h
  | commit =>
    simp only [step] at h
    split at h
    · rename_i hjob
      cases h
      exact .commit hjob
    · cases h
  | abort =>
    simp only [step] at h
    split at h
    · cases h
      exact .abort
    · cases h
  | store e =>
    simp only [step] at h
    split at h
    · rename_i hfresh
      cases h
      exact .store hfresh.1 hfresh.2
    · cases h
  | index chash env =>
    cases h
    exact .index chash env
  | warm env =>
    cases h
    exact .warm env
  | expire key =>
    simp only [step] at h
    split at h
    · rename_i hvolatile
      cases h
      exact .expire hvolatile
    · cases h

/-- A fingerprint that is there stays when the others are filled in. -/
theorem mem_map_fill {table : List (Entry F)} {chash : Nat}
    (h : some chash ∈ table.map Entry.contentHash) :
    some chash ∈ (table.map (fill cfg tk)).map Entry.contentHash := by
  obtain ⟨e, he, hchash⟩ := List.mem_map.mp h
  exact List.mem_map.mpr ⟨fill cfg tk e, List.mem_map_of_mem he, fingerprint_of_some hchash⟩

theorem map_id_fill (table : List (Entry F)) :
    (table.map (fill cfg tk)).map Entry.id = table.map Entry.id := by
  rw [List.map_map]
  rfl

theorem isSome_concat {stored : List (Entry F)} {e : Entry F}
    (hstored : ∀ e' ∈ stored, e'.contentHash.isSome = true) (hsome : e.contentHash.isSome = true) :
    ∀ e' ∈ stored ++ [e], e'.contentHash.isSome = true := by
  intro e' he'
  rcases List.mem_append.mp he' with he' | he'
  · exact hstored e' he'
  · exact List.mem_singleton.mp he' ▸ hsome

/-- Filling in the rows of a table that is partly filled in. -/
theorem map_fill_append {init stored : List (Entry F)} {table : List (Entry F)}
    (hstored : ∀ e ∈ stored, e.contentHash.isSome = true)
    (htable : table = init ++ stored ∨ table = init.map (fill cfg tk) ++ stored) :
    table.map (fill cfg tk) = init.map (fill cfg tk) ++ stored := by
  rcases htable with rfl | rfl
  · rw [List.map_append, map_fill_of_isSome hstored]
  · rw [List.map_append, map_fill_of_isSome hstored, List.map_map]
    congr 1
    exact List.map_congr_left fun e _ => fill_fill e

theorem kept_step {regs : List Nat} {init : List (Entry F)} (httl : cfg.neardupTtl = 0)
    {s t : Deployment F} {a : Action F} (hs : Kept cfg tk regs init s)
    (ha : ∀ chash, a.registers = some chash → chash ∈ regs) (h : step cfg tk s a = some t) :
    Kept cfg tk regs init t := by
  cases stepped_of_step h with
  | start =>
    refine ⟨hs.ids, fun j hj => ?_, hs.table, hs.redis⟩
    cases hj
    exact covers_start s.table
  | next hjob =>
    refine ⟨hs.ids, fun j hj => ?_, hs.table, hs.redis⟩
    cases hj
    exact (hs.job _ hjob).turn
  | commit hjob =>
    have hfilled := (hs.job _ hjob).commit hs.ids
    obtain ⟨stored, hstored, htable⟩ := hs.table
    refine ⟨?_, fun j hj => ?_, ⟨stored, hstored, Or.inr ?_⟩, ?_⟩
    · rw [hfilled, map_id_fill]
      exact hs.ids
    · cases hj
    · exact hfilled.trans (map_fill_append hstored htable)
    · rw [hfilled]
      exact hs.redis.mono fun _ hmem => mem_map_fill hmem
  | abort =>
    refine ⟨hs.ids, fun j hj => ?_, hs.table, hs.redis⟩
    cases hj
  | @store e hid hsome =>
    obtain ⟨stored, hstored, htable⟩ := hs.table
    refine ⟨?_, fun j hj => (hs.job j hj).store hsome,
      ⟨stored ++ [e], isSome_concat hstored hsome, ?_⟩, ?_⟩
    · rw [List.map_append, List.map_singleton]
      exact List.nodup_append.mpr ⟨hs.ids, List.nodup_singleton _, fun i hi j hj heq =>
        hid (List.mem_singleton.mp hj ▸ heq ▸ hi)⟩
    · rcases htable with htable | htable
      · exact Or.inl (by rw [htable, List.append_assoc])
      · exact Or.inr (by rw [htable, List.append_assoc])
    · refine hs.redis.mono fun chash hmem => ?_
      rw [List.map_append]
      exact List.mem_append_left _ hmem
  | index chash env =>
    have hknown : Known regs s.table chash := Or.inl (ha chash rfl)
    exact ⟨hs.ids, hs.job, hs.table,
      after_index (keptByIndex_registered httl hknown) hs.redis env⟩
  | warm env =>
    exact ⟨hs.ids, hs.job, hs.table, after_warm (s := s)
      (fun _ hmem => keptByIndex_registered httl (Or.inr hmem)) (fun _ hu => hu) hs.redis env⟩
  | @expire key hvolatile =>
    rw [hs.redis.2 key] at hvolatile
    cases hvolatile

/-- After a commit: all rows of the beginning are filled in, and they are found once the
index is complete. -/
structure Filled (cfg : Config) (tk : Toolkit F) (regs : List Nat) (init : List (Entry F))
    (s : Deployment F) : Prop where
  kept : Kept cfg tk regs init s
  table : ∃ stored, (∀ e ∈ stored, e.contentHash.isSome = true) ∧
    s.table = init.map (fill cfg tk) ++ stored
  found : s.redis.warmed = true → ∀ e ∈ init, ∀ chash, fingerprint cfg tk e = some chash →
    Indexed cfg s.redis chash

theorem Filled.mem {regs : List Nat} {init : List (Entry F)} {s : Deployment F}
    (h : Filled cfg tk regs init s) {e : Entry F} (he : e ∈ init) {chash : Nat}
    (hchash : fingerprint cfg tk e = some chash) :
    some chash ∈ s.table.map Entry.contentHash := by
  obtain ⟨stored, -, htable⟩ := h.table
  refine List.mem_map.mpr ⟨fill cfg tk e, ?_, hchash⟩
  rw [htable]
  exact List.mem_append_left _ (List.mem_map_of_mem he)

/-- The first commit. -/
theorem filled_of_commit {regs : List Nat} {init : List (Entry F)} (httl : cfg.neardupTtl = 0)
    {s t : Deployment F} (hs : Kept cfg tk regs init s) (h : step cfg tk s .commit = some t)
    (hcold : s.redis.warmed = false) : Filled cfg tk regs init t := by
  refine ⟨kept_step httl hs (fun chash ha => ?_) h, ?_, fun hwarmed => ?_⟩
  · cases ha
  · cases stepped_of_step h with
    | commit hjob =>
      obtain ⟨stored, hstored, htable⟩ := hs.table
      exact ⟨stored, hstored,
        ((hs.job _ hjob).commit hs.ids).trans (map_fill_append hstored htable)⟩
  · cases stepped_of_step h with
    | commit hjob =>
      rw [hcold] at hwarmed
      cases hwarmed

theorem keptByIndex_indexed (chash h : Nat) :
    KeptByIndex cfg chash fun u : State F => Indexed cfg u h :=
  ⟨fun _ _ _ hu key hkey => mem_buckets_sadd.mpr (Or.inl (hu key hkey)), fun _ _ _ hu => hu⟩

theorem filled_step {regs : List Nat} {init : List (Entry F)} (httl : cfg.neardupTtl = 0)
    {s t : Deployment F} {a : Action F} (hs : Filled cfg tk regs init s)
    (ha : ∀ chash, a.registers = some chash → chash ∈ regs) (h : step cfg tk s a = some t) :
    Filled cfg tk regs init t := by
  have hkept := kept_step httl hs.kept ha h
  cases stepped_of_step h with
  | start => exact ⟨hkept, hs.table, hs.found⟩
  | next hjob => exact ⟨hkept, hs.table, hs.found⟩
  | commit hjob =>
    obtain ⟨stored, hstored, htable⟩ := hs.table
    refine ⟨hkept, ⟨stored, hstored, ?_⟩, hs.found⟩
    exact ((hs.kept.job _ hjob).commit hs.kept.ids).trans
      (map_fill_append hstored (Or.inr htable))
  | abort => exact ⟨hkept, hs.table, hs.found⟩
  | @store e hid hsome =>
    obtain ⟨stored, hstored, htable⟩ := hs.table
    refine ⟨hkept, ⟨stored ++ [e], isSome_concat hstored hsome, ?_⟩, hs.found⟩
    rw [htable, List.append_assoc]
  | index chash env =>
    refine ⟨hkept, hs.table, fun hwarmed e he h' hprint => ?_⟩
    have hsame := after_index (keptByIndex_warmed cfg chash s.redis.warmed) rfl env
    have hindexed := hs.found (hsame ▸ hwarmed) e he h' hprint
    exact after_index (keptByIndex_indexed chash h') hindexed env
  | warm env =>
    refine ⟨hkept, hs.table, fun hwarmed e he h' hprint => ?_⟩
    have hcomplete := (warmFromDb_complete cfg env s.view).after (fun _ _ h => h) fun _ _ h => h
    rcases hcomplete hwarmed with hbefore | hall
    · exact after_warm (s := s) (fun chash _ => keptByIndex_indexed chash h') (fun _ hu => hu)
        (hs.found hbefore e he h' hprint) env
    · obtain ⟨row, hrow, rfl⟩ := mem_view_of_some (hs.mem he hprint)
      exact hall row hrow
  | @expire key hvolatile =>
    rw [hs.kept.redis.2 key] at hvolatile
    cases hvolatile

end Runs

/-- A database with rows of both kinds, and an index that was never built. -/
structure Fresh (cfg : Config) (s : Deployment F) : Prop where
  ids : (s.table.map Entry.id).Nodup
  bounded : ∀ e ∈ s.table, ∀ chash, e.contentHash = some chash → chash < 2 ^ cfg.simhashBits
  idle : s.job = none
  empty : ∀ key, s.redis.buckets key = []
  lasting : ∀ key, s.redis.volatile key = false

theorem kept_of_fresh {cfg : Config} {tk : Toolkit F} {s : Deployment F} (h : Fresh cfg s)
    (regs : List Nat) : Kept cfg tk regs s.table s := by
  refine ⟨h.ids, fun j hj => ?_, ⟨[], nofun, Or.inl (List.append_nil _).symm⟩,
    fun key raw hraw => ?_, h.lasting⟩
  · rw [h.idle] at hj
    cases hj
  · rw [h.empty key] at hraw
    cases hraw

/-- When a backfill is committed before the index is first completed, all old rows are
filled in, and once the index is complete the lookup finds each of them; what it finds is a
stored row or was registered by the processor. -/
theorem found_after_backfill (cfg : Config) (tk : Toolkit F) (hcfg : BandsDivide cfg)
    (hH : cfg.simhashHamming ≤ cfg.simhashBands - 1) (httl : cfg.neardupTtl = 0)
    {init t : Deployment F} (before later : List (Action F)) (hfresh : Fresh cfg init)
    (hcold : ∀ s, run (step cfg tk) init before = some s → s.redis.warmed = false)
    (hrun : run (step cfg tk) init (before ++ .commit :: later) = some t)
    (hwarmed : t.redis.warmed = true) (env : Surroundings) (i : MsgId) (text : Str)
    (hreads : ∀ band, env.plan (.smembers i band) = .returns) :
    (∃ stored, (∀ e ∈ stored, e.contentHash.isSome = true) ∧
      t.table = init.table.map (fill cfg tk) ++ stored) ∧
    ∃ dup, Returns (isDuplicate cfg tk env i text) t.redis
        (dup, simhash tk text cfg.simhashBits) t.redis ∧
      (∀ e ∈ init.table, ∀ chash, fingerprint cfg tk e = some chash →
        hamming (simhash tk text cfg.simhashBits) chash ≤ cfg.simhashHamming → dup = true) ∧
      (dup = true → ∃ chash,
        hamming (simhash tk text cfg.simhashBits) chash ≤ cfg.simhashHamming ∧
        Known ((before ++ later).filterMap Action.registers) t.table chash) := by
  rw [run_append] at hrun
  obtain ⟨s, hs, hrun⟩ := Option.bind_eq_some_iff.mp hrun
  rw [run_cons] at hrun
  obtain ⟨u, hu, hrun⟩ := Option.bind_eq_some_iff.mp hrun
  have hregs : ∀ a ∈ before ++ later, ∀ chash, a.registers = some chash →
      chash ∈ (before ++ later).filterMap Action.registers :=
    fun a ha chash hchash => List.mem_filterMap.mpr ⟨a, ha, hchash⟩
  have hkept : Kept cfg tk ((before ++ later).filterMap Action.registers) init.table s :=
    run_invariant (fun _ _ _ hk ha => kept_step httl hk ha) (kept_of_fresh hfresh _)
      (along_of_mem fun a ha => hregs a (List.mem_append_left _ ha)) hs
  have hfilled : Filled cfg tk ((before ++ later).filterMap Action.registers) init.table t :=
    run_invariant (fun _ _ _ hk ha => filled_step httl hk ha)
      (filled_of_commit httl hkept hu (hcold s hs))
      (along_of_mem fun a ha => hregs a (List.mem_append_right _ ha)) hrun
  have hlookup : Ends (isDuplicate cfg tk env i text) t.redis _ fun _ _ => False :=
    ends_mono (isDuplicate_ends cfg tk env i text t.redis) (fun _ _ h => h) fun _ _ h =>
      h.2.elim (fun hbad => hbad hcfg) fun ⟨band, hfail⟩ => hfail (hreads band)
  obtain ⟨_, _, hdup, rfl, -, rfl⟩ := hlookup.returns
  refine ⟨hfilled.table, _, hdup, fun e he chash hprint hnear => ?_, fun hcaptured => ?_⟩
  · have hcomplete : Complete cfg t.redis (· = chash) := by
      intro h hh
      obtain rfl : h = chash := hh
      exact hfilled.found hwarmed e he h hprint
    exact captured_complete hcfg hH hcomplete rfl (simhash_lt tk text _)
      (fingerprint_lt (hfresh.bounded e he) hprint) hnear
  · obtain ⟨chash, hknown, hnear⟩ := captured_sound hfilled.kept.redis.1 hcaptured
    exact ⟨chash, hnear, hknown⟩

/-- An old row with one word and no fingerprint. -/
def oldEntry : Entry TextFloat where
  id := 1
  row :=
    { url := lit "https://dev.to/a/1"
      urlHash := lit "1"
      title := .null
      contentMd := lit "word"
      author := .null
      publishedAt := .null
      tags := .null
      sourceType := .str (lit "devto")
      language := lit "en"
      contentHash := 0
      qualityScore := ⟨lit "0.5", by decide⟩ }
  contentHash := none

def oldDatabase : Deployment TextFloat := ⟨[oldEntry], none, .initial TextFloat⟩

def wordToolkit : Toolkit TextFloat := .ofTables [(lit "word", 5)] [] []

/-- The old row is found by its own text. -/
theorem found_after_backfill_word :
    ∃ t, run (step .standard wordToolkit) oldDatabase
        ([.start, .next] ++ .commit :: [.warm (.calm (lit "en"))]) = some t ∧
      Returns (isDuplicate .standard wordToolkit (.calm (lit "en")) 0 (lit "word")) t.redis
        (true, 5) t.redis := by
  have hfresh : Fresh .standard oldDatabase := by
    refine ⟨by decide, fun e he chash hchash => ?_, rfl, fun _ => rfl, fun _ => rfl⟩
    obtain rfl := List.mem_singleton.mp he
    cases hchash
  obtain ⟨t, hrun, hwarmed⟩ : ∃ t, run (step .standard wordToolkit) oldDatabase
      ([.start, .next] ++ .commit :: [.warm (.calm (lit "en"))]) = some t ∧
      t.redis.warmed = true := ⟨_, rfl, by decide +kernel⟩
  obtain ⟨-, dup, hdup, hfound, -⟩ := found_after_backfill .standard wordToolkit
    ⟨by decide, by decide⟩ (by decide) rfl [.start, .next] [.warm (.calm (lit "en"))] hfresh
    (fun s hs => by cases hs; rfl) hrun hwarmed (.calm (lit "en")) 0 (lit "word") fun _ => rfl
  have hword : simhash wordToolkit (lit "word") Config.standard.simhashBits = 5 := by
    decide +kernel
  have hprint : fingerprint .standard wordToolkit oldEntry = some 5 := by decide +kernel
  rw [hword] at hdup hfound
  rw [hfound oldEntry List.mem_cons_self 5 hprint (by decide)] at hdup
  exact ⟨t, hrun, hdup⟩

end WebSpider.Processor.Backfill
