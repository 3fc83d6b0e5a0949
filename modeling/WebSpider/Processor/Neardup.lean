import WebSpider.Processor.Dedupe

/-!
# The near-duplicate index

`neardup.py` over the sets Redis keeps: a fingerprint is registered under one
key for each of its bands, and a text is looked up under the keys of its own
fingerprint. `Sound` and `Complete` relate the sets to the fingerprints they
stand for; the keys and the members are injective in what they name, so the
two together make the lookup exact (`captured_iff`).
-/

namespace WebSpider.Processor

open Text Json Bits Effects

variable {F : Type}

/-! ## Definitions -/

/-- `f"{_PREFIX}:{band_idx}:{bucket_val}"` -/
def bandKey (bandIdx bucketVal : Nat) : Str :=
  lit "simhash:band" ++ 58 :: (decimal bandIdx ++ 58 :: decimal bucketVal)

/-- A member is an indexed fingerprint within the threshold. -/
def nearMember (cfg : Config) (chash : Nat) (raw : Str) : Bool :=
  match readDecimal raw with
  | none => false
  | some existing => decide (hamming chash existing ≤ cfg.simhashHamming)

/-- The loop of `is_duplicate` over the bands. -/
def searchBands (cfg : Config) (env : Surroundings) (i : MsgId) (chash : Nat) :
    List (Nat × Nat) → Prog (State F) PyExn Bool
  | [] => pure false
  | (bv, band) :: rest => do
    let members ← query .redisError (env.plan (.smembers i band)) fun s =>
      s.buckets (bandKey band bv)
    if members.any (nearMember cfg chash) then pure true
    else searchBands cfg env i chash rest

def isDuplicate (cfg : Config) (tk : Toolkit F) (env : Surroundings) (i : MsgId) (text : Str) :
    Prog (State F) PyExn (Bool × Nat) := do
  let chash := simhash tk text cfg.simhashBits
  let keys ← Prog.lift (bucketKeys chash cfg.simhashBits cfg.simhashBands)
  let dup ← searchBands cfg env i chash keys.zipIdx
  pure (dup, chash)

/-- The commands that register a fingerprint under its keys. -/
def indexCmds (cfg : Config) (chash : Nat) (keys : List Nat) : List (State F → State F) :=
  keys.zipIdx.flatMap fun x =>
    State.sadd (bandKey x.2 x.1) (decimal chash) ::
      if 0 < cfg.neardupTtl then [State.expire (bandKey x.2 x.1)] else []

/-- `index(r, chash)`, the `k`-th of a batch. -/
def index (cfg : Config) (env : Surroundings) (k chash : Nat) : Prog (State F) PyExn Unit := do
  let keys ← Prog.lift (bucketKeys chash cfg.simhashBits cfg.simhashBands)
  pipeline .redisError (env.plan (.index k)) (indexCmds cfg chash keys)

/-- One row of the loop of `warm_from_db`: the commands so far, executed after
every 500 rows. -/
def warmRow (cfg : Config) (env : Surroundings) (acc : List (State F → State F) × Nat)
    (chash : Nat) : Prog (State F) PyExn (List (State F → State F) × Nat) := do
  let keys ← Prog.lift (bucketKeys chash cfg.simhashBits cfg.simhashBands)
  let cmds := acc.1 ++ indexCmds cfg chash keys
  let count := acc.2 + 1
  if count % 500 = 0 then do
    pipeline .redisError (env.plan (.warmPage count)) cmds
    pure ([], count)
  else pure (cmds, count)

def warmFromDb (cfg : Config) (env : Surroundings) : Prog (State F) PyExn Unit := do
  let warmed ← query .redisError (env.plan .warmExists) State.warmed
  if warmed then pure ()
  else do
    let hashes ← query .databaseError (env.plan .warmSelect) fun s =>
      s.articles.map Row.contentHash
    let acc ← hashes.foldlM (warmRow cfg env) ([], 0)
    pipeline .redisError (env.plan .warmRest) acc.1
    call .redisError (env.plan .warmSentinel) fun s => ((), { s with warmed := true })

/-! ## Keys and members -/

theorem bandKey_injective {i j a b : Nat} (h : bandKey i a = bandKey j b) : i = j ∧ a = b := by
  have htail := List.append_cancel_left h
  have hsep : (58 : Nat) ∉ decimal i ∧ (58 : Nat) ∉ decimal j :=
    ⟨notMem_decimal (by decide) i, notMem_decimal (by decide) j⟩
  obtain ⟨hi, ha⟩ := append_sep_inj hsep.1 hsep.2 (List.cons.inj htail).2
  exact ⟨decimal_injective hi, decimal_injective ha⟩

@[simp] theorem nearMember_decimal (cfg : Config) (chash h : Nat) :
    nearMember cfg chash (decimal h) = decide (hamming chash h ≤ cfg.simhashHamming) := by
  simp [nearMember]

/-- The keys a fingerprint is registered under. -/
def keysOf (cfg : Config) (chash : Nat) : List Str :=
  match bucketKeys chash cfg.simhashBits cfg.simhashBands with
  | .ok keys => keys.zipIdx.map fun x => bandKey x.2 x.1
  | .error _ => []

/-- `bucket_keys` does not raise: the bands divide the bits. -/
def BandsDivide (cfg : Config) : Prop :=
  cfg.simhashBands ≠ 0 ∧ cfg.simhashBits % cfg.simhashBands = 0

theorem mem_keysOf {cfg : Config} {h : Nat} (hcfg : BandsDivide cfg)
    (hh : h < 2 ^ cfg.simhashBits) {key : Str} :
    key ∈ keysOf cfg h ↔ ∃ i < cfg.simhashBands,
      key = bandKey i (digit (cfg.simhashBits / cfg.simhashBands) h (cfg.simhashBands - 1 - i)) := by
  have hkeys := bucketKeys_eq (Nat.pos_of_ne_zero hcfg.1) (Nat.dvd_of_mod_eq_zero hcfg.2) hh
  simp only [keysOf, hkeys, List.mem_map]
  constructor
  · rintro ⟨⟨bv, i⟩, hmem, rfl⟩
    have hget := List.mem_zipIdx_iff_getElem?.mp hmem
    simp only [List.getElem?_map, Option.map_eq_some_iff] at hget
    obtain ⟨j, hj, rfl⟩ := hget
    obtain ⟨hlt, rfl⟩ := List.getElem?_eq_some_iff.mp hj
    rw [List.length_range] at hlt
    exact ⟨i, hlt, by simp⟩
  · rintro ⟨i, hi, rfl⟩
    refine ⟨(_, i), List.mem_zipIdx_iff_getElem?.mpr ?_, rfl⟩
    rw [List.getElem?_map, List.getElem?_range hi]
    rfl

/-! ## Lookup -/

/-- The lookup finds a member within the threshold of the fingerprint. -/
def captured (cfg : Config) (s : State F) (chash : Nat) : Bool :=
  (keysOf cfg chash).any fun key => (s.buckets key).any (nearMember cfg chash)

theorem searchBands_ends (cfg : Config) (env : Surroundings) (i : MsgId) (chash : Nat)
    (bands : List (Nat × Nat)) (s : State F) :
    Ends (searchBands cfg env i chash bands) s
      (fun dup t => t = s ∧ dup = (bands.map fun x => bandKey x.2 x.1).any fun key =>
        (s.buckets key).any (nearMember cfg chash))
      (fun _ t => t = s ∧ ∃ band, env.plan (.smembers i band) ≠ .returns) := by
  induction bands with
  | nil => exact ends_pure ⟨rfl, rfl⟩
  | cons x rest ih =>
    obtain ⟨bv, band⟩ := x
    refine ends_bind (ends_query (fun _ => ?_) fun hfail => ⟨rfl, band, hfail⟩)
    rw [List.map_cons, List.any_cons]
    by_cases hany : (s.buckets (bandKey band bv)).any (nearMember cfg chash) = true
    · rw [if_pos hany, hany, Bool.true_or]
      exact ends_pure ⟨rfl, rfl⟩
    · rw [if_neg hany, Bool.eq_false_iff.mpr hany, Bool.false_or]
      exact ih

/-- `is_duplicate` leaves the state alone and answers whether the fingerprint is
captured. It raises only when a read fails or the bands do not divide the bits. -/
theorem isDuplicate_ends (cfg : Config) (tk : Toolkit F) (env : Surroundings) (i : MsgId)
    (text : Str) (s : State F) :
    Ends (isDuplicate cfg tk env i text) s
      (fun r t => t = s ∧ BandsDivide cfg ∧
        r = (captured cfg s (simhash tk text cfg.simhashBits), simhash tk text cfg.simhashBits))
      (fun _ t => t = s ∧
        (¬ BandsDivide cfg ∨ ∃ band, env.plan (.smembers i band) ≠ .returns)) := by
  refine ends_bind (ends_lift (fun keys hkeys => ?_) fun e he => ⟨rfl, Or.inl fun hcfg => ?_⟩)
  · refine ends_bind (ends_mono (searchBands_ends cfg env i _ keys.zipIdx s) ?_
      fun _ _ he => ⟨he.1, Or.inr he.2⟩)
    rintro dup t ⟨rfl, rfl⟩
    refine ends_pure ⟨rfl, bucketKeys_ok.mp ⟨keys, hkeys⟩, ?_⟩
    simp only [captured, keysOf, hkeys]
  · obtain ⟨keys, hkeys⟩ := bucketKeys_ok.mpr hcfg
    rw [hkeys] at he
    cases he

/-! ## What the index stands for -/

/-- Every member of a bucket is one of the fingerprints. -/
def Sound (s : State F) (S : Nat → Prop) : Prop :=
  ∀ key raw, raw ∈ s.buckets key → ∃ h, S h ∧ raw = decimal h

/-- Every fingerprint is a member of each of its buckets. -/
def Complete (cfg : Config) (s : State F) (S : Nat → Prop) : Prop :=
  ∀ h, S h → ∀ key ∈ keysOf cfg h, decimal h ∈ s.buckets key

theorem captured_sound {cfg : Config} {s : State F} {S : Nat → Prop} {c : Nat}
    (hs : Sound s S) (hc : captured cfg s c = true) :
    ∃ h, S h ∧ hamming c h ≤ cfg.simhashHamming := by
  obtain ⟨key, -, hany⟩ := List.any_eq_true.mp hc
  obtain ⟨raw, hraw, hnear⟩ := List.any_eq_true.mp hany
  obtain ⟨h, hS, rfl⟩ := hs key raw hraw
  exact ⟨h, hS, by simpa using hnear⟩

/-- A fingerprint within the threshold shares a band, hence a bucket. -/
theorem captured_complete {cfg : Config} {s : State F} {S : Nat → Prop} {c h : Nat}
    (hcfg : BandsDivide cfg) (hH : cfg.simhashHamming ≤ cfg.simhashBands - 1)
    (hs : Complete cfg s S) (hS : S h) (hc : c < 2 ^ cfg.simhashBits)
    (hh : h < 2 ^ cfg.simhashBits) (hnear : hamming c h ≤ cfg.simhashHamming) :
    captured cfg s c = true := by
  have hpos : 0 < cfg.simhashBands := Nat.pos_of_ne_zero hcfg.1
  have hbits : cfg.simhashBands * (cfg.simhashBits / cfg.simhashBands) = cfg.simhashBits :=
    Nat.mul_div_cancel' (Nat.dvd_of_mod_eq_zero hcfg.2)
  obtain ⟨i, hi, hdigit⟩ := exists_digit_eq (by rwa [hbits]) (by rwa [hbits])
    (show hamming c h < cfg.simhashBands by omega)
  -- the untouched digit `i` is band `bands - 1 - i` of both fingerprints
  have hband : cfg.simhashBands - 1 - (cfg.simhashBands - 1 - i) = i := by omega
  refine List.any_eq_true.mpr ⟨bandKey (cfg.simhashBands - 1 - i)
    (digit (cfg.simhashBits / cfg.simhashBands) c i), ?_, ?_⟩
  · exact (mem_keysOf hcfg hc).mpr ⟨cfg.simhashBands - 1 - i, by omega, by rw [hband]⟩
  · refine List.any_eq_true.mpr ⟨decimal h, hs h hS _ ?_, by simpa using hnear⟩
    exact (mem_keysOf hcfg hh).mpr ⟨cfg.simhashBands - 1 - i, by omega, by rw [hband, hdigit]⟩

/-! ## Registration -/

@[simp] theorem mem_buckets_sadd {key member k raw : Str} {s : State F} :
    raw ∈ (s.sadd key member).buckets k ↔ raw ∈ s.buckets k ∨ (k = key ∧ raw = member) := by
  simp only [State.sadd]
  split
  · rename_i h
    obtain ⟨rfl, -⟩ := h
    simp
  · rename_i h
    constructor
    · exact Or.inl
    · rintro (hraw | ⟨rfl, rfl⟩)
      · exact hraw
      · by_contra hnot
        exact h ⟨rfl, hnot⟩

@[simp] theorem buckets_expire (key : Str) (s : State F) :
    (s.expire key).buckets = s.buckets := rfl

theorem mem_indexCmds {cfg : Config} {chash : Nat} {keys : List Nat} {c : State F → State F}
    (hc : c ∈ indexCmds cfg chash keys) :
    ∃ x ∈ keys.zipIdx, c = State.sadd (bandKey x.2 x.1) (decimal chash) ∨
      (0 < cfg.neardupTtl ∧ c = State.expire (bandKey x.2 x.1)) := by
  obtain ⟨x, hx, hcx⟩ := List.mem_flatMap.mp hc
  refine ⟨x, hx, ?_⟩
  rcases List.mem_cons.mp hcx with hcx | hcx
  · exact Or.inl hcx
  · split at hcx
    · rename_i httl
      exact Or.inr ⟨httl, List.mem_singleton.mp hcx⟩
    · cases hcx

/-- A property that registering a fingerprint keeps. -/
def KeptByIndex (cfg : Config) (chash : Nat) (I : State F → Prop) : Prop :=
  (∀ key ∈ keysOf cfg chash, ∀ s, I s → I (s.sadd key (decimal chash))) ∧
    (0 < cfg.neardupTtl → ∀ key s, I s → I (s.expire key))

theorem KeptByIndex.cmd {cfg : Config} {chash : Nat} {I : State F → Prop} {keys : List Nat}
    (hI : KeptByIndex cfg chash I)
    (hkeys : bucketKeys chash cfg.simhashBits cfg.simhashBands = .ok keys)
    {c : State F → State F} (hc : c ∈ indexCmds cfg chash keys) {s : State F} (hs : I s) :
    I (c s) := by
  obtain ⟨x, hx, rfl | ⟨httl, rfl⟩⟩ := mem_indexCmds hc
  · refine hI.1 _ ?_ s hs
    simp only [keysOf, hkeys]
    exact List.mem_map_of_mem hx
  · exact hI.2 httl _ s hs

/-- Membership of a bucket survives every registration. -/
theorem keptByIndex_mem (cfg : Config) (chash : Nat) (k raw : Str) :
    KeptByIndex cfg chash fun s : State F => raw ∈ s.buckets k :=
  ⟨fun _ _ _ hs => mem_buckets_sadd.mpr (Or.inl hs), fun _ _ _ hs => hs⟩

theorem mem_execAll_indexCmds {cfg : Config} {chash : Nat} {keys : List Nat}
    (hkeys : bucketKeys chash cfg.simhashBits cfg.simhashBands = .ok keys) (s : State F) :
    ∀ key ∈ keysOf cfg chash,
      decimal chash ∈ (execAll (indexCmds cfg chash keys) s).buckets key := by
  intro key hkey
  simp only [keysOf, hkeys, List.mem_map] at hkey
  obtain ⟨x, hx, rfl⟩ := hkey
  have hcmd : State.sadd (bandKey x.2 x.1) (decimal chash) ∈
      indexCmds (F := F) cfg chash keys :=
    List.mem_flatMap.mpr ⟨x, hx, List.mem_cons_self⟩
  obtain ⟨before, later, hsplit⟩ := List.append_of_mem hcmd
  rw [hsplit, execAll, List.foldl_append, List.foldl_cons]
  refine execAll_invariant (I := fun t : State F => decimal chash ∈ t.buckets (bandKey x.2 x.1))
    (fun c hc t ht => ?_) (mem_buckets_sadd.mpr (Or.inr ⟨rfl, rfl⟩))
  refine (keptByIndex_mem cfg chash _ _).cmd hkeys ?_ ht
  rw [hsplit]
  exact List.mem_append_right _ (List.mem_cons_of_mem _ hc)

/-- `index` keeps what registrations keep, and when it returns the fingerprint
is a member of each of its buckets. -/
theorem index_ends {cfg : Config} {env : Surroundings} {k chash : Nat} {I : State F → Prop}
    (hI : KeptByIndex cfg chash I) {s : State F} (hs : I s) :
    Ends (index cfg env k chash) s
      (fun _ t => I t ∧ ∀ key ∈ keysOf cfg chash, decimal chash ∈ t.buckets key)
      (fun _ t => I t ∧ (¬ BandsDivide cfg ∨ env.plan (.index k) ≠ .returns)) := by
  refine ends_bind (ends_lift (fun keys hkeys => ?_) fun e he => ⟨hs, Or.inl fun hcfg => ?_⟩)
  · exact ends_pipeline (fun c hc t ht => hI.cmd hkeys hc ht) hs
      (fun _ ht => ⟨ht, mem_execAll_indexCmds hkeys s⟩) fun t hfail ht => ⟨ht, Or.inr hfail⟩
  · obtain ⟨keys, hkeys⟩ := bucketKeys_ok.mpr hcfg
    rw [hkeys] at he
    cases he

/-- Registering a fingerprint of `S` keeps the index sound. -/
theorem keptByIndex_sound (cfg : Config) {chash : Nat} {S : Nat → Prop} (hS : S chash) :
    KeptByIndex cfg chash fun s : State F => Sound s S := by
  refine ⟨fun key _ s hs k raw hraw => ?_, fun _ _ _ hs => hs⟩
  rcases mem_buckets_sadd.mp hraw with hraw | ⟨-, rfl⟩
  · exact hs k raw hraw
  · exact ⟨chash, hS, rfl⟩

theorem keptByIndex_complete (cfg : Config) (chash : Nat) (S : Nat → Prop) :
    KeptByIndex cfg chash fun s : State F => Complete cfg s S :=
  ⟨fun _ _ _ hs h hS k hk => mem_buckets_sadd.mpr (Or.inl (hs h hS k hk)), fun _ _ _ hs => hs⟩

/-! ## The index is exact -/

/-- A finite sequence of `index` calls, from the first. -/
def indexAll (cfg : Config) (env : Surroundings) (hashes : List Nat) : Prog (State F) PyExn Unit :=
  hashes.zipIdx.foldlM (fun _ x => index cfg env x.2 x.1) ()

theorem indexAll_ends {cfg : Config} {env : Surroundings} (hcfg : BandsDivide cfg)
    (henv : ∀ k, env.plan (.index k) = .returns) {s : State F} (hashes : List Nat)
    (hs : Sound s fun _ => False) :
    Ends (indexAll cfg env hashes) s
      (fun _ t => Sound t (· ∈ hashes) ∧ Complete cfg t (· ∈ hashes))
      (fun _ _ => False) := by
  refine ends_mono (ends_foldlM (fun done _ t => Sound t (· ∈ hashes) ∧
    Complete cfg t (· ∈ done.map Prod.fst)) ?_ ?_) ?_ fun _ _ he => he
  · refine ⟨fun key raw hraw => ?_, fun h hS => nomatch hS⟩
    obtain ⟨h, hfalse, -⟩ := hs key raw hraw
    exact hfalse.elim
  · rintro done ⟨h, k⟩ rest _ t hsplit ⟨hsound, hcomplete⟩
    have hmem : h ∈ hashes := by
      have hx : (h, k) ∈ hashes.zipIdx := by
        rw [hsplit]
        exact List.mem_append_right _ List.mem_cons_self
      exact List.fst_mem_of_mem_zipIdx hx
    have hkept : KeptByIndex cfg h fun s : State F =>
        Sound s (· ∈ hashes) ∧ Complete cfg s (· ∈ done.map Prod.fst) := by
      obtain ⟨hs₁, hs₂⟩ := keptByIndex_sound (F := F) cfg (S := (· ∈ hashes)) hmem
      obtain ⟨hc₁, hc₂⟩ := keptByIndex_complete (F := F) cfg h (· ∈ done.map Prod.fst)
      exact ⟨fun key hkey s hs => ⟨hs₁ key hkey s hs.1, hc₁ key hkey s hs.2⟩,
        fun httl key s hs => ⟨hs₂ httl key s hs.1, hc₂ httl key s hs.2⟩⟩
    refine ends_mono (index_ends hkept ⟨hsound, hcomplete⟩) ?_ ?_
    · rintro _ t' ⟨⟨hsound', hcomplete'⟩, hnew⟩
      refine ⟨hsound', fun h' hh' => ?_⟩
      rw [List.map_append, List.mem_append] at hh'
      rcases hh' with hh' | hh'
      · exact hcomplete' h' hh'
      · obtain rfl : h' = h := by simpa using hh'
        exact hnew
    · rintro _ t' ⟨-, hbad | hfail⟩
      · exact hbad hcfg
      · exact hfail (henv k)
  · rintro _ t ⟨hsound, hcomplete⟩
    refine ⟨hsound, fun h hh => hcomplete h ?_⟩
    rwa [List.zipIdx_map_fst]

/-- The lookup after any sequence of registrations in an empty index, none of
whose keys expired, answers exactly whether some registered fingerprint is
within the threshold. -/
theorem isDuplicate_exact (cfg : Config) (tk : Toolkit F) (env : Surroundings)
    (hbands : 1 ≤ cfg.simhashBands) (hdvd : cfg.simhashBands ∣ cfg.simhashBits)
    (hH : cfg.simhashHamming ≤ cfg.simhashBands - 1)
    (henv : ∀ site, env.plan site = .returns) (s : State F) (hempty : ∀ key, s.buckets key = [])
    (hashes : List Nat) (hhashes : ∀ h ∈ hashes, h < 2 ^ cfg.simhashBits) (i : MsgId)
    (text : Str) :
    ∃ t, Returns (indexAll cfg env hashes) s () t ∧
      ∃ dup, Returns (isDuplicate cfg tk env i text) t
        (dup, simhash tk text cfg.simhashBits) t ∧
      simhash tk text cfg.simhashBits < 2 ^ cfg.simhashBits ∧
      (dup = true ↔ ∃ h ∈ hashes,
        hamming (simhash tk text cfg.simhashBits) h ≤ cfg.simhashHamming) := by
  have hcfg : BandsDivide cfg := ⟨by omega, Nat.mod_eq_zero_of_dvd hdvd⟩
  have hsound : Sound s fun _ => False := by
    intro key raw hraw
    rw [hempty key] at hraw
    cases hraw
  obtain ⟨_, t, hindexed, hsound, hcomplete⟩ :=
    (indexAll_ends hcfg (fun k => henv _) hashes hsound).returns
  have hlookup : Ends (isDuplicate cfg tk env i text) t _ fun _ _ => False :=
    ends_mono (isDuplicate_ends cfg tk env i text t) (fun _ _ h => h) fun _ _ h =>
      h.2.elim (fun hbad => hbad hcfg) fun ⟨band, hfail⟩ => hfail (henv _)
  obtain ⟨_, _, hdup, rfl, -, rfl⟩ := hlookup.returns
  have hc := simhash_lt tk text cfg.simhashBits
  refine ⟨_, hindexed, _, hdup, hc, ?_, ?_⟩
  · exact captured_sound hsound
  · rintro ⟨h, hh, hnear⟩
    exact captured_complete hcfg hH hcomplete hh hc (hhashes h hh) hnear

/-- The empty text has fingerprint 0, two bits away from 5. -/
theorem isDuplicate_exact_empty :
    ∃ t, Returns (indexAll .standard (.calm (lit "en")) [5, 255]) (State.initial TextFloat) () t ∧
      ∃ dup, Returns (isDuplicate .standard (.ofTables [] [] []) (.calm (lit "en")) 0 []) t
        (dup, 0) t ∧ 0 < 2 ^ 64 ∧ (dup = true ↔ ∃ h ∈ [5, 255], hamming 0 h ≤ 3) :=
  isDuplicate_exact .standard (.ofTables [] [] []) (.calm (lit "en")) (by decide) (by decide)
    (by decide) (fun _ => rfl) (State.initial TextFloat) (fun _ => rfl) [5, 255]
    (by decide) 0 []

end WebSpider.Processor
