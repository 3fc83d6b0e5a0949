import WebSpider.Processor.Neardup

/-!
# The number of bands

The lookup reports a text when an indexed fingerprint within the threshold agrees with its
own on a whole band (`reports_iff`). Fewer bands are wider, so a fingerprint that agreed on
a narrow band can be missed. Nothing is missed exactly when the threshold is below the new
number of bands (`lower_bands_iff`).
-/

namespace WebSpider.Processor

open Text Json Bits Effects

variable {F : Type}

/-- The configuration with another `SIMHASH_BANDS`. -/
def Config.withBands (cfg : Config) (bands : Nat) : Config := { cfg with simhashBands := bands }

/-- The fingerprints are indexed and the text is then reported, both with `bands` bands. -/
def Reports (cfg : Config) (tk : Toolkit F) (env : Surroundings) (bands : Nat) (hashes : List Nat)
    (i : MsgId) (text : Str) : Prop :=
  ∃ t, Returns (indexAll (cfg.withBands bands) env hashes) (State.initial F) () t ∧
    Returns (isDuplicate (cfg.withBands bands) tk env i text) t
      (true, simhash tk text cfg.simhashBits) t

/-! ## Where a member is -/

/-- A member is only in the buckets of its own bands. -/
def Located (cfg : Config) (s : State F) : Prop :=
  ∀ key h, decimal h ∈ s.buckets key → key ∈ keysOf cfg h

theorem keptByIndex_located (cfg : Config) (chash : Nat) :
    KeptByIndex cfg chash fun s : State F => Located cfg s := by
  refine ⟨fun key hkey s hs k h hh => ?_, fun _ _ _ hs => hs⟩
  rcases mem_buckets_sadd.mp hh with hh | ⟨rfl, heq⟩
  · exact hs k h hh
  · rwa [decimal_injective heq]

/-- A sequence of `index` calls keeps what registrations keep. -/
theorem indexAll_keeps {cfg : Config} {env : Surroundings} {I : State F → Prop}
    (hI : ∀ h, KeptByIndex cfg h I) (hcfg : BandsDivide cfg)
    (henv : ∀ k, env.plan (.index k) = .returns) {s : State F} (hs : I s) (hashes : List Nat) :
    Ends (indexAll cfg env hashes) s (fun _ t => I t) (fun _ _ => False) := by
  apply ends_foldlM (fun _ _ t => I t) hs
  rintro _ ⟨h, k⟩ _ _ t _ ht
  apply ends_mono (index_ends (hI h) ht) (fun _ _ ht' => ht'.1)
  rintro _ _ ⟨-, hbad | hfail⟩
  · exact hbad hcfg
  · exact hfail (henv k)

/-- Two fingerprints agree on a band. -/
def ShareBand (bits bands a b : Nat) : Prop :=
  ∃ i < bands, digit (bits / bands) a i = digit (bits / bands) b i

theorem captured_iff {cfg : Config} {s : State F} {hashes : List Nat} (hcfg : BandsDivide cfg)
    (hsound : Sound s (· ∈ hashes)) (hcomplete : Complete cfg s (· ∈ hashes))
    (hlocated : Located cfg s) {c : Nat} (hc : c < 2 ^ cfg.simhashBits)
    (hhashes : ∀ h ∈ hashes, h < 2 ^ cfg.simhashBits) :
    captured cfg s c = true ↔ ∃ h ∈ hashes, hamming c h ≤ cfg.simhashHamming ∧
      ShareBand cfg.simhashBits cfg.simhashBands c h := by
  constructor
  · intro hcaptured
    obtain ⟨key, hkey, hany⟩ := List.any_eq_true.mp hcaptured
    obtain ⟨raw, hraw, hnear⟩ := List.any_eq_true.mp hany
    obtain ⟨h, hh, rfl⟩ := hsound key raw hraw
    obtain ⟨i, hi, hkeyc⟩ := (mem_keysOf hcfg hc).mp hkey
    obtain ⟨j, hj, hkeyh⟩ := (mem_keysOf hcfg (hhashes h hh)).mp (hlocated key h hraw)
    obtain ⟨rfl, hdigit⟩ := bandKey_injective (hkeyc.symm.trans hkeyh)
    exact ⟨h, hh, by simpa using hnear, _, by omega, hdigit⟩
  · rintro ⟨h, hh, hnear, i, hi, hdigit⟩
    -- digit `i` is band `bands - 1 - i`
    have hband : cfg.simhashBands - 1 - (cfg.simhashBands - 1 - i) = i := by omega
    have hkey (n : Nat) (hn : n < 2 ^ cfg.simhashBits) :
        bandKey (cfg.simhashBands - 1 - i) (digit (cfg.simhashBits / cfg.simhashBands) n i) ∈
          keysOf cfg n :=
      (mem_keysOf hcfg hn).mpr ⟨cfg.simhashBands - 1 - i, by omega, by rw [hband]⟩
    refine List.any_eq_true.mpr ⟨_, hkey c hc, List.any_eq_true.mpr ⟨decimal h, ?_, ?_⟩⟩
    · rw [hdigit]
      exact hcomplete h hh _ (hkey h (hhashes h hh))
    · simpa using hnear

/-- A text is reported for an indexed fingerprint within the threshold that agrees with
its own on a band. -/
theorem reports_iff {cfg : Config} {tk : Toolkit F} {env : Surroundings} {bands : Nat}
    {hashes : List Nat} {i : MsgId} {text : Str} (henv : ∀ site, env.plan site = .returns)
    (hhashes : ∀ h ∈ hashes, h < 2 ^ cfg.simhashBits) :
    Reports cfg tk env bands hashes i text ↔ BandsDivide (cfg.withBands bands) ∧
      ∃ h ∈ hashes, hamming (simhash tk text cfg.simhashBits) h ≤ cfg.simhashHamming ∧
        ShareBand cfg.simhashBits bands (simhash tk text cfg.simhashBits) h := by
  have hlookup (t : State F) := isDuplicate_ends (cfg.withBands bands) tk env i text t
  by_cases hcfg : BandsDivide (cfg.withBands bands)
  · rw [and_iff_right hcfg]
    have hempty : Sound (State.initial F) fun _ => False := nofun
    have hempty' : Located (cfg.withBands bands) (State.initial F) := nofun
    obtain ⟨_, t, hindexed, ⟨hsound, hcomplete⟩, hlocated⟩ := (ends_mono (ends_and
      (indexAll_ends hcfg (fun _ => henv _) hashes hempty)
      (indexAll_keeps (keptByIndex_located (cfg.withBands bands)) hcfg (fun _ => henv _) hempty'
        hashes)) (fun _ _ h => h) fun _ _ h => h.1).returns
    obtain ⟨r, t', hdup, rfl, -, hr⟩ := (ends_mono (hlookup t) (fun _ _ h => h) fun _ _ h =>
      h.2.elim (fun hbad => hbad hcfg) fun ⟨band, hfail⟩ => hfail (henv _) :
        Ends _ t _ fun _ _ => False).returns
    have hiff := captured_iff hcfg hsound hcomplete hlocated
      (simhash_lt tk text (cfg.withBands bands).simhashBits) hhashes
    refine Iff.trans ⟨?_, fun hcaptured => ⟨t', hindexed, ?_⟩⟩ hiff
    · rintro ⟨u, hindexed', hdup'⟩
      obtain rfl : t' = u := congrArg Prod.snd (hindexed.symm.trans hindexed')
      have hsame := Except.ok.inj (congrArg Prod.fst (hdup.symm.trans hdup'))
      exact (congrArg Prod.fst (hr.symm.trans hsame))
    · rw [hr, hcaptured] at hdup
      exact hdup
  · refine iff_of_false ?_ fun h => hcfg h.1
    rintro ⟨t, -, hdup⟩
    exact hcfg ((hlookup t).of_returns hdup).2.1

/-! ## Fewer bands -/

/-- Within the threshold, the wide bands touched are as many as the bits that differ. -/
theorem shareBand_of_lt {bits bands a b : Nat} (hdvd : bands ∣ bits) (ha : a < 2 ^ bits)
    (hb : b < 2 ^ bits) (h : hamming a b < bands) : ShareBand bits bands a b := by
  obtain ⟨width, rfl⟩ := hdvd
  rw [ShareBand, Nat.mul_div_cancel_left _ (by omega)]
  exact exists_digit_eq ha hb h

theorem shareBand_zero {bands a b : Nat} (hbands : 0 < bands) (ha : a < 2 ^ 0) (hb : b < 2 ^ 0) :
    ShareBand 0 bands a b := by
  obtain rfl : a = b := by omega
  exact ⟨0, hbands, rfl⟩

/-- One bit in each wide band leaves a narrow band untouched. -/
theorem shareBand_comb {fewer k width : Nat} (hfewer : 0 < fewer) (hk : 2 ≤ k)
    (hwidth : 0 < width) :
    ShareBand (fewer * k * width) (fewer * k) 0 (comb (k * width) fewer) ∧
      ¬ ShareBand (fewer * k * width) fewer 0 (comb (k * width) fewer) := by
  have hbands : 2 ≤ fewer * k := le_trans hk (Nat.le_mul_of_pos_left _ hfewer)
  have hnarrow : fewer * k * width / (fewer * k) = width := Nat.mul_div_cancel_left _ (by omega)
  have hwide : fewer * k * width / fewer = k * width := by
    rw [Nat.mul_assoc, Nat.mul_div_cancel_left _ hfewer]
  rw [ShareBand, ShareBand, hnarrow, hwide]
  refine ⟨⟨1, by omega, ?_⟩, ?_⟩
  · rw [digit_zero, digit_comb_eq_zero hk]
  · rintro ⟨i, hi, hdigit⟩
    rw [digit_zero] at hdigit
    exact digit_comb_ne_zero (Nat.mul_pos (by omega) hwidth) hi hdigit.symm

/-- From the new number of bands on, the threshold lets a fingerprint through that differs
in each wide band. The empty text, whose fingerprint is zero, is reported for it only with
narrow bands. -/
theorem exists_lost_report {cfg : Config} {tk : Toolkit F} {env : Surroundings}
    (henv : ∀ site, env.plan site = .returns) {fewer k width : Nat} (hfewer : 0 < fewer)
    (hk : 2 ≤ k) (hwidth : 0 < width) (hbits : cfg.simhashBits = fewer * k * width)
    (hH : fewer ≤ cfg.simhashHamming) :
    (∀ h ∈ [comb (k * width) fewer], h < 2 ^ cfg.simhashBits) ∧
      Reports cfg tk env (fewer * k) [comb (k * width) fewer] 0 [] ∧
      ¬ Reports cfg tk env fewer [comb (k * width) fewer] 0 [] := by
  have hwide : 0 < k * width := Nat.mul_pos (by omega) hwidth
  have hhashes : ∀ h ∈ [comb (k * width) fewer], h < 2 ^ cfg.simhashBits := by
    intro h hh
    obtain rfl := List.mem_singleton.mp hh
    rw [hbits, Nat.mul_assoc]
    exact comb_lt hwide fewer
  have hzero : simhash tk [] cfg.simhashBits = 0 := rfl
  obtain ⟨hshared, hnot⟩ := shareBand_comb hfewer hk hwidth
  refine ⟨hhashes, (reports_iff henv hhashes).mpr ⟨⟨?_, ?_⟩, _, List.mem_cons_self, ?_, ?_⟩, ?_⟩
  · exact Nat.mul_ne_zero (by omega) (by omega)
  · exact Nat.mod_eq_zero_of_dvd ⟨width, hbits⟩
  · rw [hzero]
    exact le_trans (hamming_zero_comb hwide fewer) hH
  · rw [hzero, hbits]
    exact hshared
  · intro hreports
    obtain ⟨-, h, hh, -, hshare⟩ := (reports_iff henv hhashes).mp hreports
    obtain rfl := List.mem_singleton.mp hh
    rw [hzero, hbits] at hshare
    exact hnot hshare

/-- Lowering the number of bands loses no report, whatever is indexed and looked up,
exactly when the threshold is below the new number. -/
theorem lower_bands_iff (cfg : Config) (tk : Toolkit F) (env : Surroundings)
    (henv : ∀ site, env.plan site = .returns) {bands fewer : Nat} (hfewer : fewer ∣ bands)
    (hbands : bands ∣ cfg.simhashBits) :
    (∀ hashes : List Nat, (∀ h ∈ hashes, h < 2 ^ cfg.simhashBits) → ∀ i text,
      Reports cfg tk env bands hashes i text → Reports cfg tk env fewer hashes i text) ↔
    cfg.simhashHamming < fewer ∨ fewer = bands ∨ cfg.simhashBits = 0 := by
  obtain ⟨k, rfl⟩ := hfewer
  obtain ⟨width, hbits⟩ := hbands
  constructor
  · intro hall
    by_contra hnot
    obtain ⟨hH, hne, hpos⟩ : fewer ≤ cfg.simhashHamming ∧ fewer ≠ fewer * k ∧
      cfg.simhashBits ≠ 0 := by simpa using hnot
    rw [hbits] at hpos
    have hwidth : 0 < width := Nat.pos_of_ne_zero (Nat.ne_zero_of_mul_ne_zero_right hpos)
    have hbands := Nat.ne_zero_of_mul_ne_zero_left hpos
    have hfewer : 0 < fewer := Nat.pos_of_ne_zero (Nat.ne_zero_of_mul_ne_zero_left hbands)
    have hk : 2 ≤ k := by
      have hzero := Nat.ne_zero_of_mul_ne_zero_right hbands
      have hone : k ≠ 1 := fun h => hne (by rw [h, Nat.mul_one])
      omega
    obtain ⟨hhashes, hreports, hlost⟩ :=
      @exists_lost_report F cfg tk env henv fewer k width hfewer hk hwidth hbits hH
    exact hlost (hall _ hhashes 0 [] hreports)
  · rintro hcases hashes hhashes i text hreports
    obtain ⟨⟨hbands, hmod⟩, h, hh, hnear, hshare⟩ := (reports_iff henv hhashes).mp hreports
    have hfewer : fewer ≠ 0 := Nat.ne_zero_of_mul_ne_zero_left hbands
    have hdvd : fewer ∣ cfg.simhashBits := ⟨k * width, by rw [hbits, Nat.mul_assoc]⟩
    have hc := simhash_lt tk text cfg.simhashBits
    refine (reports_iff henv hhashes).mpr ⟨⟨hfewer, Nat.mod_eq_zero_of_dvd hdvd⟩, h, hh, hnear, ?_⟩
    rcases hcases with hH | hsame | hzero
    · exact shareBand_of_lt hdvd hc (hhashes h hh) (by omega)
    · rwa [hsame]
    · have hh' := hhashes h hh
      rw [hzero] at hc hh' ⊢
      exact shareBand_zero (Nat.pos_of_ne_zero hfewer) hc hh'

/-- Eight bands are lowered to four, with the default threshold of 3. -/
theorem lower_bands_iff_standard :
    (∀ hashes : List Nat, (∀ h ∈ hashes, h < 2 ^ 64) → ∀ i text,
      Reports .standard (.ofTables [] [] []) (.calm (lit "en")) 8 hashes i text →
      Reports .standard (.ofTables [] [] []) (.calm (lit "en")) 4 hashes i text) ↔
    3 < 4 ∨ 4 = 8 ∨ 64 = 0 :=
  lower_bands_iff .standard (.ofTables [] [] []) (.calm (lit "en")) (fun _ => rfl) (by decide)
    (by decide)

/-- With the default threshold and two bands for four, the empty text is no longer
reported for a fingerprint that is two bits away. -/
theorem lower_bands_lossy : ¬ ∀ (cfg : Config) (tk : Toolkit TextFloat) (env : Surroundings)
    (bands fewer : Nat), (∀ site, env.plan site = .returns) → fewer ∣ bands →
    bands ∣ cfg.simhashBits → ∀ hashes : List Nat, (∀ h ∈ hashes, h < 2 ^ cfg.simhashBits) →
      ∀ i text, Reports cfg tk env bands hashes i text →
        Reports cfg tk env fewer hashes i text := by
  intro hfinds
  obtain ⟨hhashes, hreports, hlost⟩ := @exists_lost_report TextFloat .standard
    (.ofTables [] [] []) (.calm (lit "en")) (fun _ => rfl) 2 2 16 (by decide) (by decide)
    (by decide) rfl (by decide)
  exact hlost (hfinds .standard (.ofTables [] [] []) (.calm (lit "en")) 4 2 (fun _ => rfl)
    (by decide) (by decide) _ hhashes 0 [] hreports)

end WebSpider.Processor
