import WebSpider.Effects.Run
import WebSpider.Text.Padded
import Mathlib.Data.List.DropRight
import Mathlib.Data.List.Perm.Subperm

/-!
# The retention of backups

The loop of `backup-entrypoint.sh`. Both families of dumps lie in one directory, and
the glob by which `prune corpus` lists the articles-only dumps also matches the full
ones, so these count as articles-only dumps and are removed as such. The marker is
written whether or not the full dump succeeded. The newest dumps of both families are
kept and the marker is right, after every iteration, exactly when no articles-only
dump is pruned while there is a full one and every full dump that is due succeeds
(`retained_iff`).
-/

namespace WebSpider.Backup

open Text Effects

/-! ## Files -/

/-- A text of `date +%Y%m%d_%H%M%S`. -/
structure Stamp where
  text : Str
  digits : text.all (fun c => isDigit c || decide (c = 95)) = true
  deriving DecidableEq

inductive Family where
  | articles
  | full
  deriving DecidableEq

/-- The first argument of `dump` and `prune`. -/
def Family.stem : Family → Str
  | .articles => lit "corpus"
  | .full => lit "corpus_full"

/-- A dump; no two have the same modification time. -/
structure File where
  family : Family
  stamp : Stamp
  mtime : Nat
  deriving DecidableEq

/-- `${prefix}_${ts}.dump` -/
def File.name (f : File) : Str := f.family.stem ++ 95 :: (f.stamp.text ++ lit ".dump")

/-- The glob `${prefix}_*.dump`. -/
def globs (stem name : Str) : Bool :=
  (stem ++ [95]).isPrefixOf name && (lit ".dump").isSuffixOf (name.drop (stem.length + 1))

/-- The dumps of a family. -/
def ofFamily (family : Family) (files : List File) : List File :=
  files.filter fun f => decide (f.family = family)

/-! ## The loop -/

/-- `BACKUP_KEEP`, `BACKUP_FULL_KEEP` and `BACKUP_FULL_EVERY_DAYS`. -/
structure Config where
  keep : Nat
  fullKeep : Nat
  fullEveryDays : Int

/-- The directory in the order of modification times, and the full-dump marker.
`made`, `fullTimes` and `strayed` are history: the dumps that succeeded, the times at
which the script was done with a full one of them, and the files that were removed by a
prune of the other family. -/
structure State where
  dir : List File
  marker : Option Nat
  clock : Nat
  made : List File
  fullTimes : List Nat
  strayed : List File

/-- An empty directory. -/
def State.initial (start : Nat) : State := ⟨[], none, start, [], [], []⟩

/-- `ls -1t` of the files that match. -/
def listing (stem : Str) (dir : List File) : List File :=
  (dir.filter fun f => globs stem f.name).reverse

/-- `prune`: the first `keep` lines of the listing stay. -/
def State.prune (family : Family) (keep : Nat) (s : State) : State :=
  let old := (listing family.stem s.dir).drop keep
  { s with
    dir := s.dir.filter fun f => decide (f ∉ old)
    strayed := s.strayed ++ old.filter fun f => decide (f.family ≠ family) }

/-- `dump`: a failed one leaves no file. -/
def State.dump (f : File) (succeeds : Bool) (s : State) : State :=
  if succeeds then { s with dir := s.dir ++ [f], made := s.made ++ [f] } else s

/-- What happens in an iteration: whether the dumps succeed, and how long it takes. -/
structure Iteration where
  pause : Nat
  articlesStamp : Stamp
  articlesSucceed : Bool
  pruning : Nat
  fullDumping : Nat
  fullStamp : Stamp
  fullSucceeds : Bool
  fullPruning : Nat

namespace Iteration

def articlesFile (e : Iteration) (clock : Nat) : File :=
  ⟨.articles, e.articlesStamp, clock + 1 + e.pause⟩

/-- The time of the first `date +%s`. -/
def now (e : Iteration) (clock : Nat) : Nat := clock + 1 + e.pause + e.pruning

def fullFile (e : Iteration) (clock : Nat) : File :=
  ⟨.full, e.fullStamp, e.now clock + 1 + e.fullDumping⟩

/-- The time of the second one. -/
def marked (e : Iteration) (clock : Nat) : Nat := e.now clock + 1 + e.fullDumping + e.fullPruning

end Iteration

def due (c : Config) (marker : Option Nat) (now : Nat) : Bool :=
  decide (c.fullEveryDays * 86400 ≤ (now : Int) - marker.getD 0)

/-- The state after the articles-only dump. -/
def dumped (s : State) (e : Iteration) : State :=
  s.dump (e.articlesFile s.clock) e.articlesSucceed

/-- One turn of the loop. -/
def iterate (c : Config) (s : State) (e : Iteration) : State :=
  let pruned := (dumped s e).prune .articles c.keep
  if due c s.marker (e.now s.clock) then
    let full := (pruned.dump (e.fullFile s.clock) e.fullSucceeds).prune .full c.fullKeep
    { full with
      marker := some (e.marked s.clock)
      fullTimes := if e.fullSucceeds then full.fullTimes ++ [e.marked s.clock] else full.fullTimes
      clock := e.marked s.clock }
  else { pruned with clock := e.now s.clock }

def step (c : Config) (s : State) (e : Iteration) : Option State := some (iterate c s e)

/-! ## The property and the condition -/

/-- The newest dumps of both families are there, no prune has removed a file of the
other family, and the marker is the time of a full dump that succeeded. -/
structure Retained (c : Config) (s : State) : Prop where
  articles : ∀ f ∈ (ofFamily .articles s.made).rtake c.keep, f ∈ s.dir
  full : ∀ f ∈ (ofFamily .full s.made).rtake c.fullKeep, f ∈ s.dir
  apart : s.strayed = []
  marker : ∀ time, s.marker = some time → time ∈ s.fullTimes

/-- The files after the articles-only dump are not more than `keep`, or there is no
full dump among them; and if a full dump is due it succeeds. -/
def Safe (c : Config) (s : State) (e : Iteration) : Prop :=
  (ofFamily .full (dumped s e).dir = [] ∨ (dumped s e).dir.length ≤ c.keep) ∧
    (due c s.marker (e.now s.clock) = true → e.fullSucceeds = true)

/-! ## The newest of a list -/

section Newest

variable {α : Type} [DecidableEq α]

omit [DecidableEq α] in
theorem rtake_of_length_le {l : List α} {k : Nat} (h : l.length ≤ k) : l.rtake k = l := by
  rw [List.rtake, Nat.sub_eq_zero_of_le h, List.drop_zero]

omit [DecidableEq α] in
/-- What is old among the newest and some more is old among all. -/
theorem rtake_rtake_append (l m : List α) (k : Nat) :
    (l.rtake k ++ m).rtake k = (l ++ m).rtake k := by
  unfold List.rtake
  rw [List.drop_append, List.drop_append, List.drop_drop, List.length_append, List.length_append,
    List.length_drop]
  congr 1
  · congr 1
    omega
  · congr 1
    omega

omit [DecidableEq α] in
theorem drop_reverse_newest (l : List α) (k : Nat) :
    l.reverse.drop k = (l.take (l.length - k)).reverse := List.drop_reverse

/-- Without the old ones of a kind the newest of the kind are left. -/
theorem filter_newest {l : List α} (hl : l.Nodup) (p : α → Bool) (k : Nat) :
    (l.filter fun x => decide (x ∉ (l.filter p).reverse.drop k)).filter p = (l.filter p).rtake k := by
  have hm : (l.filter p).Nodup := hl.filter p
  rw [List.filter_comm, drop_reverse_newest]
  generalize l.filter p = m at hm
  have hparts := List.take_append_drop (m.length - k) m
  have hdisjoint := (List.nodup_append.mp (hparts.symm ▸ hm)).2.2
  rw [List.rtake]
  conv_lhs => rw [← hparts, List.filter_append]
  rw [List.filter_eq_nil_iff.mpr, List.filter_eq_self.mpr, List.nil_append]
  · intro x hx
    simpa using fun hold => hdisjoint x hold x hx rfl
  · intro x hx
    simpa using hx

/-- The others are all left. -/
theorem filter_others (l : List α) {p q : α → Bool} (h : ∀ x, q x = true → p x = false) (k : Nat) :
    (l.filter fun x => decide (x ∉ (l.filter p).reverse.drop k)).filter q = l.filter q := by
  rw [List.filter_comm, List.filter_eq_self]
  intro x hx
  have hp := h x (List.mem_filter.mp hx).2
  simp only [decide_eq_true_eq]
  intro hold
  have := (List.mem_filter.mp (List.mem_reverse.mp (List.mem_of_mem_drop hold))).2
  rw [hp] at this
  cases this

end Newest

/-! ## The globs -/

/-- Every dump matches the glob of the articles-only dumps. -/
theorem globs_articles (f : File) : globs Family.articles.stem f.name = true := by
  unfold globs
  rw [Bool.and_eq_true, List.isPrefixOf_iff_prefix, List.isSuffixOf_iff_suffix]
  cases hf : f.family with
  | articles =>
    refine ⟨⟨f.stamp.text ++ lit ".dump", ?_⟩, ⟨f.stamp.text, ?_⟩⟩
    · simp [File.name, hf]
    · simp [File.name, hf, Family.stem, lit]
  | full =>
    refine ⟨⟨lit "full" ++ 95 :: (f.stamp.text ++ lit ".dump"), ?_⟩,
      ⟨lit "full" ++ 95 :: f.stamp.text, ?_⟩⟩
    · simp [File.name, hf, Family.stem, lit]
    · simp [File.name, hf, Family.stem, lit]

/-- That of the full dumps matches these only. -/
theorem globs_full (f : File) : globs Family.full.stem f.name = decide (f.family = .full) := by
  unfold globs
  cases hf : f.family with
  | articles =>
    rw [decide_eq_false (by simp), Bool.and_eq_false_iff]
    refine Or.inl (Bool.eq_false_iff.mpr fun h => ?_)
    have hstem : Family.full.stem ++ [95] = (lit "corpus" ++ [95]) ++ lit "full_" := rfl
    have hname : f.name = (lit "corpus" ++ [95]) ++ (f.stamp.text ++ lit ".dump") := by
      simp [File.name, hf, Family.stem]
    rw [List.isPrefixOf_iff_prefix, hstem, hname, List.prefix_append_right_inj] at h
    -- a stamp has no letters
    cases htext : f.stamp.text with
    | nil =>
      rw [htext] at h
      exact absurd h (by decide)
    | cons c rest =>
      rw [htext] at h
      have hc : 102 = c := (List.cons_prefix_cons.mp h).1
      have hdigits := f.stamp.digits
      rw [htext, ← hc, List.all_cons] at hdigits
      exact absurd hdigits (by simp [isDigit])
  | full =>
    rw [decide_eq_true rfl, Bool.and_eq_true, List.isPrefixOf_iff_prefix, List.isSuffixOf_iff_suffix]
    refine ⟨⟨f.stamp.text ++ lit ".dump", ?_⟩, ⟨f.stamp.text, ?_⟩⟩
    · simp [File.name, hf]
    · simp [File.name, hf, Family.stem, lit]

/-! ## Dump and prune -/

theorem ofFamily_append (family : Family) (files more : List File) :
    ofFamily family (files ++ more) = ofFamily family files ++ ofFamily family more :=
  List.filter_append _ _

theorem length_families (files : List File) :
    (ofFamily .articles files).length + (ofFamily .full files).length = files.length := by
  rw [List.length_eq_length_filter_add (l := files) fun f => decide (f.family = .articles)]
  congr 2
  apply List.filter_congr
  intro f _
  cases f.family <;> rfl

theorem ofFamily_of_none {files : List File} (h : ofFamily .full files = []) :
    ofFamily .articles files = files := by
  apply List.filter_eq_self.mpr
  intro f hf
  have hnot := List.filter_eq_nil_iff.mp h f hf
  cases hfamily : f.family with
  | articles => rfl
  | full => exact (hnot (decide_eq_true hfamily)).elim

/-- The newest of a family among the files and a dump are the newest among all. -/
theorem newest_dump {family : Family} {keep : Nat} {s : State}
    (h : ofFamily family s.dir = (ofFamily family s.made).rtake keep) (f : File) (succeeds : Bool) :
    (ofFamily family (s.dump f succeeds).dir).rtake keep =
      (ofFamily family (s.dump f succeeds).made).rtake keep := by
  cases succeeds with
  | false =>
    have htwice := rtake_rtake_append (ofFamily family s.made) [] keep
    rw [List.append_nil, List.append_nil] at htwice
    change (ofFamily family s.dir).rtake keep = (ofFamily family s.made).rtake keep
    rw [h, htwice]
  | true =>
    change (ofFamily family (s.dir ++ [f])).rtake keep = (ofFamily family (s.made ++ [f])).rtake keep
    rw [ofFamily_append, ofFamily_append, h, rtake_rtake_append]

/-- A dump changes nothing of the other family. -/
theorem ofFamily_dump {family : Family} {f : File} (hf : f.family ≠ family) (succeeds : Bool)
    (s : State) : ofFamily family (s.dump f succeeds).dir = ofFamily family s.dir ∧
      ofFamily family (s.dump f succeeds).made = ofFamily family s.made := by
  cases succeeds with
  | false => exact ⟨rfl, rfl⟩
  | true =>
    have hnone : ofFamily family [f] = [] := by simp [ofFamily, hf]
    refine ⟨?_, ?_⟩
    · change ofFamily family (s.dir ++ [f]) = _
      rw [ofFamily_append, hnone, List.append_nil]
    · change ofFamily family (s.made ++ [f]) = _
      rw [ofFamily_append, hnone, List.append_nil]

theorem listing_articles (dir : List File) : listing Family.articles.stem dir = dir.reverse := by
  rw [listing, List.filter_eq_self.mpr fun f _ => globs_articles f]

theorem listing_full (dir : List File) :
    listing Family.full.stem dir = (ofFamily .full dir).reverse := by
  rw [listing, ofFamily]
  congr 1
  exact List.filter_congr fun f _ => globs_full f

/-- The articles-only prune keeps the newest of all files. -/
theorem prune_articles_dir {s : State} (h : s.dir.Nodup) (keep : Nat) :
    (s.prune .articles keep).dir = s.dir.rtake keep := by
  have hnewest := filter_newest h (fun _ => true) keep
  rw [List.filter_true, List.filter_true] at hnewest
  change s.dir.filter (fun f => decide (f ∉ (listing Family.articles.stem s.dir).drop keep)) = _
  rw [listing_articles]
  exact hnewest

theorem prune_articles_strayed (s : State) (keep : Nat) :
    (s.prune .articles keep).strayed =
      s.strayed ++ ofFamily .full (s.dir.take (s.dir.length - keep)).reverse := by
  change s.strayed ++ ((listing Family.articles.stem s.dir).drop keep).filter
    (fun f => decide (f.family ≠ .articles)) = _
  rw [listing_articles, drop_reverse_newest]
  congr 1
  apply List.filter_congr
  intro f _
  cases f.family <;> rfl

/-- The prune of the full dumps keeps the newest of these, and all others. -/
theorem prune_full_dir {s : State} (h : s.dir.Nodup) (keep : Nat) :
    ofFamily .full (s.prune .full keep).dir = (ofFamily .full s.dir).rtake keep ∧
      ofFamily .articles (s.prune .full keep).dir = ofFamily .articles s.dir := by
  have hdir : (s.prune .full keep).dir =
      s.dir.filter fun f => decide (f ∉ (ofFamily .full s.dir).reverse.drop keep) := by
    rw [← listing_full]
    rfl
  rw [hdir]
  refine ⟨filter_newest h (fun f => decide (f.family = .full)) keep, ?_⟩
  refine filter_others s.dir (p := fun f => decide (f.family = .full)) (fun f hf => ?_) keep
  rw [of_decide_eq_true hf]
  rfl

theorem prune_full_strayed (s : State) (keep : Nat) :
    (s.prune .full keep).strayed = s.strayed := by
  change s.strayed ++ ((listing Family.full.stem s.dir).drop keep).filter
    (fun f => decide (f.family ≠ .full)) = _
  rw [listing_full, List.filter_eq_nil_iff.mpr, List.append_nil]
  intro f hf
  have hmem := List.mem_reverse.mp (List.mem_of_mem_drop hf)
  simpa using of_decide_eq_true (List.mem_filter.mp hmem).2

/-- A prune of the articles-only dumps that meets no full dump, or nothing old. -/
theorem prune_articles_safe {s : State} {keep : Nat} (h : s.dir.Nodup)
    (hsafe : ofFamily .full s.dir = [] ∨ s.dir.length ≤ keep) :
    ofFamily .articles (s.prune .articles keep).dir = (ofFamily .articles s.dir).rtake keep ∧
      ofFamily .full (s.prune .articles keep).dir = ofFamily .full s.dir ∧
      (s.prune .articles keep).strayed = s.strayed := by
  rw [prune_articles_dir h, prune_articles_strayed]
  rcases hsafe with hnone | hfew
  · have hsub (l : List File) (hl : ∀ f ∈ l, f ∈ s.dir) : ofFamily .full l = [] :=
      List.filter_eq_nil_iff.mpr fun f hf => List.filter_eq_nil_iff.mp hnone f (hl f hf)
    have hkept : ofFamily .full (s.dir.rtake keep) = [] :=
      hsub _ fun f hf => List.mem_of_mem_drop hf
    rw [ofFamily_of_none hkept, ofFamily_of_none hnone, hkept, hnone, hsub, List.append_nil]
    · exact ⟨rfl, rfl, rfl⟩
    · exact fun f hf => List.mem_of_mem_take (List.mem_reverse.mp hf)
  · have hfew' : (ofFamily .articles s.dir).length ≤ keep :=
      (List.length_filter_le _ _).trans hfew
    rw [rtake_of_length_le hfew, rtake_of_length_le hfew', Nat.sub_eq_zero_of_le hfew]
    exact ⟨rfl, rfl, List.append_nil _⟩

/-- Any other one removes a full dump, or leaves too few articles-only dumps. -/
theorem prune_articles_unsafe {s : State} {keep : Nat} (h : s.dir.Nodup)
    (hfull : ofFamily .full s.dir ≠ []) (hmany : keep < s.dir.length)
    (hstrayed : (s.prune .articles keep).strayed = []) :
    (ofFamily .articles (s.prune .articles keep).dir).length <
      min keep (ofFamily .articles s.dir).length := by
  rw [prune_articles_strayed, List.append_eq_nil_iff] at hstrayed
  have hold : ofFamily .full (s.dir.take (s.dir.length - keep)) = [] := by
    have hnone := hstrayed.2
    rw [ofFamily, List.filter_reverse, List.reverse_eq_nil_iff] at hnone
    exact hnone
  have hparts := List.take_append_drop (s.dir.length - keep) s.dir
  have hfulls := congrArg (ofFamily .full) hparts
  have harticles := congrArg (fun files => (ofFamily .articles files).length) hparts
  rw [ofFamily_append, hold, List.nil_append] at hfulls
  simp only [ofFamily_append, ofFamily_of_none hold, List.length_append, List.length_take]
    at harticles
  have hkept := length_families (s.dir.drop (s.dir.length - keep))
  rw [hfulls, List.length_drop] at hkept
  have hpositive := List.length_pos_iff.mpr hfull
  rw [prune_articles_dir h, List.rtake]
  omega

/-! ## The order of the files -/

/-- The files are dumps made so far, in the order of their times, none after `now`. -/
structure Ordered (now : Nat) (s : State) : Prop where
  present : s.dir.Sublist s.made
  chronological : s.made.Pairwise fun f g => f.mtime < g.mtime
  past : ∀ f ∈ s.made, f.mtime ≤ now

namespace Ordered

variable {now : Nat} {s : State}

theorem made_nodup (h : Ordered now s) : s.made.Nodup :=
  h.chronological.imp fun hlt hsame => by
    rw [hsame] at hlt
    exact Nat.lt_irrefl _ hlt

theorem dir_nodup (h : Ordered now s) : s.dir.Nodup := h.made_nodup.sublist h.present

theorem dump (h : Ordered now s) {f : File} (hf : now < f.mtime) (succeeds : Bool) :
    Ordered f.mtime (s.dump f succeeds) := by
  have hpast (g : File) (hg : g ∈ s.made) : g.mtime < f.mtime := by
    have := h.past g hg
    omega
  cases succeeds with
  | false => exact ⟨h.present, h.chronological, fun g hg => Nat.le_of_lt (hpast g hg)⟩
  | true =>
    refine ⟨h.present.append (List.Sublist.refl [f]), ?_, fun g hg => ?_⟩
    · refine List.pairwise_append.mpr ⟨h.chronological, List.pairwise_singleton _ _, ?_⟩
      intro g hg f' hf'
      rw [List.mem_singleton.mp hf']
      exact hpast g hg
    · rcases List.mem_append.mp hg with hg | hg
      · exact Nat.le_of_lt (hpast g hg)
      · rw [List.mem_singleton.mp hg]

theorem prune (h : Ordered now s) (family : Family) (keep : Nat) :
    Ordered now (s.prune family keep) :=
  ⟨List.filter_sublist.trans h.present, h.chronological, h.past⟩

theorem later (h : Ordered now s) (now' : Nat) (hle : now ≤ now') : Ordered now' s :=
  ⟨h.present, h.chronological, fun f hf => (h.past f hf).trans hle⟩

end Ordered

/-! ## Iterations -/

/-- The files are exactly the newest dumps of both families, and the marker is right. -/
structure Sound (c : Config) (s : State) : Prop where
  ordered : Ordered s.clock s
  articles : ofFamily .articles s.dir = (ofFamily .articles s.made).rtake c.keep
  full : ofFamily .full s.dir = (ofFamily .full s.made).rtake c.fullKeep
  apart : s.strayed = []
  marker : ∀ time, s.marker = some time → time ∈ s.fullTimes
  times : ∀ time ∈ s.fullTimes, time ≤ s.clock

theorem sound_initial (c : Config) (start : Nat) : Sound c (.initial start) := by
  refine ⟨⟨List.Sublist.refl [], List.Pairwise.nil, ?_⟩, ?_, ?_, rfl, ?_, ?_⟩
  · simp [State.initial]
  · simp [State.initial, ofFamily]
  · simp [State.initial, ofFamily]
  · simp [State.initial]
  · simp [State.initial]

theorem Sound.retained {c : Config} {s : State} (h : Sound c s) : Retained c s := by
  refine ⟨fun f hf => ?_, fun f hf => ?_, h.apart, h.marker⟩
  · rw [← h.articles] at hf
    exact (List.mem_filter.mp hf).1
  · rw [← h.full] at hf
    exact (List.mem_filter.mp hf).1

theorem Ordered.dumped {s : State} (h : Ordered s.clock s) (e : Iteration) :
    Ordered (s.clock + 1 + e.pause) (dumped s e) := by
  have hlt : s.clock < (e.articlesFile s.clock).mtime := by
    change s.clock < s.clock + 1 + e.pause
    omega
  exact h.dump hlt e.articlesSucceed

/-- The state after the full dump and its prune. -/
def fullDumped (c : Config) (s : State) (e : Iteration) : State :=
  (((dumped s e).prune .articles c.keep).dump (e.fullFile s.clock) e.fullSucceeds).prune .full
    c.fullKeep

/-- Where the full dump is not due an iteration ends after the first prune. -/
theorem iterate_articles (c : Config) (s : State) (e : Iteration)
    (h : due c s.marker (e.now s.clock) = false) :
    iterate c s e = { (dumped s e).prune .articles c.keep with clock := e.now s.clock } := by
  simp only [iterate, h, Bool.false_eq_true, if_false]

theorem iterate_full (c : Config) (s : State) (e : Iteration)
    (h : due c s.marker (e.now s.clock) = true) :
    iterate c s e = { fullDumped c s e with
      marker := some (e.marked s.clock)
      fullTimes := if e.fullSucceeds then (fullDumped c s e).fullTimes ++ [e.marked s.clock]
        else (fullDumped c s e).fullTimes
      clock := e.marked s.clock } := by
  simp only [iterate, h, if_true]
  rfl

theorem fullTimes_dump (f : File) (succeeds : Bool) (s : State) :
    (s.dump f succeeds).fullTimes = s.fullTimes := by
  cases succeeds <;> rfl

theorem marker_dump (f : File) (succeeds : Bool) (s : State) :
    (s.dump f succeeds).marker = s.marker := by
  cases succeeds <;> rfl

theorem strayed_dump (f : File) (succeeds : Bool) (s : State) :
    (s.dump f succeeds).strayed = s.strayed := by
  cases succeeds <;> rfl

theorem fullTimes_fullDumped (c : Config) (s : State) (e : Iteration) :
    (fullDumped c s e).fullTimes = s.fullTimes := by
  change (((dumped s e).prune .articles c.keep).dump (e.fullFile s.clock) e.fullSucceeds).fullTimes = _
  rw [fullTimes_dump]
  exact fullTimes_dump _ _ _

/-- What follows the first prune concerns the full dumps only. -/
theorem iterate_spares {c : Config} {s : State} (h : Ordered s.clock s) (e : Iteration) :
    ofFamily .articles (iterate c s e).dir =
        ofFamily .articles ((dumped s e).prune .articles c.keep).dir ∧
      ofFamily .articles (iterate c s e).made = ofFamily .articles (dumped s e).made ∧
      (iterate c s e).strayed = ((dumped s e).prune .articles c.keep).strayed := by
  cases hdue : due c s.marker (e.now s.clock) with
  | false =>
    rw [iterate_articles c s e hdue]
    exact ⟨rfl, rfl, rfl⟩
  | true =>
    rw [iterate_full c s e hdue]
    have hfile : (e.fullFile s.clock).family ≠ .articles := by simp [Iteration.fullFile]
    have hother := ofFamily_dump hfile e.fullSucceeds ((dumped s e).prune .articles c.keep)
    have hordered := (((h.dumped e).prune .articles c.keep).later (e.now s.clock) (by
      unfold Iteration.now
      omega)).dump (f := e.fullFile s.clock) (by
        change e.now s.clock < e.now s.clock + 1 + e.fullDumping
        omega) e.fullSucceeds
    refine ⟨?_, hother.2, ?_⟩
    · exact (prune_full_dir hordered.dir_nodup c.fullKeep).2.trans hother.1
    · exact (prune_full_strayed _ c.fullKeep).trans (strayed_dump _ _ _)

/-- A safe iteration leaves exactly the newest dumps again. -/
theorem sound_iterate {c : Config} {s : State} (hs : Sound c s) {e : Iteration}
    (hsafe : Safe c s e) : Sound c (iterate c s e) := by
  obtain ⟨hroom, hsucceeds⟩ := hsafe
  have hordered := hs.ordered.dumped e
  obtain ⟨hdir, hmade, hstrayed⟩ := iterate_spares (c := c) hs.ordered e
  obtain ⟨harticles, hfull, hkept⟩ := prune_articles_safe hordered.dir_nodup hroom
  have hnewest := newest_dump hs.articles (e.articlesFile s.clock) e.articlesSucceed
  have hfile : (e.articlesFile s.clock).family ≠ .full := by simp [Iteration.articlesFile]
  have hspared := ofFamily_dump hfile e.articlesSucceed s
  have harticles' : ofFamily .articles (iterate c s e).dir =
      (ofFamily .articles (iterate c s e).made).rtake c.keep := by
    rw [hdir, hmade, harticles]
    exact hnewest
  have hapart : (iterate c s e).strayed = [] := by
    rw [hstrayed, hkept]
    exact (strayed_dump _ _ _).trans hs.apart
  have hfull' : ofFamily .full ((dumped s e).prune .articles c.keep).dir =
      (ofFamily .full ((dumped s e).prune .articles c.keep).made).rtake c.fullKeep := by
    rw [hfull]
    change ofFamily .full (dumped s e).dir = (ofFamily .full (dumped s e).made).rtake c.fullKeep
    rw [dumped, hspared.1, hspared.2]
    exact hs.full
  have hpruned := (hordered.prune .articles c.keep).later (e.now s.clock) (by
    unfold Iteration.now
    omega)
  have hclock : s.clock ≤ e.now s.clock := by
    unfold Iteration.now
    omega
  cases hdue : due c s.marker (e.now s.clock) with
  | false =>
    rw [iterate_articles c s e hdue] at harticles' hapart ⊢
    refine ⟨⟨hpruned.present, hpruned.chronological, hpruned.past⟩, harticles', hfull', hapart, ?_, ?_⟩
    · intro time htime
      have hmarker := (marker_dump (e.articlesFile s.clock) e.articlesSucceed s).symm.trans htime
      exact (fullTimes_dump (e.articlesFile s.clock) e.articlesSucceed s).symm ▸
        hs.marker time hmarker
    · intro time htime
      have hmem : time ∈ s.fullTimes :=
        fullTimes_dump (e.articlesFile s.clock) e.articlesSucceed s ▸ htime
      exact (hs.times time hmem).trans hclock
  | true =>
    have hok := hsucceeds hdue
    have hdumped := hpruned.dump (f := e.fullFile s.clock) (by
      change e.now s.clock < e.now s.clock + 1 + e.fullDumping
      omega) e.fullSucceeds
    have hdone := (hdumped.prune .full c.fullKeep).later (e.marked s.clock) (by
      change e.now s.clock + 1 + e.fullDumping ≤ e.marked s.clock
      unfold Iteration.marked
      omega)
    have hfinal : ofFamily .full (fullDumped c s e).dir =
        (ofFamily .full (fullDumped c s e).made).rtake c.fullKeep := by
      apply (prune_full_dir hdumped.dir_nodup c.fullKeep).1.trans
      exact newest_dump hfull' (e.fullFile s.clock) e.fullSucceeds
    rw [iterate_full c s e hdue, hok] at harticles' hapart ⊢
    refine ⟨⟨hdone.present, hdone.chronological, hdone.past⟩, harticles', hfinal, hapart, ?_, ?_⟩
    · intro time htime
      obtain rfl := Option.some.inj htime
      exact List.mem_append_right _ (List.mem_singleton.mpr rfl)
    · intro time htime
      rcases List.mem_append.mp htime with htime | htime
      · rw [fullTimes_fullDumped] at htime
        have := hs.times time htime
        unfold Iteration.marked
        change time ≤ e.now s.clock + 1 + e.fullDumping + e.fullPruning
        omega
      · rw [List.mem_singleton.mp htime]

/-- An iteration that keeps the property is safe. -/
theorem safe_of_retained {c : Config} {s : State} (hs : Sound c s) {e : Iteration}
    (h : Retained c (iterate c s e)) : Safe c s e := by
  have hordered := hs.ordered.dumped e
  obtain ⟨hdir, hmade, hstrayed⟩ := iterate_spares (c := c) hs.ordered e
  constructor
  · by_contra hunsafe
    rw [not_or, Nat.not_le] at hunsafe
    have hfew := prune_articles_unsafe hordered.dir_nodup hunsafe.1 hunsafe.2
      (hstrayed.symm.trans h.apart)
    have hsubset : (ofFamily .articles (dumped s e).made).rtake c.keep ⊆
        ofFamily .articles ((dumped s e).prune .articles c.keep).dir := by
      intro f hf
      have hpresent := h.articles f (hmade.symm ▸ hf)
      have hfamily := (List.mem_filter.mp (List.mem_of_mem_drop hf)).2
      rw [← hdir]
      exact List.mem_filter.mpr ⟨hpresent, hfamily⟩
    have hnodup : ((ofFamily .articles (dumped s e).made).rtake c.keep).Nodup :=
      (hordered.made_nodup.filter _).sublist (List.drop_sublist _ _)
    have hle := (List.subperm_of_subset hnodup hsubset).length_le
    have hsub := (hordered.present.filter fun f => decide (f.family = .articles)).length_le
    rw [List.rtake, List.length_drop] at hle
    change (ofFamily .articles (dumped s e).dir).length ≤
      (ofFamily .articles (dumped s e).made).length at hsub
    omega
  · intro hdue
    by_contra hfails
    rw [Bool.not_eq_true] at hfails
    rw [iterate_full c s e hdue, hfails] at h
    have hmem := h.marker (e.marked s.clock) rfl
    change e.marked s.clock ∈ (fullDumped c s e).fullTimes at hmem
    rw [fullTimes_fullDumped] at hmem
    have := hs.times _ hmem
    unfold Iteration.marked Iteration.now at this
    omega

/-- After every iteration of a run the newest dumps of both families are there and the
marker is right exactly when every iteration is safe. -/
theorem retained_iff (c : Config) (start : Nat) (es : List Iteration) :
    (∀ bs e cs t, es = bs ++ e :: cs → run (step c) (.initial start) (bs ++ [e]) = some t →
      Retained c t) ↔ Along (step c) (Safe c) (.initial start) es := by
  refine along_iff (J := Sound c) (P := fun _ => Retained c) ?_ ?_ ?_ (sound_initial c start) es
  · intro s e t hs hsafe hstep
    obtain rfl := Option.some.inj hstep
    exact sound_iterate hs hsafe
  · intro s e t hs hstep
    obtain rfl := Option.some.inj hstep
    exact ⟨safe_of_retained hs, fun hsafe => (sound_iterate hs hsafe).retained⟩
  · intro s e hnone
    cases hnone

/-! ## A week of backups -/

/-- A time of a day of August 2026, with its minutes zero. -/
def stampAt (day hour second : Nat) : Stamp where
  text := lit "202608" ++ (pad 2 day ++ 95 :: (pad 2 hour ++ (lit "00" ++ pad 2 second)))
  digits := by
    have hpad (n : Nat) : (pad 2 n).all (fun c => isDigit c || decide (c = 95)) = true := by
      refine List.all_eq_true.mpr fun c hc => ?_
      rw [List.all_eq_true.mp (all_isDigit_pad 2 n) c hc, Bool.true_or]
    simp only [List.all_append, List.all_cons, hpad]
    decide

/-- The first iteration; its full dump succeeds or not. -/
def firstIteration (fullSucceeds : Bool) : Iteration where
  pause := 0
  articlesStamp := stampAt 4 0 1
  articlesSucceed := true
  pruning := 0
  fullDumping := 0
  fullStamp := stampAt 4 0 2
  fullSucceeds := fullSucceeds
  fullPruning := 0

/-- The `k`-th one after it, six hours after the one before. -/
def laterIteration (k : Nat) : Iteration where
  pause := 21599
  articlesStamp := stampAt (4 + k / 4) (k % 4 * 6) 2
  articlesSucceed := true
  pruning := 0
  fullDumping := 0
  fullStamp := stampAt (4 + k / 4) (k % 4 * 6) 3
  fullSucceeds := true
  fullPruning := 0

/-- The defaults. -/
def Config.standard : Config := ⟨28, 4, 7⟩

/-- The fourth of August 2026. -/
def august : Nat := 1785801600

/-- The seven days after the first iteration. -/
def week : List Iteration := firstIteration true :: (List.range 28).map fun k => laterIteration (k + 1)

/-- With the defaults a full dump is removed after a week; and a full dump that failed
is marked as done. -/
theorem full_dump_pruned :
    (∃ t, run (step .standard) (.initial august) week = some t ∧ ¬ Retained .standard t) ∧
    ∃ t, run (step .standard) (.initial august) [firstIteration false] = some t ∧
      ¬ Retained .standard t := by
  constructor
  · have hend : (run (step .standard) (.initial august) week).map (fun t =>
        (decide ((firstIteration true).fullFile august ∈ (ofFamily .full t.made).rtake 4),
          decide ((firstIteration true).fullFile august ∈ t.dir))) = some (true, false) := by
      decide +kernel
    obtain ⟨t, hrun, hview⟩ := Option.map_eq_some_iff.mp hend
    obtain ⟨hnewest, hgone⟩ := Prod.mk.inj hview
    exact ⟨t, hrun, fun h => of_decide_eq_false hgone (h.full _ (of_decide_eq_true hnewest))⟩
  · have hend : (run (step .standard) (.initial august) [firstIteration false]).map (fun t =>
        (t.marker, t.fullTimes)) = some (some (august + 2), []) := by
      decide +kernel
    obtain ⟨t, hrun, hview⟩ := Option.map_eq_some_iff.mp hend
    obtain ⟨hmarker, htimes⟩ := Prod.mk.inj hview
    refine ⟨t, hrun, fun h => ?_⟩
    have hmem := h.marker _ hmarker
    rw [htimes] at hmem
    cases hmem

end WebSpider.Backup
