import WebSpider.Crawler.Heartbeat

/-!
# The configuration of the crawler

`Load` and `applyDefaults` of `config.go`, and what `buildScheduler` makes of a configuration.
The defaults leave no rate that admits nothing, so a run of the crawler that is not cancelled
always reports itself (`loaded_run_recorded`).
-/

namespace WebSpider.Crawler.Configured

open Text Effects Workers

/-- The password goes to the client only. -/
structure RedisConfig where
  addr : Str
  stream : Str
  consumerGroup : Str
  streamMaxLen : Int
  deriving DecidableEq

/-- Without the options of single sources. -/
structure CrawlerConfig where
  source : Str
  perPage : Int
  maxConcurrency : Int
  ratePerSec : Int
  sinceHours : Int
  maxPages : Int
  intervalMinutes : Int
  maxPageFailures : Int
  useCursor : Bool
  deriving DecidableEq

structure Config where
  redis : RedisConfig
  crawler : CrawlerConfig
  deriving DecidableEq

def orText (s default : Str) : Str := if s = [] then default else s

def orPositive (n default : Int) : Int := if n ≤ 0 then default else n

def applyDefaults (c : Config) : Config where
  redis := { c.redis with
    addr := orText c.redis.addr (lit "localhost:6379")
    stream := orText c.redis.stream (lit "articles")
    consumerGroup := orText c.redis.consumerGroup (lit "py")
    streamMaxLen := orPositive c.redis.streamMaxLen 100000 }
  crawler := { c.crawler with
    perPage := orPositive c.crawler.perPage 30
    maxConcurrency := orPositive c.crawler.maxConcurrency 8
    ratePerSec := orPositive c.crawler.ratePerSec 5
    maxPageFailures := orPositive c.crawler.maxPageFailures 3 }

/-- `Load`: the file may not be read, and its text may not be YAML of a configuration. -/
def load (yaml : Str → Option Config) (file : Option Str) : Option Config :=
  file.bind fun data => (yaml data).map applyDefaults

/-- What `buildScheduler` hands to `New`. -/
def Config.settings (c : Config) : Settings :=
  new c.crawler.source c.crawler.maxPages c.crawler.maxConcurrency c.crawler.ratePerSec
    c.crawler.maxPageFailures

/-- The configuration of the producer. -/
def Config.producer (c : Config) (sha256 : Str → Str) : Producer :=
  ⟨sha256, c.redis.streamMaxLen.toNat⟩

/-! ## What the defaults ensure -/

theorem orPositive_pos (n : Int) {default : Int} (h : 0 < default) : 0 < orPositive n default := by
  unfold orPositive
  split
  · exact h
  · omega

theorem orPositive_of_pos {n : Int} (h : 0 < n) (default : Int) : orPositive n default = n :=
  if_neg (by omega)

theorem orText_ne_nil (s : Str) {default : Str} (h : default ≠ []) : orText s default ≠ [] := by
  unfold orText
  split
  · exact h
  · assumption

theorem orText_of_ne_nil {s : Str} (h : s ≠ []) (default : Str) : orText s default = s := if_neg h

/-- A configuration in which no default is missing. -/
structure Complete (c : Config) : Prop where
  addr : c.redis.addr ≠ []
  stream : c.redis.stream ≠ []
  consumerGroup : c.redis.consumerGroup ≠ []
  streamMaxLen : 0 < c.redis.streamMaxLen
  perPage : 0 < c.crawler.perPage
  maxConcurrency : 0 < c.crawler.maxConcurrency
  ratePerSec : 0 < c.crawler.ratePerSec
  maxPageFailures : 0 < c.crawler.maxPageFailures

theorem complete_applyDefaults (c : Config) : Complete (applyDefaults c) where
  addr := orText_ne_nil _ (by decide)
  stream := orText_ne_nil _ (by decide)
  consumerGroup := orText_ne_nil _ (by decide)
  streamMaxLen := orPositive_pos _ (by decide)
  perPage := orPositive_pos _ (by decide)
  maxConcurrency := orPositive_pos _ (by decide)
  ratePerSec := orPositive_pos _ (by decide)
  maxPageFailures := orPositive_pos _ (by decide)

/-- The defaults change nothing else. -/
theorem Complete.applyDefaults_eq {c : Config} (h : Complete c) : applyDefaults c = c := by
  obtain ⟨⟨addr, stream, group, maxLen⟩, ⟨source, perPage, conc, rate, since, pages, interval,
    failures, cursor⟩⟩ := c
  simp only [applyDefaults, orText_of_ne_nil h.addr, orText_of_ne_nil h.stream,
    orText_of_ne_nil h.consumerGroup, orPositive_of_pos h.streamMaxLen, orPositive_of_pos h.perPage,
    orPositive_of_pos h.maxConcurrency, orPositive_of_pos h.ratePerSec,
    orPositive_of_pos h.maxPageFailures]

theorem complete_of_load {yaml : Str → Option Config} {file : Option Str} {c : Config}
    (h : load yaml file = some c) : Complete c := by
  obtain ⟨data, -, hdata⟩ := Option.bind_eq_some_iff.mp h
  obtain ⟨raw, -, rfl⟩ := Option.map_eq_some_iff.mp hdata
  exact complete_applyDefaults raw

/-! ## Runs -/

section Runs

variable {α : Type} {s : Workers.State α} {es : List (Workers.Event α)}

/-- A limiter that admits something only fails on a cancelled context. -/
theorem admitted {cfg : Settings} (hrate : 0 < cfg.ratePerSec)
    (hrun : run (Workers.step cfg) start es = some s) :
    .cancel ∉ es → ¬ s.cancelled ∧ .limiter false ∉ es := by
  refine run_history (I := fun es s => .cancel ∉ es → ¬ s.cancelled ∧ .limiter false ∉ es) ?_
    (fun _ => ⟨Bool.false_ne_true, List.not_mem_nil⟩) hrun
  intro es s e t ih h hcancel
  rw [List.mem_append, not_or, List.mem_singleton] at hcancel
  obtain ⟨hcancelled, hes⟩ := ih hcancel.1
  refine ⟨?_, ?_⟩
  · rwa [cancelled_of_step h (Ne.symm hcancel.2)]
  · rw [List.mem_append, List.mem_singleton]
    rintro (hmem | rfl)
    · exact hes hmem
    · change Workers.mainStep cfg s (.limiter false) = some t at h
      simp only [Workers.mainStep, Bool.false_eq_true, if_false] at h
      split_ifs at h with hwait hfail
      rcases hfail with hfail | hfail
      · exact hcancelled hfail
      · omega

/-- Whatever a configuration file says, a run of its crawler that returns and was not cancelled
has called `RecordRun` once, with the exact counts, and has left nothing under way. -/
theorem loaded_run_recorded (yaml : Str → Option Config) (file : Option Str) (c : Config)
    (hload : load yaml file = some c) (es : List (Workers.Event α)) (s : Workers.State α)
    (hrun : run (Workers.step c.settings) start es = some s) (hover : s.pc = .returned)
    (hcancel : .cancel ∉ es) :
    records s.acts = [exactStats c.settings s.acts] ∧ s.tasks = [] ∧ s.results = [] := by
  have hlimiter := (admitted (complete_of_load hload).ratePerSec hrun hcancel).2
  rcases (reported hrun).ended hover with ⟨hmem, -⟩ | ⟨-, hrecords, htasks, hresults⟩
  · exact absurd hmem hlimiter
  · rw [hrecords, stats_exact hrun htasks hresults]
    exact ⟨rfl, htasks, hresults⟩

end Runs

/-- A file that says nothing but the source. -/
def bareFile : Str := lit "crawler:\n  source: fake\n"

def bareConfig : Config := ⟨⟨[], [], [], 0⟩, ⟨lit "fake", 0, 0, 0, 0, 0, 0, 0, false⟩⟩

def bareYaml (data : Str) : Option Config := if data = bareFile then some bareConfig else none

theorem loaded_run_recorded_sample : ∃ c s, load bareYaml (some bareFile) = some c ∧
    run (Workers.step c.settings) start ordinaryRun = some s ∧
    records s.acts = [exactStats c.settings s.acts] := by
  have hload : load bareYaml (some bareFile) = some (applyDefaults bareConfig) := by
    decide +kernel
  have hover : (run (Workers.step (applyDefaults bareConfig).settings) start ordinaryRun).map
      Workers.State.pc = some .returned := by decide +kernel
  obtain ⟨s, hs, hpc⟩ := Option.map_eq_some_iff.mp hover
  have hcancel : .cancel ∉ ordinaryRun := by decide
  obtain ⟨hrecords, -⟩ := loaded_run_recorded bareYaml (some bareFile) _ hload _ s hs hpc hcancel
  exact ⟨_, s, hload, hs, hrecords⟩

end WebSpider.Crawler.Configured
