import Arith64.Proofs.Decimal
import Arith64.Proofs.Runs

/-!
# Settings from words and from a file

A setting can stand in a word of the command line or in a settings file, and
the word wins. A run with a file is the run of the words that give every
setting outright. Settings that no case can come from end a run before it says
or touches anything.
-/

namespace Arith64

/-! ## Values as words -/

theorem splitSign_decimal (n : Nat) : splitSign (decimal n) = (false, decimal n) := by
  obtain ⟨c, cs, hn, hdigit, -⟩ := decimal_toList_eq_cons n
  unfold splitSign
  rw [hn]
  split
  · rename_i h
    obtain ⟨rfl, -⟩ := List.cons.inj h
    cases hdigit
  · rename_i h
    obtain ⟨rfl, -⟩ := List.cons.inj h
    cases hdigit
  · rfl

theorem natural?_decimal (n : Nat) : natural? (decimal n) = some n := by
  obtain ⟨c, cs, hn, -⟩ := decimal_toList_eq_cons n
  have hall : (decimal n).toList.all Char.isDigit = true :=
    List.all_eq_true.mpr fun _ => isDigit_of_mem_decimal
  have hne : (decimal n).toList ≠ [] := by simp [hn]
  unfold natural?
  rw [if_pos ⟨hne, hall⟩, digitsValue_decimal]

theorem word32OfText?_decimal (n : UInt32) : word32OfText? (decimal n.toNat) = some n := by
  simp [word32OfText?, splitSign_decimal, natural?_decimal, n.toNat_lt_size]

theorem word64OfText?_decimal (n : UInt64) : word64OfText? (decimal n.toNat) = some n := by
  simp [word64OfText?, splitSign_decimal, natural?_decimal, n.toNat_lt_size]

theorem choiceOfText?_format (format : EmitFormat) :
    choiceOfText? EmitFormat.all EmitFormat.name format.name = some format := by
  cases format <;> rfl

theorem choiceOfText?_policy (policy : FaultPolicy) :
    choiceOfText? FaultPolicy.all FaultPolicy.name policy.name = some policy := by
  cases policy <;> rfl

/-! ## Options as words -/

/-- An option and its value in one word. -/
def optionWord (option value : String) : String := option ++ "=" ++ value

/-- The option that stands for a range. -/
def LiteralRange.flag : LiteralRange → String
  | full => "--full-range"
  | small => "--small-range"

section Options

variable {option value : String}

theorem toList_optionWord :
    (optionWord option value).toList = option.toList ++ '=' :: value.toList := by
  simp [optionWord]

theorem splitEquals?_optionWord (h : '=' ∉ option.toList) :
    splitEquals? (optionWord option value) = some (option, value) := by
  have hfront : ∀ c ∈ option.toList, (c != '=') = true := by
    intro c hc
    exact bne_iff_ne.mpr (by rintro rfl; exact h hc)
  have hstop : StopsRun (· != '=') ('=' :: value.toList) := stopsRun_cons rfl
  simp only [splitEquals?, toList_optionWord, dropWhile_run hfront hstop,
    takeWhile_run hfront hstop, String.ofList_toList]

theorem optionWord_ne {word : String} (h : '=' ∉ word.toList) : optionWord option value ≠ word := by
  rintro rfl
  rw [toList_optionWord] at h
  simp at h

namespace Command

variable {r : GenRequest} {words : List String}

theorem readGen_optionWord (hdashes : ['-', '-'] <+: option.toList) (h : '=' ∉ option.toList) :
    readGen r (optionWord option value :: words) =
      (r.put option value).bind fun r => readGen r words := by
  have hend (h : optionWord option value = "--") : words = [] → False :=
    absurd h (optionWord_ne (by decide))
  have hhelp : ¬(optionWord option value = "--help" ∨
      startsWithFlag 'h' (optionWord option value) = true) := by
    obtain ⟨name, hname⟩ := hdashes
    rintro (hword | hword)
    · exact optionWord_ne (by decide) hword
    · rw [startsWithFlag, toList_optionWord, ← hname] at hword
      cases hword
  have hrange : GenRequest.rangeOfFlag? (optionWord option value) = none := by
    unfold GenRequest.rangeOfFlag?
    split
    · exact absurd ‹_› (optionWord_ne (by decide))
    · exact absurd ‹_› (optionWord_ne (by decide))
    · rfl
  cases words <;> rw [readGen, if_neg hhelp, hrange, splitEquals?_optionWord h] <;>
    first | rfl | exact hend

theorem readGen_options {options : List (String × String)}
    (hdashes : ∀ o ∈ options, ['-', '-'] <+: o.1.toList) (h : ∀ o ∈ options, '=' ∉ o.1.toList) :
    readGen r (options.map fun o => optionWord o.1 o.2) =
      (options.foldlM (fun (r : GenRequest) o => r.put o.1 o.2) r).map .gen := by
  induction options generalizing r with
  | nil => rfl
  | cons o options ih =>
    rw [List.forall_mem_cons] at hdashes h
    rw [List.map_cons, readGen_optionWord hdashes.1 h.1, List.foldlM_cons]
    cases r.put o.1 o.2 with
    | none => rfl
    | some r => exact ih hdashes.2 h.2

theorem readGen_flag (hr : r.range = none) (range : LiteralRange) :
    readGen r (range.flag :: words) = readGen { r with range := some range } words := by
  cases range <;> cases words <;>
    simp [LiteralRange.flag, readGen, startsWithFlag, GenRequest.rangeOfFlag?, fillOnce, hr]

end Command

end Options

/-! ## Paths that are read -/

theorem exists_of_fillOnce {α : Type} {place value filled : Option α}
    (h : fillOnce place value = some filled) : ∃ v, value = some v ∧ filled = some v := by
  unfold fillOnce at h
  split at h
  · exact ⟨_, rfl, (Option.some.inj h).symm⟩
  · cases h

theorem path?_ne (text : String) : path? text ≠ some "" := by
  unfold path?
  split
  · simp
  · rename_i h
    rintro ⟨⟩
    exact h rfl

theorem GenRequest.out_ne_of_put {r r' : GenRequest} {option value : String}
    (hr : r.out ≠ some "") (h : r.put option value = some r') : r'.out ≠ some "" := by
  unfold put at h
  split at h
  all_goals first | cases h | obtain ⟨v, hv, rfl⟩ := Option.map_eq_some_iff.mp h
  case h_8 =>
    obtain ⟨path, hpath, rfl⟩ := exists_of_fillOnce hv
    exact hpath ▸ path?_ne value
  all_goals exact hr

theorem Command.out_ne_of_readGen {r r' : GenRequest} {words : List String}
    (hr : r.out ≠ some "") (h : readGen r words = some (.gen r')) : r'.out ≠ some "" := by
  fun_induction readGen r words with
  | case1 r =>
    cases h
    exact hr
  | case2 r =>
    cases h
    exact hr
  | case3 => cases h
  | case4 r word words _ _ range _ ih =>
    obtain ⟨filled, -, h⟩ := Option.bind_eq_some_iff.mp h
    exact ih filled hr h
  | case5 r word words _ _ _ option value _ ih =>
    obtain ⟨next, hput, h⟩ := Option.bind_eq_some_iff.mp h
    exact ih next (GenRequest.out_ne_of_put hr hput) h
  | case6 r word _ _ _ value words _ _ ih =>
    obtain ⟨next, hput, h⟩ := Option.bind_eq_some_iff.mp h
    exact ih next (GenRequest.out_ne_of_put hr hput) h
  | case7 => cases h
  | case8 => cases h

theorem Command.readEval_ne_gen {r : GenRequest} {words : List String} :
    readEval words ≠ some (.gen r) := by
  unfold readEval
  grind

theorem Command.readHelp_ne_gen {r : GenRequest} {words : List String} :
    readHelp words ≠ some (.gen r) := by
  unfold readHelp
  split <;> simp

theorem Command.out_ne_of_ofWords? {r : GenRequest} {words : List String}
    (h : ofWords? words = some (.gen r)) : r.out ≠ some "" := by
  unfold ofWords? at h
  split at h
  · exact out_ne_of_readGen (by simp) h
  · exact absurd h readEval_ne_gen
  · exact absurd h readHelp_ne_gen
  · split at h
    · cases h
    · split at h <;> cases h
  · cases h

/-! ## Runs with a settings file -/

namespace Plan

variable {p : Plan} {seed time : UInt64} {w : Workspace}

theorem failed_config (reason : String) : Outcome.failed "" (Failure.config reason).message [] =
    ⟨1, "", "Error: config error: " ++ reason ++ "\n"⟩ := by
  have hmessage : (Failure.config reason).message = "config error: " ++ reason := rfl
  have hfront : "Error: " ++ "config error: " = "Error: config error: " := by decide
  rw [Outcome.failed, hmessage, ← hfront]
  simp only [errorReport, List.isEmpty_nil, if_true, String.empty_append, String.append_empty,
    String.append_assoc]

theorem run_of_seed (h : p.seed = some seed) (time' : UInt64) :
    p.run (Host.ofWorkspace time') w = p.run (Host.ofWorkspace time) w := by
  unfold run
  rw [h]
  cases p.options.validate <;> rfl

theorem stderr_runWith :
    ∃ said, (p.runWith (Host.ofWorkspace time) seed w).1.stderr = seedLine seed ++ said := by
  unfold runWith
  cases p.out with
  | none =>
    cases hfailed : (p.corpus seed).failed with
    | none => exact ⟨"", by simp; rfl⟩
    | some failure => exact ⟨_, rfl⟩
  | some path =>
    dsimp only
    rw [draw_bind, Host.makeDirectories_ofWorkspace]
    cases (w.makeDirectories (parentPath path)).1 with
    | error e => exact ⟨_, rfl⟩
    | ok =>
      dsimp only
      rw [draw_bind, Host.writeText_ofWorkspace]
      cases ((w.makeDirectories (parentPath path)).2.writeText path (p.corpus seed).text).1 with
      | error e => exact ⟨_, rfl⟩
      | ok =>
        cases (p.corpus seed).failed with
        | none => exact ⟨"wrote " ++ path ++ "\n", by simp only [← String.append_assoc]; rfl⟩
        | some failure => exact ⟨_, rfl⟩

end Plan

/-- A command line that asks for cases and names a settings file, with settings in it. -/
structure ConfiguredRun where
  words : List String
  workspace : Workspace
  request : GenRequest
  path : String
  text : String
  settings : Settings
  asked : Command.ofWords? words = some (.gen request)
  named : request.config = some path
  opened : workspace.openText path = .ok (some text)
  read : Settings.ofText? text = some settings

namespace ConfiguredRun

variable (run : ConfiguredRun)

def ends (time : UInt64) : Outcome × Workspace :=
  runWords (Host.ofWorkspace time) run.words run.workspace

/-! Each setting is what a word says, or else what the file says, or else its default. -/

def depth : UInt32 := run.request.depth.getD run.settings.options.maxDepth

def range : LiteralRange := run.request.range.getD run.settings.options.range

def seed? : Option UInt64 := run.request.seed.or run.settings.seed

def count : UInt32 := run.request.count.getD (run.settings.count.getD 1)

def format : EmitFormat := run.request.format.getD (run.settings.format.getD .template)

def policy : FaultPolicy := run.request.policy.getD run.settings.options.faultPolicy

def attempts : UInt32 := run.request.maxAttempts.getD run.settings.options.maxAttempts

/-- A request that gives every setting outright and names no settings file. -/
def outright (seed : UInt64) : GenRequest where
  depth := some run.depth
  range := some run.range
  seed := some seed
  count := some run.count
  format := some run.format
  policy := some run.policy
  maxAttempts := some run.attempts
  out := run.request.out

/-- The options of such a request, but for the range. -/
def options (seed : UInt64) : List (String × String) :=
  [("--depth", decimal run.depth.toNat), ("--seed", decimal seed.toNat),
    ("--count", decimal run.count.toNat), ("--format", run.format.name),
    ("--policy", run.policy.name), ("--max-attempts", decimal run.attempts.toNat)] ++
  run.request.out.toList.map fun path => ("--out", path)

def outrightWords (seed : UInt64) : List String :=
  "gen" :: run.range.flag :: (run.options seed).map fun o => optionWord o.1 o.2

theorem ofWords?_outrightWords (seed : UInt64) :
    Command.ofWords? (run.outrightWords seed) = some (.gen (run.outright seed)) := by
  have hnames : ∀ name ∈ (run.options seed).map Prod.fst,
      ['-', '-'] <+: name.toList ∧ '=' ∉ name.toList := by
    cases hout : run.request.out <;> simp [options, hout]
  have hpath : ∀ path ∈ run.request.out, path? path = some path := by
    intro path hpath
    have hout := Command.out_ne_of_ofWords? run.asked
    rw [Option.mem_def.mp hpath] at hout
    simpa [path?] using hout
  rw [List.forall_mem_map] at hnames
  rw [outrightWords, Command.ofWords?, Command.readGen_flag rfl,
    Command.readGen_options (fun o ho => (hnames o ho).1) (fun o ho => (hnames o ho).2)]
  cases hout : run.request.out with
  | none =>
    simp [options, outright, hout, GenRequest.put, fillOnce, word32OfText?_decimal,
      word64OfText?_decimal, choiceOfText?_format, choiceOfText?_policy]
  | some path =>
    simp [options, outright, hout, GenRequest.put, fillOnce, word32OfText?_decimal,
      word64OfText?_decimal, choiceOfText?_format, choiceOfText?_policy, hpath path hout]

def plan : Plan := run.request.plan run.settings

theorem plan_outright {seed : UInt64} (h : run.seed? = some seed) :
    (run.outright seed).plan {} = run.plan := by
  rw [seed?] at h
  simp [plan, GenRequest.plan, outright, depth, range, count, format, policy, attempts, h]

theorem ends_eq (time : UInt64) :
    run.ends time = run.plan.run (Host.ofWorkspace time) run.workspace := by
  have hplan : run.request.plan? run.workspace = some run.plan := by
    simp only [GenRequest.plan?, run.named, run.opened, Option.bind_some, run.read]
    rfl
  rw [ends, runWords, run.asked]
  exact GenRequest.run_eq hplan time

theorem validate_eq : run.plan.options.validate =
    if run.attempts = 0 then .error .noAttempts
    else if 32 < run.depth then .error (.tooDeep run.depth)
    else .ok () := rfl

/-- Nothing was said or touched, but for what is wrong with the settings. -/
def Refused (time : UInt64) (message : String) : Prop :=
  run.ends time = (⟨1, "", "Error: config error: " ++ message ++ "\n"⟩, run.workspace)

theorem refused_of_validate {time : UInt64} {invalid : CaseOptions.Invalid}
    (h : run.plan.options.validate = .error invalid) : run.Refused time invalid.message := by
  rw [Refused, ends_eq, Plan.run, h, ← Plan.failed_config]
  rfl

theorem refused_of_noAttempts {time : UInt64} (h : run.attempts = 0) :
    run.Refused time "max_attempts must be at least 1" := by
  have hinvalid : run.plan.options.validate = .error .noAttempts := by rw [validate_eq, if_pos h]
  have hrefused : run.Refused time _ := run.refused_of_validate hinvalid
  rwa [CaseOptions.Invalid.message] at hrefused

theorem refused_of_tooDeep {time : UInt64} (h : run.attempts ≠ 0) (hdepth : 32 < run.depth) :
    run.Refused time ("max_depth " ++ decimal run.depth.toNat ++ " exceeds the limit of 32") := by
  have hinvalid : run.plan.options.validate = .error (.tooDeep run.depth) := by
    rw [validate_eq, if_neg h, if_pos hdepth]
  have hlimit : " exceeds the limit of " ++ decimal CaseOptions.depthLimit.toNat =
      " exceeds the limit of 32" := by
    decide
  have hrefused : run.Refused time _ := run.refused_of_validate hinvalid
  rwa [CaseOptions.Invalid.message, String.append_assoc, hlimit] at hrefused

theorem starts_of_valid {time : UInt64} (h : run.attempts ≠ 0) (hdepth : run.depth ≤ 32) :
    ∃ said, (run.ends time).1.stderr =
      "seed: " ++ decimal (run.seed?.getD time).toNat ++ "\n" ++ said := by
  have hvalid : run.plan.options.validate = .ok () := by
    rw [validate_eq, if_neg h, if_neg (UInt32.not_lt.mpr hdepth)]
  rw [ends_eq, Plan.run_eq _ hvalid]
  exact Plan.stderr_runWith

theorem refused_iff {time : UInt64} :
    (∃ message, run.Refused time message) ↔ run.attempts = 0 ∨ 32 < run.depth := by
  constructor
  · rintro ⟨message, hrefused⟩
    by_contra! hvalid
    obtain ⟨said, hsaid⟩ : ∃ said, (run.ends time).1.stderr = _ ++ said :=
      run.starts_of_valid hvalid.1 (UInt32.not_lt.mp hvalid.2)
    rw [hrefused] at hsaid
    have := congrArg (·.toList.head?) hsaid
    simp at this
  · intro h
    by_cases hattempts : run.attempts = 0
    · exact ⟨_, run.refused_of_noAttempts hattempts⟩
    · exact ⟨_, run.refused_of_tooDeep hattempts (h.resolve_left hattempts)⟩

/-- A setting in a file does what the word for it does, unless there is such a word. Settings that
no case can come from end the run before anything is said or touched. -/
theorem file_as_words (time : UInt64) :
    (∀ seed ∈ run.seed?,
      Command.ofWords? (run.outrightWords seed) = some (.gen (run.outright seed)) ∧
        ∀ words time', Command.ofWords? words = some (.gen (run.outright seed)) →
          runWords (Host.ofWorkspace time') words run.workspace = run.ends time) ∧
      (run.attempts = 0 → run.Refused time "max_attempts must be at least 1") ∧
      (run.attempts ≠ 0 → 32 < run.depth →
        run.Refused time
          ("max_depth " ++ decimal run.depth.toNat ++ " exceeds the limit of 32")) ∧
      (run.attempts ≠ 0 → run.depth ≤ 32 → ∃ said, (run.ends time).1.stderr =
        "seed: " ++ decimal (run.seed?.getD time).toNat ++ "\n" ++ said) ∧
      ((∃ message, run.Refused time message) ↔ run.attempts = 0 ∨ 32 < run.depth) ∧
      (∀ depth ∈ run.request.depth, depth ≤ 32 →
        ((∃ message, run.Refused time message) ↔ run.attempts = 0)) ∧
      ∀ attempts ∈ run.request.maxAttempts, attempts ≠ 0 →
        ((∃ message, run.Refused time message) ↔ 32 < run.depth) := by
  refine ⟨?_, run.refused_of_noAttempts, run.refused_of_tooDeep, run.starts_of_valid,
    run.refused_iff, ?_, ?_⟩
  · intro seed hseed
    refine ⟨run.ofWords?_outrightWords seed, ?_⟩
    intro words time' hwords
    have hplan : (run.outright seed).plan? run.workspace = some run.plan := by
      rw [← run.plan_outright hseed]
      rfl
    rw [run.ends_eq, runWords, hwords, ← Plan.run_of_seed (hseed : run.plan.seed = some seed) time']
    exact GenRequest.run_eq hplan time'
  · intro depth hdepth hlimit
    have hmerged : run.depth = depth := by rw [ConfiguredRun.depth, Option.mem_def.mp hdepth]; rfl
    rw [refused_iff, hmerged]
    exact or_iff_left (UInt32.not_lt.mpr hlimit)
  · intro attempts hattempts hne
    have hmerged : run.attempts = attempts := by
      rw [ConfiguredRun.attempts, Option.mem_def.mp hattempts]
      rfl
    rw [refused_iff, hmerged]
    exact or_iff_right hne

/-- A run whose settings file asks for too great a depth, which a word takes back. -/
def rescued : ConfiguredRun where
  words := ["gen", "--config", "gen.json", "--depth", "2", "--out=new/cases.txt"]
  workspace :=
    { files := [(Place.top ++ ["gen.json"],
        "\x7b\"seed\": 7, \"format\": \"json\", \"case\": \x7b\"max_depth\": 33\x7d\x7d")] }
  request := { config := some "gen.json", depth := some 2, out := some "new/cases.txt" }
  path := "gen.json"
  text := "\x7b\"seed\": 7, \"format\": \"json\", \"case\": \x7b\"max_depth\": 33\x7d\x7d"
  settings := { seed := some 7, format := some .json, options := { maxDepth := 33 } }
  asked := by decide
  named := rfl
  opened := by cbv
  read := by cbv

theorem rescued_as_words :
    runWords (Host.ofWorkspace 5)
      ["gen", "--full-range", "--depth=2", "--seed=7", "--count=1", "--format=json",
        "--policy=regenerate", "--max-attempts=64", "--out=new/cases.txt"] rescued.workspace =
        rescued.ends 1 ∧
      ¬∃ message, rescued.Refused 1 message := by
  obtain ⟨hsame, -, -, -, hrefused, -⟩ := file_as_words rescued 1
  constructor
  · exact (hsame 7 rfl).2 _ 5 (by decide)
  · rw [hrefused]
    decide

end ConfiguredRun

end Arith64
