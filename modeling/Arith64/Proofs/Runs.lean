import Arith64.Command.Run
import Arith64.Proofs.Emission
import Arith64.Proofs.Files

/-!
# Runs that make cases

A run writes the cases that it makes one after another, up to the first that
cannot be made. How many were asked for decides where the writing stops and
nothing else, so a run that asks for more writes the same text and goes on.
-/

namespace Arith64

/-! ## Cases one after another -/

variable {σ : Type} [RandomSource σ]

/-- What some number of cases drawn one after another come to, also behind one that fails. -/
def CaseOptions.results (o : CaseOptions) : Nat → σ → List (Except Failure TestCase)
  | 0, _ => []
  | n + 1, s => (o.drawCase s).1 :: o.results n (o.drawCase s).2

def finished : List (Except Failure TestCase) → List TestCase
  | .ok c :: rest => c :: finished rest
  | .error _ :: _ => []
  | [] => []

def firstFailure : List (Except Failure TestCase) → Option Failure
  | .ok _ :: rest => firstFailure rest
  | .error failure :: _ => some failure
  | [] => none

theorem finished_append (xs ys : List (Except Failure TestCase)) :
    ∃ more, finished (xs ++ ys) = finished xs ++ more := by
  induction xs with
  | nil => exact ⟨finished ys, rfl⟩
  | cons x xs ih =>
    cases x with
    | ok c =>
      obtain ⟨more, hmore⟩ := ih
      exact ⟨more, by rw [List.cons_append, finished, hmore, finished, List.cons_append]⟩
    | error failure => exact ⟨[], rfl⟩

theorem eq_finished_of_firstFailure {xs : List (Except Failure TestCase)} :
    match firstFailure xs with
    | none => xs = (finished xs).map .ok
    | some failure => ∃ rest, xs = (finished xs).map .ok ++ .error failure :: rest := by
  induction xs with
  | nil => rfl
  | cons x xs ih =>
    cases x with
    | ok c =>
      rw [firstFailure, finished]
      split at ih
      · rw [List.map_cons, ← ih]
      · obtain ⟨rest, hrest⟩ := ih
        exact ⟨rest, by rw [List.map_cons, List.cons_append, ← hrest]⟩
    | error failure => exact ⟨xs, rfl⟩

namespace CaseOptions

variable (o : CaseOptions)

theorem results_add (m n : Nat) (s : σ) : ∃ more, o.results (m + n) s = o.results m s ++ more := by
  induction m generalizing s with
  | zero => exact ⟨o.results n s, by rw [Nat.zero_add]; rfl⟩
  | succ m ih =>
    obtain ⟨more, hmore⟩ := ih (o.drawCase s).2
    refine ⟨more, ?_⟩
    rw [Nat.succ_add, results, hmore]
    rfl

theorem corpusFrom_eq (format : EmitFormat) (left index : Nat) (text : String) (s : σ) :
    (o.corpusFrom format left index text s).1 =
      ⟨text ++ TestCase.emitAll format (finished (o.results left s)),
        (firstFailure (o.results left s)).map fun failure =>
          (index + (finished (o.results left s)).length, failure)⟩ := by
  induction left generalizing index text s with
  | zero => simp [corpusFrom, draw_pure, results, finished, firstFailure, TestCase.emitAll]
  | succ left ih =>
    rw [corpusFrom, draw_bind, results]
    cases (o.drawCase s).1 with
    | ok c =>
      dsimp only
      rw [ih, finished, firstFailure, TestCase.emitAll_cons, ← String.append_assoc,
        List.length_cons]
      simp only [Nat.add_assoc, Nat.add_comm 1]
    | error failure =>
      dsimp only
      rw [draw_pure, finished, firstFailure, TestCase.emitAll]
      simp

end CaseOptions

/-! ## A workspace as the host -/

namespace Host

variable (time : UInt64) (w : Workspace) (path text : String)

theorem openText_ofWorkspace : (ofWorkspace time).openText path w = (w.openText path, w) := rfl

theorem makeDirectories_ofWorkspace :
    (ofWorkspace time).makeDirectories path w = w.makeDirectories path := rfl

theorem writeText_ofWorkspace :
    (ofWorkspace time).writeText path text w = w.writeText path text := rfl

end Host

/-! ## The text of a plan -/

namespace Plan

variable (p : Plan) (seed : UInt64)

def results : List (Except Failure TestCase) :=
  p.options.results p.count.toNat (Keystream.ofSeed seed)

theorem corpus_text :
    (p.corpus seed).text = TestCase.emitAll p.format (finished (p.results seed)) := by
  rw [corpus, CaseOptions.corpus, CaseOptions.corpusFrom_eq, String.empty_append]
  rfl

theorem corpus_failed_eq_none_iff :
    (p.corpus seed).failed = none ↔ firstFailure (p.results seed) = none := by
  rw [corpus, CaseOptions.corpus, CaseOptions.corpusFrom_eq, Option.map_eq_none_iff]
  rfl

/-- The directories and the file that a plan asks for can be made. -/
def Opens (p : Plan) (w : Workspace) : Prop :=
  ∀ path ∈ p.out, (w.makeDirectories (parentPath path)).1 = .ok () ∧
    ∃ place, (w.makeDirectories (parentPath path)).2.target path = .ok place

/-- What a run left where its plan says, on the screen or in a file. -/
def written? (p : Plan) (outcome : Outcome) (after : Workspace) : Option String :=
  match p.out with
  | none => some outcome.stdout
  | some path =>
    match after.openText path with
    | .ok text => text
    | .error _ => none

theorem exists_runWith {w : Workspace} (hopens : p.Opens w) (time : UInt64) :
    ∃ outcome after, p.runWith (Host.ofWorkspace time) seed w = (outcome, after) ∧
      p.written? outcome after = some (p.corpus seed).text ∧
      outcome.exitCode = if (p.corpus seed).failed = none then 0 else 1 := by
  unfold runWith written?
  cases hout : p.out with
  | none =>
    dsimp only
    cases (p.corpus seed).failed with
    | none => exact ⟨_, w, rfl, rfl, rfl⟩
    | some failure => exact ⟨_, w, rfl, rfl, rfl⟩
  | some path =>
    obtain ⟨hmade, place, hplace⟩ := hopens path hout
    dsimp only
    rw [draw_bind, Host.makeDirectories_ofWorkspace, hmade]
    -- from here on only the workspace with its new directories matters
    generalize (w.makeDirectories (parentPath path)).2 = w at hplace ⊢
    have hwrite : (w.writeText path (p.corpus seed).text).1 = .ok () := by
      rw [Workspace.writeText_eq hplace]
    dsimp only
    rw [draw_bind, Host.writeText_ofWorkspace, hwrite]
    have hopen : (w.writeText path (p.corpus seed).text).2.openText path =
        .ok (some (p.corpus seed).text) := Workspace.openText_writeText hplace
    dsimp only
    cases (p.corpus seed).failed with
    | none => exact ⟨_, _, rfl, by rw [hopen], rfl⟩
    | some failure => exact ⟨_, _, rfl, by rw [hopen], rfl⟩

theorem run_eq {w : Workspace} {time : UInt64} (hvalid : p.options.validate = .ok ()) :
    p.run (Host.ofWorkspace time) w =
      p.runWith (Host.ofWorkspace time) (p.seed.getD time) w := by
  unfold run
  rw [hvalid]
  cases p.seed with
  | none => rfl
  | some seed => rfl

end Plan

/-- What a request and the settings it names come to, if they can be read. -/
def GenRequest.plan? (r : GenRequest) (w : Workspace) : Option Plan :=
  match r.config with
  | none => some (r.plan {})
  | some path =>
    match w.openText path with
    | .ok text => (text.bind Settings.ofText?).map r.plan
    | .error _ => none

theorem GenRequest.run_eq {r : GenRequest} {w : Workspace} {p : Plan} (h : r.plan? w = some p)
    (time : UInt64) : r.run (Host.ofWorkspace time) w = p.run (Host.ofWorkspace time) w := by
  unfold plan? at h
  unfold run
  cases hconfig : r.config with
  | none =>
    rw [hconfig, Option.some.injEq] at h
    dsimp only
    rw [h]
  | some path =>
    rw [hconfig] at h
    dsimp only at *
    rw [draw_bind, Host.openText_ofWorkspace]
    cases htext : w.openText path with
    | error e =>
      rw [htext] at h
      cases h
    | ok text =>
      rw [htext] at h
      obtain ⟨settings, hsettings, rfl⟩ := Option.map_eq_some_iff.mp h
      dsimp only
      rw [hsettings]

/-! ## Runs -/

/-- A run of a command line that asks for cases, with options that allow some and a place to write
them to. -/
structure GenRun where
  words : List String
  workspace : Workspace
  time : UInt64
  request : GenRequest
  plan : Plan
  asked : Command.ofWords? words = some (.gen request)
  planned : request.plan? workspace = some plan
  valid : plan.options.validate = .ok ()
  opens : plan.Opens workspace

namespace GenRun

variable (run : GenRun)

def seed : UInt64 := run.plan.seed.getD run.time

def ends : Outcome × Workspace := runWords (Host.ofWorkspace run.time) run.words run.workspace

def exitCode : UInt32 := run.ends.1.exitCode

def written? : Option String := run.plan.written? run.ends.1 run.ends.2

def results : List (Except Failure TestCase) := run.plan.results run.seed

theorem ends_spec : run.written? = some (TestCase.emitAll run.plan.format (finished run.results)) ∧
    run.exitCode = if firstFailure run.results = none then 0 else 1 := by
  obtain ⟨outcome, after, hrun, hwritten, hcode⟩ :=
    run.plan.exists_runWith run.seed run.opens run.time
  have hends : run.ends = (outcome, after) := by
    unfold ends runWords
    rw [run.asked]
    dsimp only
    rw [Command.run, GenRequest.run_eq run.planned, Plan.run_eq _ run.valid]
    exact hrun
  unfold written? exitCode results
  rw [hends, hwritten, hcode, Plan.corpus_text]
  simp only [Plan.corpus_failed_eq_none_iff, and_self]

theorem exists_finished :
    (run.exitCode = 0 ∧ run.results = (finished run.results).map .ok) ∨
      run.exitCode = 1 ∧ ∃ failure rest,
        run.results = (finished run.results).map .ok ++ .error failure :: rest := by
  have hsplit := @eq_finished_of_firstFailure run.results
  rw [run.ends_spec.2]
  cases hfirst : firstFailure run.results with
  | none =>
    rw [hfirst] at hsplit
    exact .inl ⟨rfl, hsplit⟩
  | some failure =>
    rw [hfirst] at hsplit
    obtain ⟨rest, hrest⟩ := hsplit
    exact .inr ⟨rfl, failure, rest, hrest⟩

theorem exitCode_eq_zero_iff : run.exitCode = 0 ↔ ∀ result ∈ run.results, ∃ c, result = .ok c := by
  rcases run.exists_finished with ⟨hcode, hall⟩ | ⟨hcode, failure, rest, hfail⟩
  · refine iff_of_true hcode ?_
    rw [hall, List.forall_mem_map]
    exact fun c _ => ⟨c, rfl⟩
  · refine iff_of_false (by rw [hcode]; decide) ?_
    intro hall
    obtain ⟨c, hc⟩ := hall (.error failure) (by rw [hfail]; simp)
    cases hc

theorem exists_results_append {longer : GenRun} (hseed : longer.seed = run.seed)
    (hoptions : longer.plan.options = run.plan.options)
    (hcount : run.plan.count ≤ longer.plan.count) :
    ∃ more, longer.results = run.results ++ more := by
  obtain ⟨k, hk⟩ := Nat.exists_eq_add_of_le (UInt32.le_iff_toNat_le.mp hcount)
  unfold results Plan.results
  rw [hseed, hoptions, hk]
  exact run.plan.options.results_add _ k _

/-- A run leaves what was emitted for the cases in front of the first failure, and one that asks for
more cases of the same kind goes on from there. -/
theorem keeps_finished_cases :
    ∃ text, run.written? = some text ∧
      (run.exitCode = 0 ↔ ∀ result ∈ run.results, ∃ c, result = .ok c) ∧
      (run.exitCode = 0 ∧ (∃ cs, run.results = cs.map .ok ∧
          text = TestCase.emitAll run.plan.format cs) ∨
        run.exitCode = 1 ∧ ∃ cs failure rest,
          run.results = cs.map .ok ++ .error failure :: rest ∧
          text = TestCase.emitAll run.plan.format cs) ∧
      ∀ longer : GenRun, longer.seed = run.seed → longer.plan.options = run.plan.options →
        longer.plan.format = run.plan.format → run.plan.count ≤ longer.plan.count →
        ∃ more, longer.written? = some (text ++ more) := by
  refine ⟨_, run.ends_spec.1, ?_, ?_, ?_⟩
  · exact run.exitCode_eq_zero_iff
  · rcases run.exists_finished with ⟨hcode, hall⟩ | ⟨hcode, failure, rest, hfail⟩
    · exact .inl ⟨hcode, _, hall, rfl⟩
    · exact .inr ⟨hcode, _, failure, rest, hfail, rfl⟩
  · intro longer hseed hoptions hformat hcount
    obtain ⟨results, hresults⟩ := run.exists_results_append hseed hoptions hcount
    obtain ⟨cs, hcs⟩ := finished_append run.results results
    refine ⟨TestCase.emitAll run.plan.format cs, ?_⟩
    rw [longer.ends_spec.1, hformat, hresults, hcs, TestCase.emitAll_append]

/-- Two requests with one settings file: one case on the screen, and two in a file that is to be
made in a new directory. The second case has no value. -/
def faultySettings : Workspace where
  files := [(Place.top ++ ["gen.json"],
    "\x7b\"seed\": 54, \"case\": \x7b\"max_depth\": 2, \"range\": \"small\", " ++
      "\"fault_policy\": \"fail\"\x7d\x7d")]

def onScreen : GenRun where
  words := ["gen", "--config", "gen.json"]
  workspace := faultySettings
  time := 0
  request := { config := some "gen.json" }
  plan :=
    { seed := some 54, count := 1, format := .template, out := none
      options := { maxDepth := 2, range := .small, faultPolicy := .fail } }
  asked := by decide
  planned := by cbv
  valid := rfl
  opens := by rintro path ⟨⟩

def inFile : GenRun where
  words := ["gen", "--config=gen.json", "--count", "2", "--out", "new/cases.txt"]
  workspace := faultySettings
  time := 1
  request := { config := some "gen.json", count := some 2, out := some "new/cases.txt" }
  plan := { onScreen.plan with count := 2, out := some "new/cases.txt" }
  asked := by decide
  planned := by cbv
  valid := rfl
  opens := by
    rintro path ⟨⟩
    exact ⟨by cbv, Place.top ++ ["new", "cases.txt"], by cbv⟩

theorem keeps_case_before_fault :
    let c : TestCase := ⟨19, "(19 % (895))", "fmod(i64(19), (i64(895)))", 1,
      .binary .rem (.literal 19) (.group (.literal 895))⟩
    onScreen.exitCode = 0 ∧ onScreen.written? = some c.template ∧
      inFile.exitCode ≠ 0 ∧ ∃ more, inFile.written? = some (c.template ++ more) := by
  intro c
  have hone : onScreen.results = [.ok c] := by cbv
  have htwo : inFile.results = [.ok c, .error (.fault .divisionByZero)] := by cbv
  obtain ⟨text, hwritten, hzero, hends, hlonger⟩ := keeps_finished_cases onScreen
  obtain ⟨-, -, hfile, -⟩ := keeps_finished_cases inFile
  obtain ⟨more, hmore⟩ := hlonger inFile rfl rfl rfl (by decide)
  have hcode : onScreen.exitCode = 0 := hzero.mpr (by simp [hone])
  have htext : text = c.template := by
    rcases hends with ⟨-, cs, hcs, htext⟩ | ⟨hfailed, -⟩
    · rw [hone] at hcs
      obtain ⟨a, rfl, ha⟩ := List.map_eq_singleton_iff.mp hcs.symm
      cases ha
      rw [htext, TestCase.emitAll_cons]
      simp [TestCase.emitAll, onScreen, TestCase.emit_template]
    · rw [hcode] at hfailed
      cases hfailed
  rw [htext] at hwritten hmore
  exact ⟨hcode, hwritten, by simp [hfile, htwo], more, hmore⟩

end GenRun

end Arith64
