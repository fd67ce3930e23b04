import InvariantSearch.CommandLine.Run
import InvariantSearch.Proofs.Following
import InvariantSearch.Proofs.Modes

/-!
# What a run comes to

A run of the program with a problem file exits with 0 if and only if the whole text is a problem,
all options come first and are set as they have to be (`OptionsSet`), no other command is refused,
and every check finds a solution (`runCommandLine_spec`). If the text is not a problem, nothing is
shown on the standard output. Otherwise the results shown are those of the checks before the first
command that is refused, in order, and each is that of the problem stated by the declarations before
the check. A run whose commands are all accepted does end
(`Settings.Accepts.exists_runCommandLine`).
-/

namespace InvariantSearch

variable {cs lead rest : List (Span × Command)}

/-! ## Options -/

/-- The values that an option is set to, in order. -/
def optionValues (name : String) (cs : List (Span × Command)) : List String :=
  cs.filterMap fun c =>
    match c.2 with
    | .setOption name' value => if name' = name then some value else none
    | _ => none

/-- The logics that are set, in order. -/
def logics (cs : List (Span × Command)) : List Logic :=
  cs.filterMap fun c =>
    match c.2 with
    | .setLogic logic => some logic
    | _ => none

/-- The values of the two options that count are Booleans, and their last values are those that a
problem has to have. -/
structure OptionsSet (cs : List (Span × Command)) : Prop where
  synthesisValues : ∀ value ∈ optionValues "sygus" cs, value = "true" ∨ value = "false"
  incrementalValues : ∀ value ∈ optionValues "incremental" cs, value = "true" ∨ value = "false"
  synthesis : (optionValues "sygus" cs).getLastD "true" = "true"
  incremental : (optionValues "incremental" cs).getLastD "false" = "false"

/-- The options of a problem that are set in this way, with the last logic. -/
def optionsOf (cs : List (Span × Command)) : ProblemOptions :=
  ⟨true, false, (logics cs).getLastD .lia⟩

theorem optionValues_setOption (name name' value : String) (span : Span) :
    optionValues name ((span, .setOption name' value) :: cs) =
      if name' = name then value :: optionValues name cs else optionValues name cs := by
  rw [optionValues, List.filterMap_cons]
  split <;> split <;> simp_all [optionValues]

/-- A flag is read if its value is a Boolean. -/
theorem readFlag_bind_eq_ok_iff {value : String} {span : Span}
    {f : Bool → Except Failure (ProblemOptions × Span)} {r : ProblemOptions × Span} :
    ((readFlag value).mapError (⟨·, span⟩) >>= f) = .ok r ↔
      (value = "true" ∨ value = "false") ∧ f (decide (value = "true")) = .ok r := by
  unfold readFlag
  split
  next => simp [Except.mapError, bind, Except.bind]
  next => simp [Except.mapError, bind, Except.bind]
  next htrue hfalse =>
    have hne : ¬(value = "true" ∨ value = "false") := not_or.2 ⟨htrue, hfalse⟩
    simp [Except.mapError, bind, Except.bind, hne]

/-- The options are taken if the values that count are Booleans, and the last value of each
counts. -/
theorem take_eq_ok_iff {o o' : ProblemOptions} {place : Span} :
    (∃ place', o.take place cs = .ok (o', place')) ↔
      ((∀ value ∈ optionValues "sygus" cs, value = "true" ∨ value = "false") ∧
        ∀ value ∈ optionValues "incremental" cs, value = "true" ∨ value = "false") ∧
      o' = ⟨((optionValues "sygus" cs).map (decide <| · = "true")).getLastD o.synthesis,
        ((optionValues "incremental" cs).map (decide <| · = "true")).getLastD o.incremental,
        (logics cs).getLastD o.logic⟩ := by
  induction cs generalizing o place with
  | nil => simp [ProblemOptions.take, optionValues, logics, eq_comm]
  | cons c cs ih =>
    obtain ⟨span, c⟩ := c
    cases c with
    | setLogic logic =>
      have hlogics : logics ((span, .setLogic logic) :: cs) = logic :: logics cs := rfl
      rw [ProblemOptions.take, ih, hlogics, List.getLastD_cons]
      rfl
    | setOption name value =>
      have hlogics : logics ((span, .setOption name value) :: cs) = logics cs := rfl
      rw [optionValues_setOption, optionValues_setOption, hlogics]
      by_cases hs : name = "sygus"
      · subst hs
        rw [ProblemOptions.take]
        simp only [readFlag_bind_eq_ok_iff, exists_and_left, ih, if_true, String.reduceEq, if_false,
          List.forall_mem_cons, List.map_cons, List.getLastD_cons, and_assoc]
      · by_cases hi : name = "incremental"
        · subst hi
          rw [ProblemOptions.take]
          simp only [readFlag_bind_eq_ok_iff, exists_and_left, ih, if_true, String.reduceEq,
            if_false, List.forall_mem_cons, List.map_cons, List.getLastD_cons, and_assoc,
            and_left_comm]
        · have hignored : o.take place ((span, .setOption name value) :: cs) = o.take place cs := by
            rw [ProblemOptions.take] <;> simp [hs, hi]
          rw [if_neg hs, if_neg hi, hignored]
          exact ih
    | declareVar | defineFun | synthFun | invConstraint | checkSynth => exact ih

theorem new_eq_ok_iff {o : ProblemOptions} {p : SynthProblem} : SynthProblem.new o = .ok p ↔
    o.synthesis = true ∧ o.incremental = false ∧ p = ⟨o.logic, [], [], none, none⟩ := by
  unfold SynthProblem.new
  cases o.synthesis <;> cases o.incremental <;> simp [eq_comm]

/-- A problem without declarations is given by options that are set as they have to be. -/
theorem ofOptions_eq_ok_iff {p : SynthProblem} : SynthProblem.ofOptions cs = .ok p ↔
    OptionsSet cs ∧ SynthProblem.new (optionsOf cs) = .ok p := by
  have hsynthesis : ((optionValues "sygus" cs).map (decide <| · = "true")).getLastD true =
      decide ((optionValues "sygus" cs).getLastD "true" = "true") :=
    List.getLastD_map (a := "true")
  have hincremental : ((optionValues "incremental" cs).map (decide <| · = "true")).getLastD false =
      decide ((optionValues "incremental" cs).getLastD "false" = "true") :=
    List.getLastD_map (a := "false")
  have htaken : SynthProblem.ofOptions cs = .ok p ↔
      ∃ o, (∃ place, ProblemOptions.default.take ⟨0, 0⟩ cs = .ok (o, place)) ∧
        SynthProblem.new o = .ok p := by
    rw [SynthProblem.ofOptions]
    simp only [bind_eq_ok_iff, mapError_eq_ok_iff, Prod.exists, exists_and_right]
  rw [htaken]
  constructor
  · rintro ⟨o, htake, hnew⟩
    obtain ⟨⟨hs, hi⟩, rfl⟩ := take_eq_ok_iff.1 htake
    obtain ⟨htrue, hfalse, rfl⟩ := new_eq_ok_iff.1 hnew
    have hlast : (optionValues "incremental" cs).getLastD "false" ≠ "true" :=
      of_decide_eq_false (hincremental.symm.trans hfalse)
    refine ⟨⟨hs, hi, of_decide_eq_true (hsynthesis.symm.trans htrue), ?_⟩, rfl⟩
    have hmem : (optionValues "incremental" cs).getLastD "false" ∈
        "false" :: optionValues "incremental" cs := List.getLastD_mem_cons
    rcases List.mem_cons.1 hmem with hdefault | hmem
    · exact hdefault
    · exact (hi _ hmem).resolve_left hlast
  · rintro ⟨hset, hnew⟩
    obtain ⟨-, -, rfl⟩ := new_eq_ok_iff.1 hnew
    refine ⟨_, take_eq_ok_iff.2 ⟨⟨hset.synthesisValues, hset.incrementalValues⟩, rfl⟩, ?_⟩
    refine new_eq_ok_iff.2 ⟨hsynthesis.trans (decide_eq_true hset.synthesis), ?_, rfl⟩
    exact hincremental.trans (decide_eq_false (by rw [hset.incremental]; decide))

/-! ## Executions -/

theorem Blames.eq_none_iff {o : ProblemOptions} {done left : List (Span × Command)}
    {failure : Option Failure} (h : Blames o done left failure) : failure = none ↔ left = [] := by
  cases failure with
  | none => exact ⟨fun _ => h, fun _ => rfl⟩
  | some f =>
    obtain ⟨c, rest, rfl, -⟩ := h
    simp

/-- Commands begin with options, up to one that is none. -/
theorem exists_leading_options (cs : List (Span × Command)) : ∃ lead rest, cs = lead ++ rest ∧
    (∀ c ∈ lead, c.2.isOption = true) ∧ ∀ c ∈ rest.head?, c.2.isOption = false := by
  induction cs with
  | nil => exact ⟨[], [], rfl, by simp, by simp⟩
  | cons c cs ih =>
    obtain ⟨lead, rest, rfl, hlead, hrest⟩ := ih
    cases hc : c.2.isOption with
    | true => exact ⟨c :: lead, rest, rfl, List.forall_mem_cons.2 ⟨hc, hlead⟩, hrest⟩
    | false => exact ⟨[], c :: (lead ++ rest), rfl, by simp, by simpa using hc⟩

section Execution

variable {σ : Type} {x : Executor σ} {steps : Nat} {q : Option σ}
  (hlead : ∀ c ∈ lead, c.2.isOption = true)

include hlead

/-- The commands are split where the first one is that sets no option. -/
theorem takeWhile_isOption (hrest : ∀ c ∈ rest.head?, c.2.isOption = false) :
    (lead ++ rest).takeWhile (·.2.isOption) = lead ∧
      (lead ++ rest).dropWhile (·.2.isOption) = rest := by
  rw [List.takeWhile_append_of_pos hlead, List.dropWhile_append_of_pos hlead]
  cases rest with
  | nil => simp
  | cons c rest =>
    have hc : c.2.isOption = false := hrest c rfl
    simp [hc]

/-- An execution fails at once unless the options are set as they have to be. Otherwise it goes up
to the first command that is refused. -/
theorem Executor.executeCommands_cases (hrest : ∀ c ∈ rest.head?, c.2.isOption = false)
    (hstart : ∃ q, x.start (optionsOf lead).logic = .ok q) {e : Execution}
    (h : x.executeCommands steps (lead ++ rest) = some (e, q)) :
    ¬OptionsSet lead ∧ (∃ failure, e = .failed failure) ∨
      OptionsSet lead ∧ ∃ done left, rest = done ++ left ∧
        x.Accepts steps (optionsOf lead) done q e.verdicts ∧
        Blames (optionsOf lead) done left e.failure := by
  obtain ⟨htake, hdrop⟩ := takeWhile_isOption hlead hrest
  rw [executeCommands, htake, hdrop] at h
  cases hoptions : SynthProblem.ofOptions lead with
  | error failure =>
    rw [hoptions] at h
    obtain ⟨rfl, -⟩ := Prod.mk.inj (Option.some.inj h)
    refine .inl ⟨fun hset => ?_, failure, rfl⟩
    have hnew := ofOptions_eq_ok_iff.2 ⟨hset, new_eq_ok_iff.2 ⟨rfl, rfl, rfl⟩⟩
    cases hoptions.symm.trans hnew
  | ok p =>
    rw [hoptions] at h
    obtain ⟨hset, hnew⟩ := ofOptions_eq_ok_iff.1 hoptions
    obtain ⟨⟨s, failure⟩, hfollow, heq⟩ := Option.map_eq_some_iff.1 h
    obtain ⟨rfl, rfl⟩ := Prod.mk.inj heq
    have hdeclared : SynthProblem.Declared (optionsOf lead) [] p := .nil hnew
    have hfollowed : (Progress.new p).Followed x steps (optionsOf lead) [] :=
      ⟨.nil, by rwa [Progress.new, hdeclared.unsolved_eq]⟩
    obtain ⟨done, left, rfl, hdone, hblames⟩ := hfollowed.follow hstart hfollow
    exact .inr ⟨hset, done, left, rfl, hdone.accepts, hblames⟩

/-- An execution of which all commands are accepted. -/
theorem Executor.Accepts.executeCommands (hset : OptionsSet lead) {vs : List Verdict}
    (h : x.Accepts steps (optionsOf lead) rest q vs) :
    x.executeCommands steps (lead ++ rest) = some (⟨vs, none⟩, q) := by
  have hrest : ∀ c ∈ rest.head?, c.2.isOption = false := fun c hc =>
    h.isOption_eq_false c (List.mem_of_mem_head? hc)
  obtain ⟨htake, hdrop⟩ := takeWhile_isOption hlead hrest
  have hnew : SynthProblem.new (optionsOf lead) = .ok ⟨_, [], [], none, none⟩ := rfl
  obtain ⟨s, hfollow, -, rfl, rfl⟩ := h.exists_follow (.nil hnew)
  rw [Executor.executeCommands, htake, hdrop, ofOptions_eq_ok_iff.2 ⟨hset, hnew⟩]
  exact congrArg (Option.map _) hfollow

end Execution

/-! ## Runs -/

namespace Settings

variable {s : Settings} {env : Environment} {times : RunTimes} {steps : Nat} {text : String}
  {summary : RunSummary}

/-- The oracle can be started in a logic. -/
def CanStart (s : Settings) (env : Environment) (logic : Logic) : Prop :=
  match s.oracle with
  | .bounded => True
  | .solver kind => ∃ q, SmtOracle.start env.programs
      (s.smtConfig kind (solverCommand env.lookup kind.name) logic) = .ok q

/-- The commands are accepted one after the other, with the oracle of the settings, and the checks
among them come to the verdicts. -/
def Accepts (s : Settings) (env : Environment) (times : RunTimes) (steps : Nat)
    (o : ProblemOptions) (cs : List (Span × Command)) (vs : List Verdict) : Prop :=
  match s.oracle with
  | .bounded => ∃ q, (s.boundedExecutor times).Accepts steps o cs q vs
  | .solver kind => ∃ q, (s.solverExecutor env times kind).Accepts steps o cs q vs

/-- Whatever the oracle is, the text is executed by some executor. -/
theorem exists_executor (s : Settings) (env : Environment) (times : RunTimes) :
    ∃ (σ : Type) (x : Executor σ) (summarize : Execution × Option σ → RunSummary),
      (∀ steps text, s.execute env times steps text = (x.execute steps text).map summarize) ∧
      (∀ r, (summarize r).execution = r.1) ∧
      (∀ logic, s.CanStart env logic → ∃ q, x.start logic = .ok q) ∧
      ∀ steps o cs vs, s.Accepts env times steps o cs vs ↔ ∃ q, x.Accepts steps o cs q vs := by
  unfold execute CanStart Accepts
  cases s.oracle with
  | bounded => exact ⟨_, s.boundedExecutor times, _, fun _ _ => rfl, fun _ => rfl,
      fun _ _ => ⟨_, rfl⟩, fun _ _ _ _ => Iff.rfl⟩
  | solver kind =>
    refine ⟨_, s.solverExecutor env times kind, _, fun _ _ => rfl, fun _ => rfl,
      fun logic hstart => ?_, fun _ _ _ _ => Iff.rfl⟩
    obtain ⟨q, hq⟩ := hstart
    exact ⟨(q, .zero), by simp only [solverExecutor, hq]⟩

theorem Accepts.isOption_eq_false {o : ProblemOptions} {vs : List Verdict}
    (h : s.Accepts env times steps o cs vs) : ∀ c ∈ cs, c.2.isOption = false := by
  obtain ⟨σ, x, -, -, -, -, haccepts⟩ := s.exists_executor env times
  obtain ⟨q, hq⟩ := (haccepts ..).1 h
  exact hq.isOption_eq_false

/-- An execution of a text that is not a problem fails at once. -/
theorem execute_of_error {e : ProblemError} (hparse : parseProblem text = .error e)
    (h : s.execute env times steps text = some summary) :
    ∃ failure, summary.execution = .failed failure := by
  obtain ⟨σ, x, summarize, hexecute, hexecution, -, -⟩ := s.exists_executor env times
  rw [hexecute, Executor.execute, hparse] at h
  obtain rfl := Option.some.inj h
  exact ⟨_, hexecution _⟩

section

variable (hparse : parseProblem text = .ok (lead ++ rest)) (hlead : ∀ c ∈ lead, c.2.isOption = true)

include hparse hlead

theorem execute_cases (hrest : ∀ c ∈ rest.head?, c.2.isOption = false)
    (hstart : s.CanStart env (optionsOf lead).logic)
    (h : s.execute env times steps text = some summary) :
    ¬OptionsSet lead ∧ (∃ failure, summary.execution = .failed failure) ∨
      OptionsSet lead ∧ ∃ done left, rest = done ++ left ∧
        s.Accepts env times steps (optionsOf lead) done summary.execution.verdicts ∧
        Blames (optionsOf lead) done left summary.execution.failure := by
  obtain ⟨σ, x, summarize, hexecute, hexecution, hstarts, haccepts⟩ := s.exists_executor env times
  rw [hexecute, Executor.execute, hparse] at h
  obtain ⟨⟨e, q⟩, hcommands, rfl⟩ := Option.map_eq_some_iff.1 h
  rw [hexecution]
  rcases Executor.executeCommands_cases hlead hrest (hstarts _ hstart) hcommands with
    hfailed | ⟨hset, done, left, hdone, haccepted, hblames⟩
  · exact .inl hfailed
  · exact .inr ⟨hset, done, left, hdone, (haccepts ..).2 ⟨q, haccepted⟩, hblames⟩

theorem Accepts.exists_execute {vs : List Verdict} (hset : OptionsSet lead)
    (h : s.Accepts env times steps (optionsOf lead) rest vs) :
    ∃ summary, s.execute env times steps text = some summary ∧
      summary.execution = ⟨vs, none⟩ := by
  obtain ⟨σ, x, summarize, hexecute, hexecution, -, haccepts⟩ := s.exists_executor env times
  obtain ⟨q, hq⟩ := (haccepts ..).1 h
  refine ⟨summarize (⟨vs, none⟩, q), ?_, hexecution _⟩
  rw [hexecute, Executor.execute, hparse]
  exact congrArg (Option.map summarize) (hq.executeCommands hlead hset)

end

/-- The exit code is 0 if all commands were followed and all checks found a solution. -/
theorem exitCode_present : (s.present env times text summary).exitCode = 0 ↔
    summary.execution.failure = none ∧
      ∀ v ∈ summary.execution.verdicts, v.result.outcome = .hasSolution := by
  have hsucceeded : summary.execution.succeeded = true ↔ summary.execution.failure = none ∧
      ∀ v ∈ summary.execution.verdicts, v.result.outcome = .hasSolution := by
    simp [Execution.succeeded, Verdict.isSolved]
  rw [← hsucceeded, present]
  split <;> simp_all

/-- An execution that failed at once has no results. -/
theorem present_of_failed (h : ∃ failure, summary.execution = .failed failure) :
    (s.present env times text summary).exitCode ≠ 0 ∧
      (s.present env times text summary).stdout = "" := by
  obtain ⟨failure, hfailure⟩ := h
  rw [Ne, exitCode_present, present, hfailure]
  simp [Execution.failed]

end Settings

/-- If all commands are accepted, the run ends. It shows the results of all checks, and it exits
with 0 if each of them found a solution and with 1 otherwise. -/
theorem Settings.Accepts.exists_runCommandLine {env : Environment} {times : RunTimes}
    {steps : Nat} {args : List String} {s : Settings} {text : String} {vs : List Verdict}
    (h : s.Accepts env times steps (optionsOf lead) rest vs)
    (files : String → Except ReadError String)
    (hargs : parseArguments args = .ok (.run s)) (hfile : files s.file = .ok text)
    (hparse : parseProblem text = .ok (lead ++ rest)) (hlead : ∀ c ∈ lead, c.2.isOption = true)
    (hset : OptionsSet lead) : ∃ r decisions, runCommandLine env files times steps args = some r ∧
      r.exitCode = (if vs.all Verdict.isSolved then 0 else 1) ∧
      r.stdout = String.join (vs.map (Verdict.output s.json)) ++
        (if s.time then times.report decisions else "") ∧
      r.stderr = String.join (vs.map (Verdict.remark s.json)) := by
  obtain ⟨summary, hexecute, hsummary⟩ := h.exists_execute hparse hlead hset
  refine ⟨s.present env times text summary, summary.decisions, ?_, ?_, ?_, ?_⟩
  · rw [runCommandLine, hargs]
    simp only [hfile, hexecute, Option.map_some]
  · rw [Settings.present, hsummary]
    rfl
  · rw [Settings.present, hsummary, Option.isNone_none, Bool.and_true]
  · rw [Settings.present, hsummary]
    exact String.append_empty

/-- Let the arguments ask for a run with a file that can be read, and let the oracle start in the
logic that the text sets. If the run ends:

* It exits with 0 if and only if the whole text is a problem, its options come before all other
commands and are set as they have to be, no other command is refused, and every check finds a
solution.
* If the text is not a problem, nothing is on the standard output.
* Otherwise nothing is there either if the options at the beginning are not set as they have to be.
If they are, the commands after them are accepted up to the first that is refused, and the standard
output has the results of the checks among these, in order. Only a report on times may follow. The
standard error has the remarks on the results, and then the error of the command that is
refused. -/
theorem runCommandLine_spec {env : Environment} {files : String → Except ReadError String}
    {times : RunTimes} {steps : Nat} {args : List String} {s : Settings} {text : String}
    {r : RunResult} (hargs : parseArguments args = .ok (.run s)) (hfile : files s.file = .ok text)
    (hstart : ∀ commands, parseProblem text = .ok commands →
      s.CanStart env (optionsOf (commands.takeWhile (·.2.isOption))).logic)
    (hrun : runCommandLine env files times steps args = some r) :
    (r.exitCode = 0 ↔ ∃ lead rest vs, parseProblem text = .ok (lead ++ rest) ∧
      (∀ c ∈ lead, c.2.isOption = true) ∧ (∀ c ∈ rest, c.2.isOption = false) ∧
      OptionsSet lead ∧ s.Accepts env times steps (optionsOf lead) rest vs ∧
      ∀ v ∈ vs, v.result.outcome = .hasSolution) ∧
    (∀ e, parseProblem text = .error e → r.stdout = "") ∧
    ∀ lead rest, parseProblem text = .ok (lead ++ rest) →
      (∀ c ∈ lead, c.2.isOption = true) → (∀ c ∈ rest.head?, c.2.isOption = false) →
      (¬OptionsSet lead → r.stdout = "") ∧
      (OptionsSet lead → ∃ done left vs failure decisions, rest = done ++ left ∧
        s.Accepts env times steps (optionsOf lead) done vs ∧
        Blames (optionsOf lead) done left failure ∧
        r.stdout = String.join (vs.map (Verdict.output s.json)) ++
          (if s.time = true ∧ left = [] then times.report decisions else "") ∧
        r.stderr = String.join (vs.map (Verdict.remark s.json)) ++
          match failure with
          | some f => Diagnostic.render (s.palette env) s.file text ⟨f.error.message, f.span⟩
          | none => "") := by
  rw [runCommandLine, hargs] at hrun
  simp only [hfile] at hrun
  obtain ⟨summary, hexecute, rfl⟩ := Option.map_eq_some_iff.1 hrun
  have hcases (lead rest : List (Span × Command)) (hparse : parseProblem text = .ok (lead ++ rest))
      (hlead : ∀ c ∈ lead, c.2.isOption = true) (hrest : ∀ c ∈ rest.head?, c.2.isOption = false) :=
    Settings.execute_cases hparse hlead hrest
      ((takeWhile_isOption hlead hrest).1 ▸ hstart _ hparse) hexecute
  refine ⟨⟨fun hexit => ?_, ?_⟩, fun e hparse => ?_, fun lead rest hparse hlead hrest =>
    ⟨fun hset => ?_, fun hset => ?_⟩⟩
  · cases hparse : parseProblem text with
    | error e =>
      have hfailed := Settings.execute_of_error hparse hexecute
      exact absurd hexit (Settings.present_of_failed hfailed).1
    | ok commands =>
      obtain ⟨lead, rest, rfl, hlead, hrest⟩ := exists_leading_options commands
      rcases hcases lead rest hparse hlead hrest with
        ⟨-, hfailed⟩ | ⟨hset, done, left, rfl, haccepts, hblames⟩
      · exact absurd hexit (Settings.present_of_failed hfailed).1
      · obtain ⟨hnone, hsolved⟩ := Settings.exitCode_present.1 hexit
        obtain rfl := hblames.eq_none_iff.1 hnone
        rw [List.append_nil] at *
        exact ⟨lead, done, _, rfl, hlead, haccepts.isOption_eq_false, hset, haccepts, hsolved⟩
  · rintro ⟨lead, rest, vs, hparse, hlead, -, hset, haccepts, hsolved⟩
    obtain ⟨summary', hexecute', hsummary⟩ := haccepts.exists_execute hparse hlead hset
    obtain rfl := Option.some.inj (hexecute.symm.trans hexecute')
    rw [Settings.exitCode_present, hsummary]
    exact ⟨rfl, hsolved⟩
  · exact (Settings.present_of_failed (Settings.execute_of_error hparse hexecute)).2
  · rcases hcases lead rest hparse hlead hrest with ⟨-, hfailed⟩ | ⟨hset', -⟩
    · exact (Settings.present_of_failed hfailed).2
    · exact absurd hset' hset
  · rcases hcases lead rest hparse hlead hrest with
      ⟨hset', -⟩ | ⟨-, done, left, hdone, haccepts, hblames⟩
    · exact absurd hset hset'
    · refine ⟨done, left, _, _, summary.decisions, hdone, haccepts, hblames, ?_, rfl⟩
      have hleft : (s.time = true ∧ left = []) ↔
          (s.time && summary.execution.failure.isNone) = true := by
        simp [← hblames.eq_none_iff]
      simp only [Settings.present, hleft]

/-! ## A problem with one candidate -/

open SynthProblem

/-- A problem with an integer that is to stay below 3, though nothing holds it back. The grammar
derives one formula. -/
def limitText : String :=
  "(define-fun pre ((x Int)) Bool true)(define-fun trans ((x Int) (y Int)) Bool true)" ++
  "(define-fun post ((x Int)) Bool (< x 3))" ++
  "(synth-fun inv ((x Int)) Bool ((B Bool)) ((B Bool (true))))" ++
  "(inv-constraint inv pre trans post)(check-synth)"

/-- The constraint of the problem. -/
def limitConstraint : InvConstraint where
  inv := ⟨"inv", [⟨"x", .int⟩], some ⟨[⟨"x", .int⟩], .lia, [(⟨"B", .bool⟩, [.term (.bool true)])]⟩⟩
  pre := ⟨"pre", [⟨"x", .int⟩], .bool, .bool true⟩
  trans := ⟨"trans", [⟨"x", .int⟩, ⟨"y", .int⟩], .bool, .bool true⟩
  post := ⟨"post", [⟨"x", .int⟩], .bool, .compare .lt (.id "x") (.int 3)⟩

/-- The grammar as it is written. -/
def limitGrammar : GrammarSyntax := [⟨"B", .bool, [.term (.bool true)]⟩]

/-- The commands of the text. -/
def limitCommands : List (Span × Command) :=
  [(⟨0, 36⟩, .defineFun limitConstraint.pre), (⟨36, 82⟩, .defineFun limitConstraint.trans),
    (⟨82, 122⟩, .defineFun limitConstraint.post),
    (⟨122, 181⟩, .synthFun "inv" [⟨"x", .int⟩] .bool (some limitGrammar)),
    (⟨181, 216⟩, .invConstraint "inv" "pre" "trans" "post"), (⟨216, 229⟩, .checkSynth)]

theorem parseProblem_limit : parseProblem limitText = .ok ([] ++ limitCommands) := by
  decide +kernel

/-- The problem that is stated before the check. -/
def limitProblem : SynthProblem where
  logic := .lia
  defs := [limitConstraint.pre, limitConstraint.trans, limitConstraint.post]
  synthFuns := [limitConstraint.inv]
  constraint := some limitConstraint
  solutions := none

/-- Every command of the text is accepted, and the check comes to what solving the problem does. -/
theorem accepts_limit (x : Executor (Unit × DecisionCounts))
    (hstart : x.start .lia = .ok ((), .zero)) {r : SynthResult} {solutions : Option (List FunDef)}
    {q : Unit × DecisionCounts}
    (hsolve : limitProblem.solve (x.oracle .lia) 3 (x.config 0) ((), .zero) =
      .ok (some (r, { limitProblem with solutions }, q))) :
    x.Accepts 3 (optionsOf []) limitCommands (some q) [⟨r, solutions.getD []⟩] := by
  have hnew : Declared (optionsOf []) [] ⟨.lia, [], [], none, none⟩ := .nil rfl
  have hpre := hnew.snoc (d := .define limitConstraint.pre) rfl
  have htrans := hpre.snoc (d := .define limitConstraint.trans) rfl
  have hpost := htrans.snoc (d := .define limitConstraint.post) rfl
  have hinv := hpost.snoc (d := .declare "inv" [⟨"x", .int⟩] .bool (some limitGrammar)) rfl
  have hconstrain : Declared (optionsOf []) _ limitProblem :=
    hinv.snoc (d := .constrain "inv" "pre" "trans" "post") rfl
  have hnone : x.Accepts 3 (optionsOf []) [] none [] := .nil
  have h₁ := hnone.declare (c := .defineFun limitConstraint.pre) ⟨0, 36⟩ rfl hpre
  have h₂ := h₁.declare (c := .defineFun limitConstraint.trans) ⟨36, 82⟩ rfl htrans
  have h₃ := h₂.declare (c := .defineFun limitConstraint.post) ⟨82, 122⟩ rfl hpost
  have h₄ := h₃.declare (c := .synthFun "inv" [⟨"x", .int⟩] .bool (some limitGrammar)) ⟨122, 181⟩
    rfl hinv
  have h₅ := h₄.declare (c := .invConstraint "inv" "pre" "trans" "post") ⟨181, 216⟩ rfl hconstrain
  obtain ⟨given, hstated⟩ := hconstrain.stated
  have hsolved := hstated.runOn_solve (x.oracle .lia) 3 (x.config 0) ((), .zero)
  rw [hsolve] at hsolved
  have hchecked := h₅.check ⟨216, 229⟩ hconstrain hstart hsolved
  cases solutions with
  | none => exact hchecked
  | some defs => exact hchecked

theorem optionsSet_nil : OptionsSet [] :=
  ⟨by simp [optionValues], by simp [optionValues], rfl, rfl⟩

/-! ### Its search -/

/-- The enumerator of the grammar after the first term. -/
def limitEnumerator : Enumerator (single [.bool true]) where
  limit := some 1
  table := Table.empty.cover (single [.bool true]) 1
  size := 1
  current := some (.node Grammar.start 0 1 [])
  seen := (∅ : Std.HashSet Term).insert (.bool true)
  exhausted := false

/-- The search for an invariant. -/
def limitSearch (config : SearchConfig) : Search (single [.bool true]) :=
  .new limitConstraint.system (single [.bool true]) config

/-- The search after its candidate was processed. -/
def limitProcessed (w : Nat) (config : SearchConfig) :
    Search (single [.bool true]) × Unit × DecisionCounts :=
  { limitSearch config with enumerator := limitEnumerator }.process (Oracle.bounded w).counted
    (.bool true) ((), .zero)

section Search

variable {w : Nat} {c : SearchConfig}

theorem solve_limit {s : Search (single [.bool true])} {q : Unit × DecisionCounts}
    (hrun : (limitSearch c).run (Oracle.bounded w).counted 3 ((), .zero) = some (s, q))
    {outcome : SynthOutcome} {solutions : Option (List FunDef)}
    (hconclude : limitProblem.conclude 3 limitConstraint s.state = some (outcome, solutions)) :
    limitProblem.solve (Oracle.bounded w).counted 3 c ((), .zero) =
      .ok (some (⟨outcome, s.stats⟩, { limitProblem with solutions }, q)) := by
  show Except.ok (((limitSearch c).run _ 3 _).bind _) = _
  rw [hrun]
  show Except.ok ((conclude 3 limitProblem limitConstraint s.state).bind _) = _
  rw [hconclude]
  rfl

variable (hsize : c.maxSize = none) (hbudget : (limitSearch c).outOfBudget = false)

include hsize hbudget

/-- The candidate is drawn and processed. -/
theorem step_limit (ticks : Nat) :
    (limitSearch c).step (Oracle.bounded w).counted (ticks + 1) ((), .zero) =
      some (limitProcessed w c) := by
  obtain ⟨maxIterations, timeout, maxSize, parallel⟩ := c
  obtain rfl : maxSize = none := hsize
  have hlimit : (Enumerator.new (single [.bool true]) none).limit = some 1 := by decide +kernel
  have hfirst := Enumerator.next_new (g := single [.bool true]) none
    (r := ⟨.bool true, [], 1⟩) rfl rfl rfl (by rw [Enumerator.excludes, hlimit]; rfl) ticks
  have hnext : (limitSearch ⟨maxIterations, timeout, none, parallel⟩).enumerator.next (ticks + 1) =
      some (some (.bool true), limitEnumerator) := by
    refine hfirst.trans ?_
    dsimp only
    rw [hlimit]
    rfl
  exact Search.step_of_next rfl hbudget _ hnext _

theorem run_limit_of_final (hfinal : (limitProcessed w c).1.state ≠ .searching) :
    (limitSearch c).run (Oracle.bounded w).counted 3 ((), .zero) =
      some (limitProcessed w c) :=
  (Search.run_of_step rfl (step_limit hsize hbudget 1)).trans (Search.run_of_final hfinal 1 _)

/-- The search is exhausted if the candidate is not the end of it. -/
theorem run_limit_of_searching (hstate : (limitProcessed w c).1.state = .searching)
    (hbudget' : (limitProcessed w c).1.outOfBudget = false) : ∃ e,
    (limitSearch c).run (Oracle.bounded w).counted 3 ((), .zero) =
      some ({ (limitProcessed w c).1 with enumerator := e, state := .exhausted },
        (limitProcessed w c).2) := by
  have henumerator : (limitProcessed w c).1.enumerator = limitEnumerator :=
    (Search.process_keeps ..).2.2.1
  obtain ⟨e, hnext⟩ : ∃ e, limitEnumerator.next 1 = some (none, e) := ⟨_, rfl⟩
  rw [← henumerator] at hnext
  exact ⟨e, (Search.run_of_step rfl (step_limit hsize hbudget 1)).trans
    ((Search.run_of_step hstate (Search.step_of_end hstate hbudget' _ hnext _)).trans
      (Search.run_of_final (by simp) 0 _))⟩

end Search

/-! ### Its runs -/

/-- A run with these arguments for the file of the problem has this exit code, and this is on the
standard output and the standard error. -/
def LimitShows (args : List String) (exitCode : UInt8) (stdout stderr : String) : Prop :=
  ∃ r, runCommandLine ⟨fun _ => none, .none⟩ (fun _ => .ok limitText) .zero 3 args = some r ∧
    r.exitCode = exitCode ∧ r.stdout = stdout ∧ r.stderr = stderr

section Shown

variable {s : Settings} {args : List String} {v : Verdict}

/-- The check comes to what the search does. -/
theorem Settings.accepts_limit (hbounded : s.oracle = .bounded)
    {x : Search (single [.bool true]) × Unit × DecisionCounts} {outcome : SynthOutcome}
    {stats : SearchStats} {solutions : Option (List FunDef)}
    (hrun : (limitSearch (s.searchConfig none)).run (Oracle.bounded s.window).counted 3
      ((), .zero) = some x) (hstats : x.1.stats = stats)
    (hconclude : limitProblem.conclude 3 limitConstraint x.1.state = some (outcome, solutions)) :
    s.Accepts ⟨fun _ => none, .none⟩ .zero 3 (optionsOf []) limitCommands
      [⟨⟨outcome, stats⟩, solutions.getD []⟩] := by
  rw [Settings.Accepts, hbounded, ← hstats]
  exact ⟨_, InvariantSearch.accepts_limit (s.boundedExecutor .zero) rfl
    (solve_limit hrun hconclude)⟩

/-- The result of the check is shown. -/
theorem limitShows_of_accepts (hargs : parseArguments args = .ok (.run s)) (htime : s.time = false)
    (h : s.Accepts ⟨fun _ => none, .none⟩ .zero 3 (optionsOf []) limitCommands [v])
    {exitCode : UInt8} (hexit : (if v.isSolved then 0 else 1) = exitCode) {stdout stderr : String}
    (hstdout : v.output s.json = stdout) (hstderr : v.remark s.json = stderr) :
    LimitShows args exitCode stdout stderr := by
  obtain ⟨r, decisions, hrun, hcode, hout, herr⟩ := h.exists_runCommandLine
    (fun _ => .ok limitText) hargs rfl parseProblem_limit (by simp) optionsSet_nil
  refine ⟨r, hrun, ?_, ?_, ?_⟩
  · rw [hcode, ← hexit, List.all_cons, List.all_nil, Bool.and_true]
  · rw [hout, htime, ← hstdout]
    simp [String.join]
  · rw [herr, ← hstderr]
    simp [String.join]

end Shown

/-- The settings of a run with the bounded oracle. -/
def limitSettings (window : Nat) (maxIterations : Option Nat) (json : Bool) : Settings :=
  { Settings.default "f.sl" with oracle := .bounded, window, maxIterations, json }

/-- The verdict on the candidate if integers up to 2 are tried. -/
def limitSolved : Verdict :=
  ⟨⟨.hasSolution, ⟨1, 0, 3, 0⟩⟩, [limitConstraint.inv.defineAs (.bool true)]⟩

/-- The verdict if 3 is tried, which is a counterexample. -/
def limitUnsolved : Verdict := ⟨⟨.noSolution, ⟨1, 0, 3, 1⟩⟩, []⟩

/-- The verdict if there are too many integers to try. -/
def limitUndecided : Verdict :=
  ⟨⟨.unknown "init condition: 1 variables over window 25000000 is too many assignments",
    ⟨1, 0, 1, 0⟩⟩, []⟩

/-- The verdict if no candidate may be drawn. -/
def limitStopped : Verdict := ⟨⟨.timeout, .zero⟩, []⟩

section Verdicts

variable (json : Bool)

/-- The check comes to how the search ends with the candidate. -/
theorem accepts_limit_of_final {w : Nat} {state : SearchState} {outcome : SynthOutcome}
    {stats : SearchStats} {solutions : Option (List FunDef)}
    (hstate : (limitProcessed w ⟨none, none, none, false⟩).1.state = state)
    (hfinal : state ≠ .searching)
    (hstats : (limitProcessed w ⟨none, none, none, false⟩).1.stats = stats)
    (hconclude : limitProblem.conclude 3 limitConstraint state = some (outcome, solutions)) :
    (limitSettings w none json).Accepts ⟨fun _ => none, .none⟩ .zero 3 (optionsOf []) limitCommands
      [⟨⟨outcome, stats⟩, solutions.getD []⟩] := by
  subst hstate
  have hrun := run_limit_of_final (w := w) (c := ⟨none, none, none, false⟩) rfl rfl hfinal
  exact Settings.accepts_limit (s := limitSettings w none json) rfl hrun hstats hconclude

theorem accepts_limitSolved : (limitSettings 2 none json).Accepts ⟨fun _ => none, .none⟩ .zero 3
    (optionsOf []) limitCommands [limitSolved] := by
  have hstate : (limitProcessed 2 ⟨none, none, none, false⟩).1.state = .found (.bool true) := by
    decide +kernel
  exact accepts_limit_of_final json hstate (by decide) (by decide +kernel) rfl

theorem accepts_limitUnsolved : (limitSettings 3 none json).Accepts ⟨fun _ => none, .none⟩ .zero 3
    (optionsOf []) limitCommands [limitUnsolved] := by
  have hstats : (limitProcessed 3 ⟨none, none, none, false⟩).1.stats = ⟨1, 0, 3, 1⟩ := by
    decide +kernel
  obtain ⟨e, hrun⟩ := run_limit_of_searching (w := 3) (c := ⟨none, none, none, false⟩) rfl rfl
    (by decide +kernel) (by decide +kernel)
  exact Settings.accepts_limit (s := limitSettings 3 none json) rfl hrun hstats rfl

theorem accepts_limitUndecided : (limitSettings 25000000 none json).Accepts
    ⟨fun _ => none, .none⟩ .zero 3 (optionsOf []) limitCommands [limitUndecided] := by
  have hstate : (limitProcessed 25000000 ⟨none, none, none, false⟩).1.state =
      .unknown .init "1 variables over window 25000000 is too many assignments" := by
    decide +kernel
  exact accepts_limit_of_final json hstate (by decide) (by decide +kernel) rfl

theorem accepts_limitStopped : (limitSettings 32 (some 0) json).Accepts ⟨fun _ => none, .none⟩ .zero
    3 (optionsOf []) limitCommands [limitStopped] := by
  have hstep := Search.step_of_outOfBudget (s := limitSearch ⟨some 0, none, none, false⟩) rfl rfl
    (Oracle.bounded 32).counted 2 ((), .zero)
  have hrun := (Search.run_of_step rfl hstep).trans (Search.run_of_final (by simp) 1 _)
  exact Settings.accepts_limit (s := limitSettings 32 (some 0) json) rfl hrun rfl rfl

end Verdicts

/-- A run shows its result as it ends: with a solution, without one, undecided, or stopped. In JSON
the counters and the reason are shown as well. -/
theorem runCommandLine_spec_limit :
    LimitShows ["--solver=bounded", "--window=2", "f.sl"] 0
      "(define-fun inv ((x Int)) Bool true)\n" "" ∧
    LimitShows ["--solver=bounded", "--window=3", "f.sl"] 1 "no solution\n" "" ∧
    LimitShows ["--solver=bounded", "--window=25000000", "f.sl"] 1 "unknown\n"
      "init condition: 1 variables over window 25000000 is too many assignments\n" ∧
    LimitShows ["--solver=bounded", "--max-iterations=0", "f.sl"] 1 "timeout\n" "" ∧
    LimitShows ["--solver=bounded", "--window=2", "--json", "f.sl"] 0
      ("\x7b\n  \"status\": \"has-solution\",\n  \"stats\": \x7b\n    \"candidates\": 1,\n" ++
        "    \"rejected_by_store\": 0,\n    \"oracle_queries\": 3,\n    \"counterexamples\": 0\n" ++
        "  \x7d,\n  \"solutions\": [\n    \"(define-fun inv ((x Int)) Bool true)\"\n  ]\n\x7d\n")
      "" ∧
    LimitShows ["--solver=bounded", "--window=25000000", "--json", "f.sl"] 1
      ("\x7b\n  \"status\": \"unknown\",\n  \"reason\": \"init condition: 1 variables over " ++
        "window 25000000 is too many assignments\",\n  \"stats\": \x7b\n    \"candidates\": 1,\n" ++
        "    \"rejected_by_store\": 0,\n    \"oracle_queries\": 1,\n    \"counterexamples\": 0\n" ++
        "  \x7d,\n  \"solutions\": []\n\x7d\n") "" := by
  refine ⟨?_, ?_, ?_, ?_, ?_, ?_⟩
  · have hargs : parseArguments ["--solver=bounded", "--window=2", "f.sl"] =
        .ok (.run (limitSettings 2 none false)) := by decide +kernel
    have haccepts := accepts_limitSolved false
    obtain ⟨r, hrun, -, hstdout, hstderr⟩ := limitShows_of_accepts hargs rfl haccepts rfl
      (show limitSolved.output false = "(define-fun inv ((x Int)) Bool true)\n" by decide +kernel)
      (show limitSolved.remark false = "" by decide +kernel)
    have hfile : (fun _ => .ok limitText : String → Except ReadError String)
        (limitSettings 2 none false).file = .ok limitText := rfl
    have hspec := runCommandLine_spec hargs hfile (fun _ _ => trivial) hrun
    have hexit : r.exitCode = 0 := hspec.1.2 ⟨[], limitCommands, _, parseProblem_limit, by simp,
      haccepts.isOption_eq_false, optionsSet_nil, haccepts, by simp [limitSolved]⟩
    exact ⟨r, hrun, hexit, hstdout, hstderr⟩
  · exact limitShows_of_accepts (s := limitSettings 3 none false) (by decide +kernel) rfl
      (accepts_limitUnsolved false) rfl (by decide +kernel) (by decide +kernel)
  · exact limitShows_of_accepts (s := limitSettings 25000000 none false) (by decide +kernel) rfl
      (accepts_limitUndecided false) rfl (by decide +kernel) (by decide +kernel)
  · exact limitShows_of_accepts (s := limitSettings 32 (some 0) false) (by decide +kernel) rfl
      (accepts_limitStopped false) rfl (by decide +kernel) (by decide +kernel)
  · exact limitShows_of_accepts (s := limitSettings 2 none true) (by decide +kernel) rfl
      (accepts_limitSolved true) rfl (by decide +kernel) (by decide +kernel)
  · exact limitShows_of_accepts (s := limitSettings 25000000 none true) (by decide +kernel) rfl
      (accepts_limitUndecided true) rfl (by decide +kernel) (by decide +kernel)

end InvariantSearch
