import Rearrange.CommandLine.Run

namespace Rearrange.CommandLine

/-- The name of the level from which on notes are shown: the one chosen on the command line, else
the one set in the environment. -/
def levelIn (env : Environment) (chosen : List Char) : List Char :=
  if chosen = [] then (Settings.ofEnvironment env).1.logLevel else chosen

/-- A command line calls for a command with the arguments that follow it, and the level named there
or in the environment gives a threshold. -/
def FrontEnd.Calls {ε : Type} (front : FrontEnd ε) (env : Environment) (args : List (List Char))
    (threshold : Threshold) (command : CommandName) (rest : List (List Char)) : Prop :=
  ∃ chosen, front.invocation args = .ok (.command chosen command rest) ∧
    Threshold.ofName (Text.upper (levelIn env chosen)) = .ok threshold

/-- The report without the lines left by notes. -/
def Report.quiet {ε : Type} (r : Report ε) : Report ε :=
  { r with trace := [] }

/-- The ending without its notes. -/
def Ending.quiet (e : Ending) : Ending :=
  { e with notes := [] }

/-- The report on a request that ends in a given way, without the lines left by notes. -/
def Ending.report {ε : Type} (e : Ending) (threshold : Threshold) : Report ε :=
  { exit := e.exit
    failure := e.fault.map .fault
    output := e.output
    blocks := e.blocks
    threshold }

/-- The report on an ending says nothing of its notes. -/
theorem Ending.report_congr {ε : Type} {e e' : Ending} (h : e.quiet = e'.quiet)
    (threshold : Threshold) : (e.report threshold : Report ε) = e'.report threshold := by
  change e.quiet.report threshold = e'.quiet.report threshold
  rw [h]

/-- The log level is read from its own variable. -/
private theorem logLevel_ofEnvironment (env : Environment) :
    (Settings.ofEnvironment env).1.logLevel =
      Settings.readLevel env "EXPREDIT_LOG_LEVEL" "WARNING".toList :=
  rfl

namespace FrontEnd

variable {ε : Type} {front : FrontEnd ε} {env env' : Environment} {files : Files}
  {args rest : List (List Char)} {threshold : Threshold} {command : CommandName}

/-- A run reports how the request ends that the front end finds. -/
theorem Calls.quiet_run_of_ok (h : front.Calls env args threshold command rest) {request : Request}
    (hrequest : front.request front.readFocus files command rest = .ok request) :
    (run front env files args).quiet =
      (request.perform (Settings.ofEnvironment env).1 files).report threshold := by
  obtain ⟨chosen, hcommand, hlevel⟩ := h
  rw [levelIn] at hlevel
  simp only [run, hcommand, hlevel, hrequest]
  rfl

/-- A run reports why the front end finds no request. -/
theorem Calls.quiet_run_of_error (h : front.Calls env args threshold command rest)
    {failure : Failure ε}
    (hrequest : front.request front.readFocus files command rest = .error failure) :
    (run front env files args).quiet =
      { exit := front.exit failure, failure := some failure, threshold } := by
  obtain ⟨chosen, hcommand, hlevel⟩ := h
  rw [levelIn] at hlevel
  simp only [run, hcommand, hlevel, hrequest]
  rfl

/-- If no level is named on the command line or in the environment, warnings are shown. -/
theorem calls_of_strip_eq_nil
    (hcommand : front.invocation args = .ok (.command [] command rest))
    (hlevel : Text.strip (env "EXPREDIT_LOG_LEVEL") = []) :
    front.Calls env args .warning command rest := by
  have hread : levelIn env [] = "WARNING".toList := by
    rw [levelIn, if_pos rfl, logLevel_ofEnvironment, Settings.readLevel, hlevel]
    rfl
  have hupper : Text.upper "WARNING".toList = "WARNING".toList := by decide +kernel
  exact ⟨[], hcommand, by rw [hread, hupper]; rfl⟩

/-- Which command a command line calls for does not depend on more of the environment than the
level that is set there. -/
theorem Calls.congr (h : front.Calls env args threshold command rest)
    (henv : env' "EXPREDIT_LOG_LEVEL" = env "EXPREDIT_LOG_LEVEL") :
    front.Calls env' args threshold command rest := by
  obtain ⟨chosen, hcommand, hthreshold⟩ := h
  refine ⟨chosen, hcommand, ?_⟩
  rwa [levelIn, logLevel_ofEnvironment, Settings.readLevel, henv]

end FrontEnd

end Rearrange.CommandLine
