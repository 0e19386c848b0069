import BlockScript.CommandLine.Report
import BlockScript.Proofs.Execution.Faults
import BlockScript.Proofs.Execution.Printing
import BlockScript.Proofs.Syntax.Rejected
import BlockScript.Proofs.Syntax.RoundTrip
import BlockScript.Proofs.Typing.Rejections

/-!
# Phases

A file is read as a program, which is analysed and then run. Each phase fails only in ways that are
expected of it, and the report tells of a failure in one line. Only a run can crash, and then there
is no report.
-/

namespace BlockScript.CommandLine

open Attempt

inductive Phase
  | parsing | analysis | execution

/-- What a complaint about the phase begins with. -/
def Phase.label : Phase → String
  | parsing => "syntax error"
  | analysis => "analysis error"
  | execution => "runtime error"

/-- Whether the program is prepared for a failure of this kind in the phase. -/
def Phase.handles : Phase → Family → Bool
  | parsing, family => family = .token || family = .grammar
  | analysis, family => family.isStatic || family.isUndefinedName
  | execution, _ => true

/-- The program is run: it is not to be analysed, or it is accepted and no more is asked for. -/
def Runs (options : Options) (p : Program) : Prop :=
  options.noCheck = true ∨ (∃ typed, result (p.check .initial none) = .ok typed) ∧
    options.checkOnly = false ∧ options.emit = false

/-- What the text stands for fails in the phase. -/
inductive Fails (fuel : Nat) (options : Options) (text : String) : Phase → Failure → Prop
  | parsing {d : Diagnostic} (h : Program.parse text = .error d) :
      Fails fuel options text .parsing (.diagnostic d)
  | analysis {p : Program} {e : Failure} (hp : Program.parse text = .ok p)
      (hcheck : options.noCheck = false) (h : result (p.check .initial none) = .error e) :
      Fails fuel options text .analysis e
  | execution {p : Program} {e : Failure} (hp : Program.parse text = .ok p)
      (hruns : Runs options p) (h : result (p.run fuel .initial none) = .error e) :
      Fails fuel options text .execution e

variable {fuel : Nat} {options : Options} {text : String} {p : Program} {e : Failure}
  {before : String} {args : List String} {read : String → FileContent} {bytes : ByteArray}

/-! ## Failures -/

/-- A failure of the phase, and whether a line tells of it. -/
structure Phase.IsOwn (phase : Phase) (d : Diagnostic) : Prop where
  handled : phase.handles d.cause.family = true
  isLine : IsLine d.message ↔ ∀ i, d.cause ≠ .badQuote (.invalidEscape '\n') i

theorem isOwn_of_words {phase : Phase} {d : Diagnostic} (h : phase.handles d.cause.family = true)
    (hwords : ∀ w ∈ d.cause.words, IsLine w) (hfamily : d.cause.family ≠ .token) :
    phase.IsOwn d := by
  refine ⟨h, iff_of_true (d.isLine_message.mpr hwords) fun i hi => hfamily ?_⟩
  rw [hi]
  rfl

theorem isOwn_of_parse {d : Diagnostic} (h : Program.parse text = .error d) :
    Phase.parsing.IsOwn d := by
  refine ⟨?_, Program.isLine_message_of_parse h⟩
  rcases Program.badQuote_or_blames_of_parse h with ⟨flaw, i, hc⟩ | ⟨_, _, _, _, hd⟩
  · rw [hc]
    rfl
  · rw [hd.family]
    rfl

theorem isOwn_of_check (hp : Program.parse text = .ok p)
    (h : result (p.check .initial none) = .error e) :
    ∃ d, e = .diagnostic d ∧ Phase.analysis.IsOwn d := by
  have hw := (Program.wellFormed_of_parse hp).1
  obtain ⟨d, rfl, hd⟩ := (Program.isRejection_of_check hw h).exists
  refine ⟨d, rfl, isOwn_of_words (by simpa [Phase.handles] using hd.family) hd.words ?_⟩
  intro htoken
  have hfamily := hd.family
  rw [htoken] at hfamily
  exact absurd hfamily (by decide)

/-- A run that is over fails, if it does, with a diagnostic or with a crash on a decimal. -/
theorem isOwn_of_run (hp : Program.parse text = .ok p)
    (h : result (p.run fuel .initial none) = .error e) (hfuel : e ≠ .outOfFuel) :
    e = .crash .decimalOverflow ∨ ∃ d, e = .diagnostic d ∧ Phase.execution.IsOwn d := by
  have huses := Program.uses_of_wellFormed (Program.wellFormed_of_parse hp).1
  have hfault := (Program.isFault_of_run vocabulary_isLine huses h).resolve_left hfuel
  refine hfault.imp_right fun hd => ?_
  obtain ⟨d, rfl, hd⟩ := hd.exists
  refine ⟨d, rfl, isOwn_of_words rfl hd.words fun htoken => ?_⟩
  rcases hd.family with hdynamic | hundefined | ⟨name, -, -, hc⟩
  · rw [htoken] at hdynamic
    cases hdynamic
  · rw [htoken] at hundefined
    cases hundefined
  · rw [hc] at htoken
    cases htoken

/-- Each phase fails in its own way, unless the run is not over or crashes. -/
theorem Fails.exists_diagnostic {phase : Phase} (h : Fails fuel options text phase e)
    (hfuel : ¬ Fails fuel options text .execution .outOfFuel)
    (hcrash : ¬ Fails fuel options text .execution (.crash .decimalOverflow)) :
    ∃ d, e = .diagnostic d ∧ phase.IsOwn d := by
  cases h with
  | parsing h => exact ⟨_, rfl, isOwn_of_parse h⟩
  | analysis hp _ h => exact isOwn_of_check hp h
  | execution hp hruns h =>
    have hover : e ≠ .outOfFuel := by
      rintro rfl
      exact hfuel (.execution hp hruns h)
    refine (isOwn_of_run hp h hover).resolve_left ?_
    rintro rfl
    exact hcrash (.execution hp hruns h)

/-! ## Reports -/

theorem report_eq (hargs : parseArguments args = .ok options)
    (hfile : read options.file = .bytes bytes) :
    report fuel read args = process fuel options (.bytes bytes) := by
  unfold report
  rw [hargs, ← hfile]

theorem report_eq_of_fromUTF8 (hargs : parseArguments args = .ok options)
    (hfile : read options.file = .bytes bytes) (htext : String.fromUTF8? bytes = some text) :
    report fuel read args = processText fuel options text := by
  rw [report_eq hargs hfile, process]
  simp only [htext]

/-- What is logged before a program that has been analysed goes on. -/
def analysisLog (options : Options) (p : Program) : String :=
  step options "parsing" ++ step options "analyzing" ++
    events options (state (p.check .initial none)).log

theorem processText_of_error {d : Diagnostic} (h : Program.parse text = .error d) :
    processText fuel options text = .ok
      ⟨1, "", step options "parsing" ++ complaint (Phase.parsing.label ++ ": " ++ d.message)⟩ := by
  unfold processText
  rw [h]
  rfl

section

variable (hp : Program.parse text = .ok p)
include hp

theorem processText_of_noCheck (hcheck : options.noCheck = true) :
    processText fuel options text = runProgram fuel options (step options "parsing") p := by
  unfold processText
  rw [hp]
  exact if_pos hcheck

variable (hcheck : options.noCheck = false)
include hcheck

theorem processText_of_rejected {d : Diagnostic}
    (h : result (p.check .initial none) = .error (.diagnostic d)) :
    processText fuel options text = .ok ⟨1, "", analysisLog options p ++
      complaint (Phase.analysis.label ++ ": " ++ d.message)⟩ := by
  unfold processText checkProgram
  rw [hp]
  simp only [hcheck, h]
  rfl

theorem processText_of_accepted (fuel : Nat) {typed : TypedProgram}
    (h : result (p.check .initial none) = .ok typed) :
    processText fuel options text =
      if options.checkOnly then .ok ⟨0, "", analysisLog options p⟩
      else if options.emit then
        match p.print with
        | .ok printed => .ok ⟨0, printed, analysisLog options p⟩
        | .error misuse => .ok ⟨1, "", analysisLog options p ++ complaint misuse.message⟩
      else runProgram fuel options (analysisLog options p) p := by
  unfold processText checkProgram
  rw [hp]
  simp only [hcheck, h]
  rfl

end

theorem processText_of_runs (fuel : Nat) (hp : Program.parse text = .ok p)
    (hruns : Runs options p) :
    ∃ before ∈ [step options "parsing", analysisLog options p],
      processText fuel options text = runProgram fuel options before p := by
  cases hcheck : options.noCheck with
  | true => exact ⟨_, by simp, processText_of_noCheck hp hcheck⟩
  | false =>
    obtain ⟨⟨typed, h⟩, hcheckOnly, hemit⟩ := hruns.resolve_left (by simp [hcheck])
    refine ⟨analysisLog options p, by simp, ?_⟩
    rw [processText_of_accepted hp hcheck fuel h, hcheckOnly, hemit]
    rfl

/-- What a run has printed. -/
def output (fuel : Nat) (p : Program) : String :=
  String.join ((state (p.run fuel .initial none)).printed.map (· ++ "\n"))

/-- What is logged at the end of a run. -/
def runLog (fuel : Nat) (options : Options) (before : String) (p : Program) : String :=
  before ++ step options "running" ++ events options (state (p.run fuel .initial none)).log

theorem runProgram_eq (fuel : Nat) (options : Options) (before : String) (p : Program) :
    runProgram fuel options before p =
      match result (p.run fuel .initial none) with
      | .ok value => .ok ⟨exitStatus value, output fuel p, runLog fuel options before p⟩
      | .error e =>
        failed (output fuel p) (runLog fuel options before p) Phase.execution.label e :=
  rfl

/-- Options that exclude each other are not accepted. -/
theorem noCheck_of_parseArguments (h : parseArguments args = .ok options)
    (hasks : options.checkOnly = true ∨ options.emit = true) : options.noCheck = false := by
  unfold parseArguments at h
  cases hread : readArguments ⟨"", false, false, false, false⟩ args with
  | error r =>
    rw [hread] at h
    cases h
  | ok o =>
    rw [hread] at h
    change (if o.file = "" then throw (rejection "missing file argument")
      else if o.noCheck && (o.checkOnly || o.emit) then
        throw (rejection "--no-check cannot be combined with --check or --emit")
      else return o : Except Report Options) = .ok options at h
    split_ifs at h with hfile hboth
    cases h
    simpa [hasks] using hboth

theorem parseArguments_of_readArguments
    (h : readArguments ⟨"", false, false, false, false⟩ args = .ok options)
    (hfile : options.file ≠ "") (hasks : options.noCheck = true → options.checkOnly = false ∧
      options.emit = false) : parseArguments args = .ok options := by
  have hboth : ¬ (options.noCheck && (options.checkOnly || options.emit)) = true := by
    simp only [Bool.and_eq_true, Bool.or_eq_true]
    rintro ⟨hcheck, h⟩
    simp [hasks hcheck] at h
  rw [parseArguments, h]
  change (if options.file = "" then throw (rejection "missing file argument")
    else if options.noCheck && (options.checkOnly || options.emit) then
      throw (rejection "--no-check cannot be combined with --check or --emit")
    else return options : Except Report Options) = .ok options
  rw [if_neg hfile, if_neg hboth]
  rfl

theorem fromUTF8?_toUTF8 (text : String) : String.fromUTF8? text.toUTF8 = some text :=
  dif_pos text.isValidUTF8

/-! ## Complaints -/

/-- The text is one line that the program begins with its name. -/
def IsComplaint (s : String) : Prop := ∃ line, IsLine line ∧ s = "plc: " ++ line ++ "\n"

theorem isComplaint_complaint : IsComplaint (complaint text) ↔ IsLine text := by
  constructor
  · rintro ⟨line, hline, htext⟩
    have hlist := congrArg String.toList htext
    simp only [complaint, String.toList_append, List.append_assoc] at hlist
    have hsame := List.append_cancel_right (List.append_cancel_left hlist)
    rwa [String.toList_inj.mp hsame]
  · exact fun h => ⟨text, h, rfl⟩

theorem isLine_label (phase : Phase) : IsLine (phase.label ++ ": ") := by
  cases phase <;> decide

section

variable (hquiet : options.verbose = false)
include hquiet

theorem step_eq_empty (what : String) : step options what = "" := by simp [step, logged, hquiet]

theorem events_eq_empty (log : List Event) : events options log = "" := by
  simp [events, logged, hquiet]

theorem analysisLog_eq_empty (p : Program) : analysisLog options p = "" := by
  simp [analysisLog, step_eq_empty hquiet, events_eq_empty hquiet]

/-- A run without a log goes right into its report. -/
theorem processText_eq_of_runs (hp : Program.parse text = .ok p) (hruns : Runs options p) :
    processText fuel options text =
      match result (p.run fuel .initial none) with
      | .ok value => .ok ⟨exitStatus value, output fuel p, ""⟩
      | .error e => failed (output fuel p) "" Phase.execution.label e := by
  obtain ⟨before, hbefore, hreport⟩ := processText_of_runs fuel hp hruns
  have hlog : runLog fuel options before p = "" := by
    have hempty : before = "" := by
      simpa [step_eq_empty hquiet, analysisLog_eq_empty hquiet] using hbefore
    simp [runLog, hempty, step_eq_empty hquiet, events_eq_empty hquiet]
  rw [hreport, runProgram_eq, hlog]

/-- The report of a failure. -/
theorem processText_of_fails {phase : Phase} {d : Diagnostic}
    (h : Fails fuel options text phase (.diagnostic d)) :
    ∃ r, processText fuel options text = .ok r ∧ r.status = 1 ∧
      r.stderr = complaint (phase.label ++ ": " ++ d.message) := by
  cases h with
  | parsing h =>
    rw [processText_of_error h, step_eq_empty hquiet]
    exact ⟨_, rfl, rfl, String.empty_append⟩
  | analysis hp hcheck h =>
    rw [processText_of_rejected hp hcheck h, analysisLog_eq_empty hquiet]
    exact ⟨_, rfl, rfl, String.empty_append⟩
  | execution hp hruns h =>
    rw [processText_eq_of_runs hquiet hp hruns, h]
    exact ⟨_, rfl, rfl, String.empty_append⟩

/-- The report of a program that does not fail. -/
theorem stderr_processText_of_not_fails (h : ∀ phase e, ¬ Fails fuel options text phase e) :
    ∃ r, processText fuel options text = .ok r ∧ r.stderr = "" := by
  cases hp : Program.parse text with
  | error d => exact absurd (.parsing hp) (h _ _)
  | ok p =>
    have hrun (hruns : Runs options p) :
        ∃ r, processText fuel options text = .ok r ∧ r.stderr = "" := by
      rw [processText_eq_of_runs hquiet hp hruns]
      cases hresult : result (p.run fuel .initial none) with
      | ok value => exact ⟨_, rfl, rfl⟩
      | error e => exact absurd (.execution hp hruns hresult) (h _ _)
    cases hcheck : options.noCheck with
    | true => exact hrun (.inl hcheck)
    | false =>
      cases hresult : result (p.check .initial none) with
      | error e => exact absurd (.analysis hp hcheck hresult) (h _ _)
      | ok typed =>
        have hreport := processText_of_accepted hp hcheck fuel hresult
        rw [analysisLog_eq_empty hquiet,
          Program.print_eq (Program.wellFormed_of_parse hp).1] at hreport
        split_ifs at hreport with hcheckOnly hemit
        · exact ⟨_, hreport, rfl⟩
        · exact ⟨_, hreport, rfl⟩
        · exact hrun (.inr ⟨⟨typed, hresult⟩, by simpa using hcheckOnly, by simpa using hemit⟩)

end

/-- Without a log, the report is silent on standard error if nothing fails, and else it tells in one
line what has failed and where. The exception is a literal with a backslash before the end of a
line, which the line then quotes. There is no report, and no status, if a run crashes. -/
theorem report_complains (hargs : parseArguments args = .ok options)
    (hquiet : options.verbose = false) (hfile : read options.file = .bytes bytes)
    (htext : String.fromUTF8? bytes = some text)
    (hfuel : ¬ Fails fuel options text .execution .outOfFuel) :
    (Fails fuel options text .execution (.crash .decimalOverflow) ∧
      report fuel read args = .error .decimalOverflow) ∨
    ∃ r, report fuel read args = .ok r ∧
      (((∀ phase e, ¬ Fails fuel options text phase e) ∧ r.stderr = "") ∨
        ∃ phase d, Fails fuel options text phase (.diagnostic d) ∧ r.status = 1 ∧
          r.stderr = "plc: " ++ phase.label ++ ": " ++ d.message ++ "\n" ∧
          (IsComplaint r.stderr ↔ ∀ i, d.cause ≠ .badQuote (.invalidEscape '\n') i)) := by
  rw [report_eq_of_fromUTF8 hargs hfile htext]
  by_cases hcrash : Fails fuel options text .execution (.crash .decimalOverflow)
  · refine .inl ⟨hcrash, ?_⟩
    cases hcrash with
    | execution hp hruns h =>
      rw [processText_eq_of_runs hquiet hp hruns, h]
      rfl
  · right
    by_cases hfails : ∃ phase e, Fails fuel options text phase e
    · obtain ⟨phase, e, h⟩ := hfails
      obtain ⟨d, rfl, hown⟩ := h.exists_diagnostic hfuel hcrash
      obtain ⟨r, hr, hstatus, hstderr⟩ := processText_of_fails hquiet h
      refine ⟨r, hr, .inr ⟨phase, d, h, hstatus, ?_, ?_⟩⟩
      · rw [hstderr]
        simp [complaint, String.append_assoc]
      · rw [hstderr, isComplaint_complaint, isLine_append, ← hown.isLine]
        exact and_iff_right (isLine_label phase)
    · simp only [not_exists] at hfails
      obtain ⟨r, hr, hstderr⟩ := stderr_processText_of_not_fails hquiet hfails
      exact ⟨r, hr, .inl ⟨hfails, hstderr⟩⟩

/-- The text of a program that divides by zero. -/
def dividing : String := "DEF main() DO print(1 / 0); END"

/-- A division by zero is told in one line. -/
theorem report_complains_dividing :
    ∃ options : Options, parseArguments ["--no-check", "p.plc"] = .ok options ∧
      options.verbose = false ∧
      ∃ r, report 2 (fun _ => .bytes dividing.toUTF8) ["--no-check", "p.plc"] = .ok r ∧
        IsComplaint r.stderr := by
  let file : String → FileContent := fun _ => .bytes dividing.toUTF8
  let options : Options := ⟨"p.plc", false, true, false, false⟩
  have hfile : file options.file = .bytes dividing.toUTF8 := rfl
  have hargs : parseArguments ["--no-check", "p.plc"] = .ok options :=
    parseArguments_of_readArguments (by simp [readArguments, options]) (by simp [options])
      (by simp [options])
  let d : Diagnostic := ⟨.divisionByZero, some ⟨1, 15⟩⟩
  have hfails : (Program.parse dividing).toOption.any (·.failsWith 2 (.diagnostic d)) = true := by
    decide +kernel
  obtain ⟨p, hp, hfails⟩ := Program.exists_of_any hfails
  have hrun := Program.result_of_failsWith hfails
  -- nothing else fails, since the program is read and not analysed
  have hfailure {phase : Phase} {e : Failure} (h : Fails 2 options dividing phase e) :
      e = .diagnostic d := by
    cases h with
    | parsing h =>
      rw [hp] at h
      cases h
    | analysis _ hcheck => cases hcheck
    | execution hp' _ h =>
      obtain rfl := Except.ok.inj (hp.symm.trans hp')
      exact Except.error.inj (h.symm.trans hrun)
  have hfuel : ¬ Fails 2 options dividing .execution .outOfFuel := by
    intro h
    cases hfailure h
  refine ⟨options, hargs, rfl, ?_⟩
  obtain ⟨hcrash, -⟩ | ⟨r, hr, ⟨hnone, -⟩ | ⟨phase, e, he, -, -, hline⟩⟩ :=
    report_complains hargs rfl hfile (fromUTF8?_toUTF8 dividing) hfuel
  · cases hfailure hcrash
  · exact absurd (.execution hp (.inl rfl) hrun) (hnone _ _)
  · obtain rfl := Failure.diagnostic.inj (hfailure he)
    refine ⟨r, hr, hline.mpr fun i hi => ?_⟩
    cases hi

/-- A string literal that ends with its line, behind a backslash. -/
theorem not_isComplaint_escapedNewline :
    ∃ options : Options, parseArguments ["p.plc"] = .ok options ∧ options.verbose = false ∧
      ∃ r, report 1 (fun _ => .bytes "\"\\\n".toUTF8) ["p.plc"] = .ok r ∧ r.status = 1 ∧
        r.stderr = "plc: syntax error: invalid escape: \\\n at line 1 col 3\n" ∧
        ¬ IsComplaint r.stderr := by
  let options : Options := ⟨"p.plc", false, false, false, false⟩
  have hargs : parseArguments ["p.plc"] = .ok options :=
    parseArguments_of_readArguments (by simp [readArguments, options]) (by simp [options])
      (by simp [options])
  have hreport : processText 1 options "\"\\\n" = .ok
      ⟨1, "", complaint "syntax error: invalid escape: \\\n at line 1 col 3"⟩ := by
    decide +kernel
  refine ⟨options, hargs, rfl, ?_⟩
  rw [report_eq_of_fromUTF8 hargs rfl (fromUTF8?_toUTF8 _), hreport]
  refine ⟨_, rfl, rfl, by decide, ?_⟩
  rw [isComplaint_complaint]
  decide

end BlockScript.CommandLine
