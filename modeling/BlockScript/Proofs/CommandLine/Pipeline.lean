import BlockScript.Proofs.CommandLine.Phases
import BlockScript.Proofs.Soundness.Placing
import BlockScript.Proofs.Typing.Sparing

/-!
# From a file to a report

What the program answers to the bytes of a file, for all options that go together. Standard output
has all that a run has printed, whether or not the run fails in the end. Only a run that crashes has
no answer.
-/

namespace BlockScript.CommandLine

open Attempt

/-- The exit status that the result of a run calls for. -/
def Ended (status : Nat) : Except Failure Value → Prop
  | .error e => (∃ d, e = .diagnostic d) ∧ status = 1
  | .ok (.integer n) => (status : Int) = n % 256 ∧ status < 256
  | .ok _ => status = 0

/-- The report is the one that a file with these bytes calls for. -/
structure IsFaithful (fuel : Nat) (options : Options) (bytes : ByteArray) (r : Report) : Prop where
  undecodable : String.fromUTF8? bytes = none → r.status = 1 ∧ r.stdout = ""
  unreadable : ∀ text d, String.fromUTF8? bytes = some text → Program.parse text = .error d →
    Phase.parsing.handles d.cause.family = true ∧ r.status = 1 ∧ r.stdout = ""
  rejected : ∀ text p e, String.fromUTF8? bytes = some text → Program.parse text = .ok p →
    options.noCheck = false → result (p.check .initial none) = .error e →
    (∃ d, e = .diagnostic d ∧ Phase.analysis.handles d.cause.family = true) ∧
      r.status = 1 ∧ r.stdout = ""
  checked : ∀ text p typed, String.fromUTF8? bytes = some text → Program.parse text = .ok p →
    result (p.check .initial none) = .ok typed → options.checkOnly = true →
    r.status = 0 ∧ r.stdout = ""
  emitted : ∀ text p typed, String.fromUTF8? bytes = some text → Program.parse text = .ok p →
    result (p.check .initial none) = .ok typed → options.checkOnly = false → options.emit = true →
    ∃ printed, p.print = .ok printed ∧ r.status = 0 ∧ r.stdout = printed
  /-- A run that is over prints what the calls of `print` in it print, in order. -/
  run : ∀ text p, String.fromUTF8? bytes = some text → Program.parse text = .ok p →
    Runs options p → result (p.run fuel .initial none) ≠ .error .outOfFuel →
    Ended r.status (result (p.run fuel .initial none)) ∧
      ∃ lines, Activity.Transcript ⟨fuel, .program p, .start .initial none⟩ lines ∧
        r.stdout = String.join (lines.map (· ++ "\n"))

variable {fuel : Nat} {options : Options} {args : List String} {read : String → FileContent}
  {bytes : ByteArray} {text : String} {p : Program}

theorem ended_exitStatus (value : Value) : Ended (exitStatus value) (.ok value) := by
  cases value with
  | integer n =>
    have hnonneg : 0 ≤ n % 256 := Int.emod_nonneg n (by decide)
    have hlt : n % 256 < 256 := Int.emod_lt_of_pos n (by decide)
    simp only [Ended, exitStatus]
    omega
  | _ => rfl

/-- A run that is over and has a report ends with its value, or with a diagnostic. -/
theorem ended_runProgram {before : String} {r : Report} (hp : Program.parse text = .ok p)
    (hr : runProgram fuel options before p = .ok r)
    (hfuel : result (p.run fuel .initial none) ≠ .error .outOfFuel) :
    Ended r.status (result (p.run fuel .initial none)) ∧ r.stdout = output fuel p := by
  rw [runProgram_eq] at hr
  cases hresult : result (p.run fuel .initial none) with
  | ok value =>
    rw [hresult] at hr
    cases hr
    exact ⟨ended_exitStatus value, rfl⟩
  | error e =>
    rw [hresult] at hr
    obtain rfl | ⟨d, rfl, -⟩ := isOwn_of_run hp hresult fun he => hfuel (he ▸ hresult)
    · cases hr
    · cases hr
      exact ⟨⟨⟨d, rfl⟩, rfl⟩, rfl⟩

theorem failed_eq_error {stdout before label : String} {e : Failure} {c : Crash}
    (h : failed stdout before label e = .error c) : e = .crash c := by
  cases e with
  | crash c' => exact congrArg Failure.crash (Except.error.inj h)
  | _ => cases h

/-- Only a run crashes. -/
theorem processText_eq_error {c : Crash} (h : processText fuel options text = .error c) :
    ∃ p, Program.parse text = .ok p ∧ Runs options p ∧
      result (p.run fuel .initial none) = .error (.crash c) := by
  cases hp : Program.parse text with
  | error d =>
    rw [processText_of_error hp] at h
    cases h
  | ok p =>
    have hcrash (hruns : Runs options p) :
        result (p.run fuel .initial none) = .error (.crash c) := by
      obtain ⟨before, -, hreport⟩ := processText_of_runs fuel hp hruns
      rw [hreport, runProgram_eq] at h
      cases hresult : result (p.run fuel .initial none) with
      | ok value =>
        rw [hresult] at h
        cases h
      | error e =>
        rw [hresult] at h
        rw [failed_eq_error h]
    cases hcheck : options.noCheck with
    | true => exact ⟨p, rfl, .inl hcheck, hcrash (.inl hcheck)⟩
    | false =>
      cases hresult : result (p.check .initial none) with
      | error e =>
        obtain ⟨d, rfl, -⟩ := isOwn_of_check hp hresult
        rw [processText_of_rejected hp hcheck hresult] at h
        cases h
      | ok typed =>
        rw [processText_of_accepted hp hcheck fuel hresult,
          Program.print_eq (Program.wellFormed_of_parse hp).1] at h
        split_ifs at h with hcheckOnly hemit
        have hruns : Runs options p :=
          .inr ⟨⟨typed, hresult⟩, by simpa using hcheckOnly, by simpa using hemit⟩
        exact ⟨p, rfl, hruns, hcrash hruns⟩

theorem transcript_run (fuel : Nat) (p : Program) :
    Activity.Transcript ⟨fuel, .program p, .start .initial none⟩
      (state (p.run fuel .initial none)).printed :=
  Ends.state <| Run.transcript_program p <|
    Machine.sound_start Store.wellFormed_initial (by simp)

/-- Whatever a file holds, the report is the one that it calls for. -/
theorem isFaithful_of_report {r : Report} (hargs : parseArguments args = .ok options)
    (hfile : read options.file = .bytes bytes) (hr : report fuel read args = .ok r) :
    IsFaithful fuel options bytes r where
  undecodable h := by
    rw [report_eq hargs hfile, process] at hr
    simp only [h] at hr
    cases hr
    exact ⟨rfl, rfl⟩
  unreadable text d htext h := by
    rw [report_eq_of_fromUTF8 hargs hfile htext, processText_of_error h] at hr
    cases hr
    exact ⟨(isOwn_of_parse h).handled, rfl, rfl⟩
  rejected text p e htext hp hcheck h := by
    obtain ⟨d, rfl, hown⟩ := isOwn_of_check hp h
    rw [report_eq_of_fromUTF8 hargs hfile htext, processText_of_rejected hp hcheck h] at hr
    cases hr
    exact ⟨⟨d, rfl, hown.handled⟩, rfl, rfl⟩
  checked text p typed htext hp h hcheckOnly := by
    have hcheck := noCheck_of_parseArguments hargs (.inl hcheckOnly)
    rw [report_eq_of_fromUTF8 hargs hfile htext, processText_of_accepted hp hcheck fuel h,
      if_pos hcheckOnly] at hr
    cases hr
    exact ⟨rfl, rfl⟩
  emitted text p typed htext hp h hcheckOnly hemit := by
    have hcheck := noCheck_of_parseArguments hargs (.inr hemit)
    have hprint := Program.print_eq (Program.wellFormed_of_parse hp).1
    refine ⟨_, hprint, ?_⟩
    rw [report_eq_of_fromUTF8 hargs hfile htext, processText_of_accepted hp hcheck fuel h,
      if_neg (by simp [hcheckOnly]), if_pos hemit, hprint] at hr
    cases hr
    exact ⟨rfl, rfl⟩
  run text p htext hp hruns hfuel := by
    obtain ⟨before, -, hreport⟩ := processText_of_runs fuel hp hruns
    rw [report_eq_of_fromUTF8 hargs hfile htext, hreport] at hr
    obtain ⟨hended, hstdout⟩ := ended_runProgram hp hr hfuel
    exact ⟨hended, _, transcript_run fuel p, hstdout⟩

/-- Whatever a file holds, the report is the one that it calls for, or else a run has crashed on a
decimal that is too large. Then there is no report, and what has been printed is lost. -/
theorem report_isFaithful (fuel : Nat) (hargs : parseArguments args = .ok options)
    (hfile : read options.file = .bytes bytes) :
    (∃ r, report fuel read args = .ok r ∧ IsFaithful fuel options bytes r) ∨
    ∃ text p, String.fromUTF8? bytes = some text ∧ Program.parse text = .ok p ∧ Runs options p ∧
      result (p.run fuel .initial none) = .error (.crash .decimalOverflow) ∧
      report fuel read args = .error .decimalOverflow := by
  cases hr : report fuel read args with
  | ok r => exact .inl ⟨r, rfl, isFaithful_of_report hargs hfile hr⟩
  | error c =>
    right
    cases htext : String.fromUTF8? bytes with
    | none =>
      rw [report_eq hargs hfile, process] at hr
      simp only [htext] at hr
      cases hr
    | some text =>
      rw [report_eq_of_fromUTF8 hargs hfile htext] at hr
      obtain ⟨p, hp, hruns, hresult⟩ := processText_eq_error hr
      have hfuel : Failure.crash c ≠ .outOfFuel := by simp
      obtain hcrash | ⟨d, hd, -⟩ := isOwn_of_run hp hresult hfuel
      · cases hcrash
        exact ⟨text, p, rfl, hp, hruns, hresult, rfl⟩
      · cases hd

/-- The text of a program that prints a line in each of two calls, and then divides by zero. -/
def failing : String :=
  "DEF f() DO print(2); RETURN 1 / 0; END DEF main() DO print(1); RETURN f(); END"

/-- What is printed before a failure inside of a call comes out. -/
theorem report_isFaithful_failing :
    ∃ options : Options, parseArguments ["--no-check", "p.plc"] = .ok options ∧
      ∃ r, report 3 (fun _ => .bytes failing.toUTF8) ["--no-check", "p.plc"] = .ok r ∧
        IsFaithful 3 options failing.toUTF8 r ∧ r.status = 1 ∧ r.stdout = "1\n2\n" := by
  let file : String → FileContent := fun _ => .bytes failing.toUTF8
  let options : Options := ⟨"p.plc", false, true, false, false⟩
  have hfile : file options.file = .bytes failing.toUTF8 := rfl
  have hargs : parseArguments ["--no-check", "p.plc"] = .ok options :=
    parseArguments_of_readArguments (by simp [readArguments, options]) (by simp [options])
      (by simp [options])
  have hruns : (Program.parse failing).toOption.any (fun p =>
      p.failsWith 3 (.diagnostic ⟨.divisionByZero, some ⟨1, 22⟩⟩) &&
        decide ((state (p.run 3 .initial none)).printed = ["1", "2"])) = true := by
    decide +kernel
  obtain ⟨p, hp, hruns⟩ := Program.exists_of_any hruns
  simp only [Bool.and_eq_true, decide_eq_true_eq] at hruns
  have hrun := Program.result_of_failsWith hruns.1
  have htext := fromUTF8?_toUTF8 failing
  obtain ⟨r, hr, hfaithful⟩ | ⟨_, q, htext', hq, -, hcrash, -⟩ :=
    report_isFaithful 3 hargs hfile
  · obtain ⟨hended, lines, hlines, hstdout⟩ :=
      hfaithful.run failing p htext hp (.inl rfl) (by simp [hrun])
    rw [hrun] at hended
    rw [hlines.unique (transcript_run 3 p), hruns.2] at hstdout
    exact ⟨options, hargs, r, hr, hfaithful, hended.2, hstdout.trans (by decide)⟩
  · obtain rfl := Option.some.inj (htext.symm.trans htext')
    obtain rfl := Except.ok.inj (hp.symm.trans hq)
    cases hrun.symm.trans hcrash

/-- An accepted program whose run is over, and still there is no status. -/
theorem not_isFaithful_overflowing :
    ∃ options : Options, parseArguments ["p.plc"] = .ok options ∧
      ∃ p typed, Program.parse Program.overflowing = .ok p ∧
        result (p.check .initial none) = .ok typed ∧
        result (p.run 1 .initial none) ≠ .error .outOfFuel ∧
        ¬ ∃ r, report 1 (fun _ => .bytes Program.overflowing.toUTF8) ["p.plc"] = .ok r := by
  let file : String → FileContent := fun _ => .bytes Program.overflowing.toUTF8
  let options : Options := ⟨"p.plc", false, false, false, false⟩
  have hfile : file options.file = .bytes Program.overflowing.toUTF8 := rfl
  have hargs : parseArguments ["p.plc"] = .ok options :=
    parseArguments_of_readArguments (by simp [readArguments, options]) (by simp [options])
      (by simp [options])
  obtain ⟨p, typed, a, m, hp, hcheck, hrun⟩ := Program.crashes_overflowing
  have haccepted : result (p.check .initial none) = .ok typed := by rw [hcheck, result]
  have hcrash : result (p.run 1 .initial none) = .error (.crash .decimalOverflow) := by
    rw [hrun, result]
  refine ⟨options, hargs, p, typed, hp, haccepted, by simp [hcrash], ?_⟩
  rintro ⟨r, hr⟩
  have hruns : Runs options p := .inr ⟨⟨typed, haccepted⟩, rfl, rfl⟩
  obtain ⟨before, -, hreport⟩ := processText_of_runs 1 hp hruns
  rw [report_eq_of_fromUTF8 hargs hfile (fromUTF8?_toUTF8 _), hreport, runProgram_eq, hcrash] at hr
  cases hr

end BlockScript.CommandLine
