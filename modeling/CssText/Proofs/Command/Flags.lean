import CssText.Command
import CssText.Proofs.Diagnostic.Emitter
import Mathlib.Data.List.Perm.Basic

/-!
# What the flags of the command do

The arguments that are no flags are the operands. A run succeeds only with one operand that is
no option, and then it depends on the flags alone through whether they are given. So neither
the order of the arguments nor the flag for quiet changes what is printed (`run_flags`), and
without that flag the error stream lists the errors of the parse and counts them.
-/

namespace CssText
namespace Command

open Emitter (warningOf)

/-!
## The error stream

A run that has read its input emits a warning for each error of its parse and last the number
of them. The quiet emitter drops all of that.
-/

def line (event : Event) : Bytes :=
  event.text ++ [Byte.newline]

def sourceName (location : Bytes) : Bytes :=
  if isStdin location then ascii "<stdin>" else location

def reportText (source stage : Bytes) (errors : List ParseError) : Bytes :=
  (errors.flatMap fun error =>
    line { severity := .warning, component := ascii "css", stage, message := error.message,
           source, line := error.line, position := error.position }) ++
  line { severity := .info, component := ascii "css", stage := ascii "summary",
         message := decimal errors.length ++ ascii " parse error(s)", source }

theorem errorText_foldl {e : Emitter} (h : 0 < e.observers) (events : List Event) :
    errorText (events.foldl Emitter.emit e) =
      errorText e ++ ((events.filter e.accepts).map e.stamp).flatMap line := by
  rw [errorText, Emitter.deliveriesTo_foldl_emit h, List.flatMap_append]
  rfl

def emissions (stage : Bytes) (errors : List ParseError) (warnings : Nat) : List Event :=
  errors.map (warningOf stage) ++ [summary warnings]

theorem emit_summary (e : Emitter) (stage : Bytes) (errors : List ParseError) (warnings : Nat) :
    (e.reportErrors stage errors).emit (summary warnings) =
      (emissions stage errors warnings).foldl Emitter.emit e := by
  rw [Emitter.reportErrors_eq, emissions, List.foldl_append]
  rfl

theorem accepts_loud (location : Bytes) (event : Event) :
    (emitter false location).accepts event = true :=
  decide_eq_true (Nat.zero_le _)

theorem not_accepts_quiet {location stage : Bytes} {errors : List ParseError} {warnings : Nat} :
    ∀ event ∈ emissions stage errors warnings,
      (emitter true location).accepts event = false := by
  intro event hevent
  rcases List.mem_append.mp hevent with h | h
  · rcases List.mem_map.mp h with ⟨error, -, rfl⟩
    rfl
  · rw [List.mem_singleton.mp h]
    rfl

theorem errorText_quiet (location stage : Bytes) (errors : List ParseError) (warnings : Nat) :
    errorText ((emissions stage errors warnings).foldl Emitter.emit (emitter true location)) =
      [] := by
  rw [errorText_foldl Nat.one_pos, List.filter_eq_nil_iff.mpr]
  · rfl
  · intro event hevent
    rw [not_accepts_quiet event hevent]
    exact Bool.false_ne_true

theorem filter_accepts_loud (location : Bytes) (events : List Event) :
    events.filter (emitter false location).accepts = events :=
  List.filter_eq_self.mpr fun event _ => accepts_loud location event

/-- Every error is a warning, and nothing else is. -/
theorem warnings_loud (location stage : Bytes) (errors : List ParseError) :
    (((emitter false location).reportErrors stage errors).eventsBySeverity .warning).length =
      errors.length := by
  rw [Emitter.eventsBySeverity, Emitter.reportErrors_eq, Emitter.events_foldl_emit,
    filter_accepts_loud, List.filter_eq_self.mpr]
  · exact (congrArg List.length List.map_map).trans (List.length_map _)
  · intro event hevent
    rcases List.mem_append.mp hevent with h | h
    · cases h
    · rcases List.mem_map.mp h with ⟨_, hwarning, rfl⟩
      rcases List.mem_map.mp hwarning with ⟨error, -, rfl⟩
      rfl

theorem errorText_loud (location stage : Bytes) (errors : List ParseError) :
    errorText ((emissions stage errors errors.length).foldl Emitter.emit
      (emitter false location)) = reportText (sourceName location) stage errors := by
  rw [errorText_foldl Nat.one_pos, filter_accepts_loud, emissions, List.map_append,
    List.flatMap_append, List.map_map, List.flatMap_map, List.map_singleton,
    List.flatMap_singleton]
  rfl

/-!
## One run
-/

variable {stdin : Contents} {files : Files}

theorem process_of_error {location : Bytes} {e : SourceError}
    (h : input stdin files location = .error e) (declarationsOnly quiet : Bool) :
    (process stdin files declarationsOnly quiet location).exitCode = 1 ∧
      (process stdin files declarationsOnly quiet location).stdout = [] := by
  rw [process]
  simp only [h]
  exact ⟨trivial, trivial⟩

theorem process_of_ok {location css : Bytes} (h : input stdin files location = .ok css)
    (declarationsOnly quiet : Bool) :
    process stdin files declarationsOnly quiet location =
      { exitCode := 0
        stdout := (normalize declarationsOnly css).1
        stderr :=
          if quiet then []
          else reportText (sourceName location) (normalize declarationsOnly css).2.1
            (normalize declarationsOnly css).2.2 } := by
  rw [process]
  simp only [h, emit_summary]
  cases quiet with
  | true => rw [errorText_quiet, if_pos rfl]
  | false => rw [warnings_loud, errorText_loud, if_neg Bool.false_ne_true]

theorem process_quiet (declarationsOnly quiet quiet' : Bool) (location : Bytes) :
    (process stdin files declarationsOnly quiet location).exitCode =
        (process stdin files declarationsOnly quiet' location).exitCode ∧
      (process stdin files declarationsOnly quiet location).stdout =
        (process stdin files declarationsOnly quiet' location).stdout := by
  cases h : input stdin files location with
  | error e =>
      rcases process_of_error h declarationsOnly quiet with ⟨hexit, hstdout⟩
      rcases process_of_error h declarationsOnly quiet' with ⟨hexit', hstdout'⟩
      exact ⟨hexit.trans hexit'.symm, hstdout.trans hstdout'.symm⟩
  | ok css =>
      rw [process_of_ok h, process_of_ok h]
      exact ⟨rfl, rfl⟩

/-!
## Arguments

Flags are gathered wherever they stand around the operand. The arguments are refused whenever
the operands are anything else than one that is no option.
-/

def operands (arguments : List Bytes) : List Bytes :=
  arguments.filter fun a => a ≠ ascii "--declarations" && a ≠ ascii "--quiet"

/-- One operand, which is no option: all that a run needs. -/
def Names (arguments : List Bytes) (location : Bytes) : Prop :=
  operands arguments = [location] ∧ isOption location = false

theorem operands_of_flag {argument : Bytes}
    (h : argument = ascii "--declarations" ∨ argument = ascii "--quiet") (rest : List Bytes) :
    operands (argument :: rest) = operands rest := by
  apply List.filter_cons_of_neg
  rcases h with rfl | rfl
  · decide
  · decide

theorem operands_of_not_flag {argument : Bytes} (hdeclarations : argument ≠ ascii "--declarations")
    (hquiet : argument ≠ ascii "--quiet") (rest : List Bytes) :
    operands (argument :: rest) = argument :: operands rest := by
  apply List.filter_cons_of_pos
  simp [hdeclarations, hquiet]

theorem flags_ne : ascii "--declarations" ≠ ascii "--quiet" := by
  decide

theorem collect_of_operands (options : Options) {arguments : List Bytes} {location : Bytes}
    (h : options.location.toList ++ operands arguments = [location])
    (hoption : ∀ a ∈ operands arguments, isOption a = false) :
    collect options arguments =
      .process (options.declarationsOnly || decide (ascii "--declarations" ∈ arguments))
        (options.quiet || decide (ascii "--quiet" ∈ arguments)) location := by
  fun_induction collect options arguments with
  | case1 options location' hlocation =>
      rw [hlocation] at h
      cases h
      simp
  | case2 options hlocation =>
      rw [hlocation] at h
      cases h
  | case3 options rest ih =>
      rw [operands_of_flag (Or.inl rfl)] at h hoption
      rw [ih h hoption]
      simp [flags_ne.symm]
  | case4 options rest hne ih =>
      rw [operands_of_flag (Or.inr rfl)] at h hoption
      rw [ih h hoption]
      simp [flags_ne]
  | case5 options argument rest hdeclarations hquiet hbad =>
      rw [operands_of_not_flag hdeclarations hquiet] at hoption
      rw [hoption argument List.mem_cons_self] at hbad
      cases hbad
  | case6 options argument rest hdeclarations hquiet hgood htaken =>
      rw [operands_of_not_flag hdeclarations hquiet] at h
      rcases Option.isSome_iff_exists.mp htaken with ⟨location', hlocation⟩
      rw [hlocation] at h
      cases h
  | case7 options argument rest hdeclarations hquiet hgood hfree ih =>
      rw [operands_of_not_flag hdeclarations hquiet] at h hoption
      rw [Option.not_isSome_iff_eq_none.mp hfree] at h
      rw [ih h fun a ha => hoption a (List.mem_cons_of_mem argument ha)]
      simp [Ne.symm hdeclarations, Ne.symm hquiet]

theorem collect_refused (options : Options) {arguments : List Bytes}
    (h : ∀ location, options.location.toList ++ operands arguments = [location] →
      ∃ a ∈ operands arguments, isOption a = true) :
    collect options arguments = .badUsage ∨ ∃ a, collect options arguments = .badOption a := by
  fun_induction collect options arguments with
  | case1 options location hlocation =>
      rcases h location (by rw [hlocation]; rfl) with ⟨a, ha, -⟩
      cases ha
  | case2 options hlocation => exact Or.inl rfl
  | case3 options rest ih =>
      rw [operands_of_flag (Or.inl rfl)] at h
      exact ih h
  | case4 options rest hne ih =>
      rw [operands_of_flag (Or.inr rfl)] at h
      exact ih h
  | case5 options argument rest hdeclarations hquiet hbad => exact Or.inr ⟨argument, rfl⟩
  | case6 options argument rest hdeclarations hquiet hgood htaken => exact Or.inl rfl
  | case7 options argument rest hdeclarations hquiet hgood hfree ih =>
      rw [operands_of_not_flag hdeclarations hquiet,
        Option.not_isSome_iff_eq_none.mp hfree] at h
      apply ih
      intro location hlocation
      rcases h location hlocation with ⟨a, ha, hoption⟩
      rcases List.mem_cons.mp ha with rfl | ha
      · exact absurd hoption hgood
      · exact ⟨a, ha, hoption⟩

/-- The arguments do not ask for help or for the version. -/
def Plain (arguments : List Bytes) : Prop :=
  ∀ a, arguments = [a] → isHelp a = false ∧ isVersion a = false

theorem request_of_plain {arguments : List Bytes} (h : Plain arguments) :
    request arguments = collect {} arguments := by
  unfold request
  split
  · rename_i argument
    rcases h argument rfl with ⟨hhelp, hversion⟩
    rw [hhelp, hversion]
    rfl
  · rfl

/-!
## All runs
-/

theorem run_of_names {arguments : List Bytes} {location : Bytes} (hplain : Plain arguments)
    (h : Names arguments location) :
    run arguments stdin files =
      process stdin files (decide (ascii "--declarations" ∈ arguments))
        (decide (ascii "--quiet" ∈ arguments)) location := by
  have hoption : ∀ a ∈ operands arguments, isOption a = false := by
    intro a ha
    rw [h.1] at ha
    exact List.mem_singleton.mp ha ▸ h.2
  rw [run, request_of_plain hplain, collect_of_operands {} h.1 hoption]
  simp only [Bool.false_or]

theorem run_of_not_names {arguments : List Bytes} (hplain : Plain arguments)
    (h : ¬ ∃ location, Names arguments location) :
    (run arguments stdin files).exitCode = 2 ∧ (run arguments stdin files).stdout = [] := by
  have hrefused : ∀ location, operands arguments = [location] →
      ∃ a ∈ operands arguments, isOption a = true := by
    intro location hoperands
    refine ⟨location, by simp [hoperands], ?_⟩
    rw [← Bool.not_eq_false]
    exact fun hoption => h ⟨location, hoperands, hoption⟩
  rw [run, request_of_plain hplain]
  rcases collect_refused {} hrefused with hrequest | ⟨a, hrequest⟩
  · rw [hrequest]
    exact ⟨rfl, rfl⟩
  · rw [hrequest]
    exact ⟨rfl, rfl⟩

theorem Names.of_perm {xs ys : List Bytes} {location : Bytes} (h : Names xs location)
    (hperm : (operands xs).Perm (operands ys)) : Names ys location := by
  rw [Names, h.1] at *
  exact ⟨(List.singleton_perm.mp hperm).symm, h.2⟩

/-- Runs with the same operands, in whatever order, and the same choice of what to print. -/
theorem run_congr {xs ys : List Bytes} (hxs : Plain xs) (hys : Plain ys)
    (hoperands : (operands xs).Perm (operands ys))
    (hdeclarations : ascii "--declarations" ∈ xs ↔ ascii "--declarations" ∈ ys) :
    (run xs stdin files).exitCode = (run ys stdin files).exitCode ∧
      (run xs stdin files).stdout = (run ys stdin files).stdout := by
  by_cases hnames : ∃ location, Names xs location
  · rcases hnames with ⟨location, hnames⟩
    rw [run_of_names hxs hnames, run_of_names hys (hnames.of_perm hoperands),
      decide_eq_decide.mpr hdeclarations]
    exact process_quiet _ _ _ location
  · have hnames' : ¬ ∃ location, Names ys location := fun ⟨location, h⟩ =>
      hnames ⟨location, h.of_perm hoperands.symm⟩
    rcases @run_of_not_names stdin files xs hxs hnames with ⟨hexit, hstdout⟩
    rcases @run_of_not_names stdin files ys hys hnames' with ⟨hexit', hstdout'⟩
    exact ⟨hexit.trans hexit'.symm, hstdout.trans hstdout'.symm⟩

theorem run_of_success {arguments : List Bytes} (hplain : Plain arguments)
    (h : (run arguments stdin files).exitCode = 0) :
    ∃ location css, Names arguments location ∧ input stdin files location = .ok css := by
  by_cases hnames : ∃ location, Names arguments location
  · rcases hnames with ⟨location, hnames⟩
    rw [run_of_names hplain hnames] at h
    cases hinput : input stdin files location with
    | ok css => exact ⟨location, css, hnames, hinput⟩
    | error e =>
        rw [(process_of_error hinput _ _).1] at h
        cases h
  · rw [(run_of_not_names hplain hnames).1] at h
    cases h

theorem Plain.insert_quiet (front back : List Bytes) :
    Plain (front ++ ascii "--quiet" :: back) := by
  intro a h
  rcases List.append_eq_singleton_iff.mp h with ⟨-, h⟩ | ⟨-, h⟩
  · obtain ⟨rfl, -⟩ := List.cons.inj h
    decide
  · cases h

theorem Plain.of_perm {xs ys : List Bytes} (h : Plain xs) (hperm : ys.Perm xs) : Plain ys := by
  rintro a rfl
  exact h a (List.singleton_perm.mp hperm).symm

/--
Neither the flag for quiet nor the order of the arguments changes the exit code or what is
printed. A quiet run that succeeds says nothing; any other lists the errors of its parse.
-/
theorem run_flags {arguments : List Bytes} (hplain : Plain arguments) (stdin : Contents)
    (files : Files) :
    (∀ front back, arguments = front ++ back →
      (run (front ++ ascii "--quiet" :: back) stdin files).exitCode =
          (run arguments stdin files).exitCode ∧
        (run (front ++ ascii "--quiet" :: back) stdin files).stdout =
          (run arguments stdin files).stdout) ∧
      (∀ others : List Bytes, others.Perm arguments →
        (run others stdin files).exitCode = (run arguments stdin files).exitCode ∧
          (run others stdin files).stdout = (run arguments stdin files).stdout) ∧
      (ascii "--quiet" ∈ arguments → (run arguments stdin files).exitCode = 0 →
        (run arguments stdin files).stderr = []) ∧
      (ascii "--quiet" ∉ arguments → (run arguments stdin files).exitCode = 0 →
        ∃ location css, Names arguments location ∧ input stdin files location = .ok css ∧
          (ascii "--declarations" ∈ arguments →
            (run arguments stdin files).stdout =
                Declaration.listText (Declaration.parseList defaultLimit css).value ∧
              (run arguments stdin files).stderr =
                reportText (sourceName location) (ascii "declarations")
                  (Declaration.parseList defaultLimit css).errors) ∧
          (ascii "--declarations" ∉ arguments →
            (run arguments stdin files).stdout = (Sheet.parse defaultLimit css).value.text ∧
              (run arguments stdin files).stderr =
                reportText (sourceName location) (ascii "stylesheet")
                  (Sheet.parse defaultLimit css).errors)) := by
  refine ⟨?_, ?_, ?_, ?_⟩
  · rintro front back rfl
    apply run_congr (Plain.insert_quiet front back) hplain
    · rw [operands, List.filter_append, ← operands, ← operands, operands_of_flag (Or.inr rfl),
        operands, operands, ← List.filter_append]
      exact List.Perm.refl _
    · simp [flags_ne]
  · intro others hperm
    exact run_congr (hplain.of_perm hperm) hplain (hperm.filter _) hperm.mem_iff
  · intro hquiet hexit
    rcases run_of_success hplain hexit with ⟨location, css, hnames, hinput⟩
    rw [run_of_names hplain hnames, process_of_ok hinput, decide_eq_true hquiet]
    rfl
  · intro hquiet hexit
    rcases run_of_success hplain hexit with ⟨location, css, hnames, hinput⟩
    rw [run_of_names hplain hnames, process_of_ok hinput, decide_eq_false hquiet]
    refine ⟨location, css, hnames, hinput, ?_, ?_⟩
    · intro hdeclarations
      rw [decide_eq_true hdeclarations]
      exact ⟨rfl, rfl⟩
    · intro hdeclarations
      rw [decide_eq_false hdeclarations]
      exact ⟨rfl, rfl⟩

def brokenInput : Contents :=
  some (ascii "a:b;c")

theorem run_flags_broken :
    Plain [ascii "--declarations", ascii "-"] ∧
      ((run [ascii "--declarations", ascii "--quiet", ascii "-"] brokenInput fun _ => none).stdout =
          (run [ascii "--declarations", ascii "-"] brokenInput fun _ => none).stdout) ∧
      (run [ascii "--declarations", ascii "--quiet", ascii "-"] brokenInput fun _ => none).stderr =
        [] ∧
      (run [ascii "-", ascii "--declarations"] brokenInput fun _ => none).exitCode = 0 ∧
      ∃ location css, Names [ascii "--declarations", ascii "-"] location ∧
        input brokenInput (fun _ => none) location = .ok css ∧
        (run [ascii "--declarations", ascii "-"] brokenInput fun _ => none).stderr =
          reportText (sourceName location) (ascii "declarations")
            (Declaration.parseList defaultLimit css).errors := by
  have hplain : Plain [ascii "--declarations", ascii "-"] := by
    rintro a ⟨⟩
  have hplain' : Plain [ascii "--declarations", ascii "--quiet", ascii "-"] := by
    rintro a ⟨⟩
  have hquiet : ascii "--quiet" ∉ [ascii "--declarations", ascii "-"] := by decide +kernel
  have hquiet' : ascii "--quiet" ∈ [ascii "--declarations", ascii "--quiet", ascii "-"] := by
    decide +kernel
  have hexit : (run [ascii "--declarations", ascii "-"] brokenInput fun _ => none).exitCode = 0 := by
    decide +kernel
  have hmem : ascii "--declarations" ∈ [ascii "--declarations", ascii "-"] := List.mem_cons_self
  rcases run_flags hplain brokenInput (fun _ => none) with ⟨hinsert, hperm, -, hreport⟩
  rcases hinsert [ascii "--declarations"] [ascii "-"] rfl with ⟨hsame, hstdout⟩
  rcases run_flags hplain' brokenInput (fun _ => none) with ⟨-, -, hsilent, -⟩
  rcases hreport hquiet hexit with ⟨location, css, hnames, hinput, hdeclarations, -⟩
  exact ⟨hplain, hstdout, hsilent hquiet' (hsame.trans hexit),
    ((hperm _ (List.Perm.swap _ _ _)).1).trans hexit, location, css, hnames, hinput,
    (hdeclarations hmem).2⟩

example : (run [ascii "--declarations", ascii "-"] brokenInput fun _ => none).stderr =
    ascii ("<stdin>:1: [warning] css/declarations: Declaration: ':' expected, found end of input\n" ++
      "<stdin>: [info] css/summary: 1 parse error(s)\n") := by
  decide +kernel

end Command
end CssText
