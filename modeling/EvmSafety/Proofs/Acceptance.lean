/-
What gets through.

A text passes several layers on its way to a verdict, and each may turn it away: the command
line trims it, the buffer reads and measures it, the check refuses the empty program, and the
validation decides the rest.  All of them are settled by what the text writes.  `Outcome` lists
the four ends that a check can have, one for each relation of the bytes written to the limit,
and what a check promises is read off from them.

The command line adds nothing of its own: wherever the program comes from, the answer is that
to the text, and trimming it once more changes nothing.
-/
import EvmSafety.CommandLine
import EvmSafety.Proofs.Loading
import Mathlib.Control.Monad.Basic

namespace EvmSafety

/-! ### Reports -/

namespace Report

theorem ofResult_describes (code : Code) (result : Except Violation Analysis) :
    (ofResult code result).fork = code.fork ∧ (ofResult code result).codeSize = code.size
      ∧ (ofResult code result).verdict = .ofResult result := by
  cases result with
  | ok => exact ⟨rfl, rfl, rfl⟩
  | error => exact ⟨rfl, rfl, rfl⟩

/-- Nothing is listed of a rejected program. -/
theorem ofResult_of_not_isValid {code : Code} {result : Except Violation Analysis}
    (h : (ofResult code result).isValid = false) :
    (ofResult code result).blockEntries = [] ∧ (ofResult code result).routines = 0 := by
  cases result with
  | ok => cases h
  | error => exact ⟨rfl, rfl⟩

end Report

namespace Check

open Buffer

/-! ### The ends of a check -/

theorem loadProgram_of_writes {limit : Nat} {text : String} {program : Array UInt8}
    (h : Writes text.toList program.toList) :
    loadProgram limit text =
      if limit < program.size then .error (.tooLarge program.size limit)
      else if program.isEmpty then .error .empty
      else .ok program := by
  rw [loadProgram, load_of_writes _ h]
  by_cases hlarge : limit < program.size
  · have hnot : ¬ program.size ≤ limit := by omega
    simp only [take, if_neg hnot, if_pos hlarge]
  · have hfits : program.size ≤ limit := by omega
    simp only [take, if_pos hfits, if_neg hlarge]

theorem loadProgram_of_not_writes {limit : Nat} {text : String}
    (h : ∀ program : Array UInt8, ¬ Writes text.toList program.toList) :
    ∃ quoted, loadProgram limit text = .error (.notHex quoted) := by
  rw [loadProgram, load_of_not_writes _ h]
  exact ⟨_, rfl⟩

theorem run_of_writes (settings : Settings) {text : String} {program : Array UInt8}
    (h : Writes text.toList program.toList) :
    run settings text =
      if settings.limit < program.size then .error (.tooLarge program.size settings.limit)
      else if program.isEmpty then .error .empty
      else .ok (ofCode settings (Code.ofBytes program settings.fork)) := by
  rw [run, loadProgram_of_writes h]
  by_cases hlarge : settings.limit < program.size
  · rw [if_pos hlarge, if_pos hlarge]
    rfl
  · rw [if_neg hlarge, if_neg hlarge]
    by_cases hempty : program.isEmpty
    · rw [if_pos hempty, if_pos hempty]
      rfl
    · rw [if_neg hempty, if_neg hempty]
      rfl

theorem run_of_not_writes (settings : Settings) {text : String}
    (h : ∀ program : Array UInt8, ¬ Writes text.toList program.toList) :
    ∃ quoted, run settings text = .error (.notHex quoted) := by
  obtain ⟨quoted, hquoted⟩ := @loadProgram_of_not_writes settings.limit _ h
  rw [run, hquoted]
  exact ⟨quoted, rfl⟩

/-- How the check of a text can end. -/
inductive Outcome (settings : Settings) (text : String) : Except Unloadable Check → Prop
  /-- The text writes no bytes. -/
  | notHex (quoted : String) :
      (∀ program : Array UInt8, ¬ Writes text.toList program.toList) →
      Outcome settings text (.error (.notHex quoted))
  /-- It writes more bytes than are allowed. -/
  | tooLarge (program : Array UInt8) :
      Writes text.toList program.toList → settings.limit < program.size →
      Outcome settings text (.error (.tooLarge program.size settings.limit))
  /-- It writes the empty program. -/
  | empty : Writes text.toList [] → Outcome settings text (.error .empty)
  /-- It writes a program that can be validated. -/
  | checked (program : Array UInt8) :
      Writes text.toList program.toList → 1 ≤ program.size → program.size ≤ settings.limit →
      Outcome settings text (.ok (ofCode settings (Code.ofBytes program settings.fork)))

theorem outcome (settings : Settings) (text : String) :
    Outcome settings text (run settings text) := by
  by_cases h : ∃ program : Array UInt8, Writes text.toList program.toList
  · obtain ⟨program, hwrites⟩ := h
    rw [run_of_writes settings hwrites]
    by_cases hlarge : settings.limit < program.size
    · rw [if_pos hlarge]
      exact .tooLarge program hwrites hlarge
    · rw [if_neg hlarge]
      by_cases hempty : program.isEmpty
      · rw [if_pos hempty]
        rw [Array.isEmpty_iff.mp hempty] at hwrites
        exact .empty hwrites
      · rw [if_neg hempty]
        have hsize : program.size ≠ 0 := by simpa using hempty
        exact .checked program hwrites (by omega) (by omega)
  · have hno : ∀ program : Array UInt8, ¬ Writes text.toList program.toList :=
      fun program hwrites => h ⟨program, hwrites⟩
    obtain ⟨quoted, hquoted⟩ := run_of_not_writes settings hno
    rw [hquoted]
    exact .notHex quoted hno

/-- A check of a trimmed text is a check of the text. -/
theorem run_trimmed (settings : Settings) (text : String) :
    run settings (Text.trimmed text) = run settings text := by
  rw [run, run, loadProgram, loadProgram, load_trimmed]

end Check

namespace CommandLine

/-! ### Where the program comes from -/

/-- A call of the program gives it a text next to what the options say: as the argument, as
what the file holds, or on the standard input. -/
inductive Gives (surroundings : Surroundings) (arguments : List String) (options : Options)
    (text : String) : Prop
  | argument :
      readArguments {} arguments = .ok { options with file := none, bytecode := some text } →
      Gives surroundings arguments options text
  | file (path : String) (other : Option String) :
      readArguments {} arguments = .ok { options with file := some path, bytecode := other } →
      surroundings.file path = .ok text.toUTF8 → Gives surroundings arguments options text
  | standardInput :
      readArguments {} arguments = .ok { options with file := none, bytecode := none } →
      surroundings.standardInput = .stream text.toUTF8 → Gives surroundings arguments options text

@[simp]
theorem textOf_toUTF8 (text : String) : textOf text.toUTF8 = .ok text := by
  have h : String.fromUTF8? text.toUTF8 = some text := by
    rw [String.fromUTF8?, String.toUTF8_eq_toByteArray, dif_pos text.isValidUTF8]
    rfl
  rw [textOf, h]

theorem answer_of_content {surroundings : Surroundings} {arguments : List String}
    {options : Options} {text : String} (hread : readArguments {} arguments = .ok options)
    (hcontent : options.source.content surroundings = .ok text) :
    answer surroundings arguments = answerProgram options text := by
  simp only [answer, hread, hcontent, answerContent]

/-- The answer to a text does not look at where the text comes from. -/
theorem answerProgram_source (options : Options) (file bytecode : Option String)
    (text : String) :
    answerProgram { options with file, bytecode } text = answerProgram options text := by
  simp only [answerProgram, Options.settings]

/-- The answer is that to the text, whichever way it is given. -/
theorem answer_of_gives {surroundings : Surroundings} {arguments : List String}
    {options : Options} {text : String} (h : Gives surroundings arguments options text) :
    answer surroundings arguments = answerProgram options text := by
  cases h with
  | argument hread =>
    rw [answer_of_content hread (by rfl), answerProgram_source]
  | file path other hread hfile =>
    have hcontent : (Source.file path).content surroundings = .ok text := by
      show (surroundings.file path >>= textOf) = .ok text
      rw [hfile]
      exact textOf_toUTF8 text
    rw [answer_of_content hread hcontent, answerProgram_source]
  | standardInput hread hinput =>
    have hcontent : Source.standardInput.content surroundings = .ok text := by
      show surroundings.standardInput.content = .ok text
      rw [hinput, StandardInput.content, textOf_toUTF8]
    rw [answer_of_content hread hcontent, answerProgram_source]

/-- The answer to a text, in terms of its check. -/
theorem answerProgram_eq {options : Options} {format : Format} (text : String)
    (hformat : Format.parse (options.format.getD "text") = .ok format) :
    (∀ check, Check.run (options.settings format) text = .ok check →
        answerProgram options text
          = ⟨if check.report.isValid then 0 else 1, check.text ++ "\n", ""⟩)
      ∧ ∀ cause, Check.run (options.settings format) text = .error cause →
          (answerProgram options text).status = 1 := by
  by_cases hempty : (Text.trimmed text).isEmpty
  · -- A blank text writes the empty program, so its check fails too.
    have hrun : Check.run (options.settings format) text = .error .empty := by
      rw [← Check.run_trimmed, String.isEmpty_iff.mp hempty]
      rfl
    have hanswer : answerProgram options text = fail "empty bytecode" none := by
      rw [answerProgram, if_pos hempty]
    constructor
    · intro check hcheck
      rw [hrun] at hcheck
      cases hcheck
    · intro cause _
      rw [hanswer]
      rfl
  · constructor
    · intro check hcheck
      rw [← Check.run_trimmed] at hcheck
      simp only [answerProgram, if_neg hempty, hformat, hcheck]
    · intro cause hcause
      rw [← Check.run_trimmed] at hcause
      simp only [answerProgram, if_neg hempty, hformat, hcause, fail]

/-- The exit status is zero for the texts whose check accepts the program. -/
theorem status_answerProgram {options : Options} {format : Format} (text : String)
    (hformat : Format.parse (options.format.getD "text") = .ok format) :
    (answerProgram options text).status = 0
      ↔ ∃ check, Check.run (options.settings format) text = .ok check
          ∧ check.report.isValid = true := by
  obtain ⟨hok, herror⟩ := answerProgram_eq text hformat
  cases hrun : Check.run (options.settings format) text with
  | ok check =>
    rw [hok check hrun]
    simp
  | error cause =>
    rw [herror cause hrun]
    simp

end CommandLine

/-! ### The gate -/

namespace Check

open Buffer CommandLine

/-- What checking a text comes to, from its characters to the exit status. -/
structure Gate (settings : Settings) (text : String) : Prop where
  /-- A check succeeds for the texts that write a program of at least one byte and no more than
  are allowed. -/
  succeeds : (∃ check, run settings text = .ok check)
    ↔ ∃ program : Array UInt8, Writes text.toList program.toList ∧ 1 ≤ program.size
        ∧ program.size ≤ settings.limit
  /-- The report is on the program written, at the fork asked for. -/
  report : ∀ check (program : Array UInt8), run settings text = .ok check →
    Writes text.toList program.toList →
      check.report.fork = settings.fork ∧ check.report.codeSize = program.size
        ∧ check.report.verdict = .ofResult (Code.ofBytes program settings.fork).validate
  /-- A report on a rejected program lists nothing. -/
  rejected : ∀ check, run settings text = .ok check → check.report.isValid = false →
    check.report.blockEntries = [] ∧ check.report.routines = 0
  /-- Neither the format nor the colour has a say in the report or the failure. -/
  rendering : ∀ format color, (run { settings with format, color } text).map Check.report
    = (run settings text).map Check.report
  /-- A text is refused as no digits if it writes nothing. -/
  notHex : (∃ quoted, run settings text = .error (.notHex quoted))
    ↔ ∀ program : Array UInt8, ¬ Writes text.toList program.toList
  /-- It is refused as too large if it writes more than is allowed. -/
  tooLarge : ∀ size limit, run settings text = .error (.tooLarge size limit)
    ↔ limit = settings.limit ∧ limit < size
        ∧ ∃ program : Array UInt8, Writes text.toList program.toList ∧ program.size = size
  /-- It is refused as empty if it writes the empty program. -/
  empty : run settings text = .error .empty ↔ Writes text.toList []
  /-- The command line answers alike wherever it gets the text from, and its status is zero for
  the programs accepted. -/
  commandLine : ∀ options format, Format.parse (options.format.getD "text") = .ok format →
    options.settings format = settings →
      ∃ given : Answer,
        (∀ surroundings arguments, Gives surroundings arguments options text →
          answer surroundings arguments = given)
        ∧ (given.status = 0
            ↔ ∃ check, run settings text = .ok check ∧ check.report.isValid = true)

theorem accepts_exactly (settings : Settings) (text : String) : Gate settings text := by
  have houtcome := outcome settings text
  constructor
  case succeeds =>
    constructor
    · rintro ⟨check, hcheck⟩
      rw [hcheck] at houtcome
      cases houtcome with
      | checked program hwrites hone hfits => exact ⟨program, hwrites, hone, hfits⟩
    · rintro ⟨program, hwrites, hone, hfits⟩
      have hempty : ¬ program.isEmpty := by
        simp only [Array.isEmpty_iff_size_eq_zero]
        omega
      rw [run_of_writes settings hwrites, if_neg (by omega), if_neg hempty]
      exact ⟨_, rfl⟩
  case report =>
    intro check program hcheck hwrites
    rw [hcheck] at houtcome
    cases houtcome with
    | checked program' hwrites' =>
      obtain rfl := hwrites.unique hwrites'
      exact Report.ofResult_describes (Code.ofBytes program settings.fork) _
  case rejected =>
    intro check hcheck hinvalid
    rw [hcheck] at houtcome
    cases houtcome with
    | checked => exact Report.ofResult_of_not_isValid hinvalid
  case rendering =>
    intro format color
    simp only [run]
    cases loadProgram settings.limit text <;> rfl
  case notHex =>
    constructor
    · rintro ⟨quoted, hquoted⟩
      rw [hquoted] at houtcome
      cases houtcome with
      | notHex _ hno => exact hno
    · exact run_of_not_writes settings
  case tooLarge =>
    intro size limit
    constructor
    · intro hrun
      rw [hrun] at houtcome
      cases houtcome with
      | tooLarge program hwrites hlarge => exact ⟨rfl, hlarge, program, hwrites, rfl⟩
    · rintro ⟨rfl, hlarge, program, hwrites, rfl⟩
      rw [run_of_writes settings hwrites, if_pos hlarge]
  case empty =>
    constructor
    · intro hrun
      rw [hrun] at houtcome
      cases houtcome with
      | empty hwrites => exact hwrites
    · intro hwrites
      rw [@run_of_writes settings text #[] hwrites, if_neg (by simp), if_pos (by rfl)]
  case commandLine =>
    rintro options format hformat rfl
    exact ⟨answerProgram options text, fun _ _ hgives => answer_of_gives hgives,
      status_answerProgram text hformat⟩

/-- A program of one `stop`, as an argument, in a file and on the standard input. -/
theorem accepts_exactly_stop :
    let text := " 0x00\n"
    let aside : Surroundings := ⟨fun _ => .ok text.toUTF8, text.toUTF8⟩
    (answer aside [text]).status = 0
      ∧ answer aside ["--file", "program"] = answer aside [text]
      ∧ answer aside [] = answer aside [text] := by
  intro text aside
  have hgate := accepts_exactly (({} : Options).settings .text) text
  have hwrites : Writes text.toList [0x00] :=
    ⟨[' '], ['0', 'x'], "00\n".toList, by decide, List.forall_mem_singleton.mpr (by decide),
      by simp [marks],
      .cons (h := 0) (l := 0) (by decide) (by decide) .nil⟩
  obtain ⟨check, hcheck⟩ := hgate.succeeds.mpr ⟨#[0x00], hwrites, by decide, by decide⟩
  obtain ⟨-, -, hverdict⟩ := hgate.report check #[0x00] hcheck hwrites
  have hvalid : check.report.isValid = true := by
    rw [Report.isValid, hverdict]
    decide +kernel
  obtain ⟨given, hsame, hstatus⟩ := hgate.commandLine {} .text (by decide +kernel) rfl
  have hargument := hsame aside [text] (.argument (by decide +kernel))
  have hfile := hsame aside ["--file", "program"] (.file "program" none (by decide +kernel) rfl)
  have hinput := hsame aside [] (.standardInput (by decide +kernel) rfl)
  rw [hargument, hfile, hinput]
  exact ⟨hstatus.mpr ⟨check, hcheck, hvalid⟩, rfl, rfl⟩

end Check

end EvmSafety
