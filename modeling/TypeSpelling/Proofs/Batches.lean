import Mathlib.Data.List.TakeWhile
import TypeSpelling.CommandLine.Run
import TypeSpelling.Proofs.Embedding
import TypeSpelling.Proofs.Margins
import TypeSpelling.Proofs.Stages

/-!
# Batches of expressions

A run prints of each expression what it prints of this expression alone, in order, and it
fails if one of them makes it fail.  The expressions may come as arguments or on the lines
of the standard input.  A line may lose a carriage return that an argument keeps, but blanks
behind an expression are no part of it, so what is printed is the same.
-/

namespace TypeSpelling

/-! ## Lines -/

namespace Text

theorem splitChars_of_not_mem {separator : Char} {part : List Char} (without : separator ∉ part) :
    splitChars separator part = [part] := by
  induction part with
  | nil => rfl
  | cons c rest ih =>
      rw [splitChars, ih (List.not_mem_of_not_mem_cons without)]
      exact if_neg (Ne.symm (List.ne_of_not_mem_cons without))

theorem splitChars_append_cons {separator : Char} {part : List Char} (without : separator ∉ part)
    (rest : List Char) :
    splitChars separator (part ++ separator :: rest) = part :: splitChars separator rest := by
  induction part with
  | nil =>
      obtain ⟨next, others, split⟩ :=
        List.exists_cons_of_ne_nil (splitChars_ne_nil separator rest)
      rw [List.nil_append, splitChars, split]
      exact if_pos rfl
  | cons c part ih =>
      rw [List.cons_append, splitChars, ih (List.not_mem_of_not_mem_cons without)]
      exact if_neg (Ne.symm (List.ne_of_not_mem_cons without))

theorem linesOfParts_cons (line : List Char) {others : List (List Char)} (some : others ≠ []) :
    linesOfParts (line :: others) = dropCarriageReturn line :: linesOfParts others := by
  obtain ⟨next, others, rfl⟩ := List.exists_cons_of_ne_nil some
  rfl

theorem dropCarriageReturn_cases (chars : List Char) :
    chars = dropCarriageReturn chars ∨ chars = dropCarriageReturn chars ++ ['\r'] := by
  fun_induction dropCarriageReturn chars with
  | case1 => exact .inl rfl
  | case2 => exact .inr rfl
  | case3 => exact .inl rfl
  | case4 c rest some ih =>
      exact ih.imp (congrArg (c :: ·)) (congrArg (c :: ·))

theorem dropCarriageReturn_append (chars : List Char) :
    dropCarriageReturn (chars ++ ['\r']) = chars := by
  induction chars with
  | nil => rfl
  | cons c rest ih =>
      rw [List.cons_append, dropCarriageReturn, ih]
      simp

end Text

/-! ## Blanks behind a text -/

namespace Source

open TypeSpelling.Peg
open TypeSpelling.Text
open Nesting

theorem Blanks.white (blanks : Blanks) : ∀ c ∈ blanks.chars, isWhiteSpace c = true :=
  fun c mem => isWhiteSpace_of_isBlank (blanks.blank c mem)

/-- Blanks at the end of a text stand behind its last character that is none. -/
theorem Blanks.exists_append_of_append {text front behind : List Char} {last : Char}
    (blanks : Blanks) (solid : isWhiteSpace last = false)
    (whole : text ++ blanks.chars = front ++ last :: behind) :
    ∃ between, text = front ++ last :: between ∧ behind = between ++ blanks.chars := by
  have apart : last ∉ blanks.chars := by
    intro mem
    rw [blanks.white last mem] at solid
    cases solid
  rcases List.append_eq_append_iff.mp whole with ⟨more, -, others⟩ | ⟨more, rfl, others⟩
  · exact absurd (by simp [others]) apart
  · cases more with
    | nil =>
        rw [List.nil_append] at others
        exact absurd (by simp [← others]) apart
    | cons first between =>
        obtain ⟨rfl, rest⟩ := List.cons.inj others
        exact ⟨between, rfl, rest⟩

/-- A text is read as before when there are further blanks behind it. -/
theorem readsAsExpression_append_iff {source : String} {tree : TypeExpr} (blanks : Blanks) :
    ReadsAsExpression (source ++ String.ofList blanks.chars) tree ↔
      ReadsAsExpression source tree := by
  constructor
  · -- The last solid character of the phrase stands in the text, not in the blanks.
    rintro ⟨before, _, ⟨phrase, rfl, faultless, trees⟩, whole⟩
    obtain ⟨_, behind, split, ⟨front, last, rfl, solid⟩, composes⟩ := phrase.ends faultless
    have ending : source.toList ++ blanks.chars =
        before.chars ++ front ++ last :: behind.chars := by
      simpa [split] using whole
    obtain ⟨between, kept, rest⟩ := blanks.exists_append_of_append solid ending
    have blank : ∀ c ∈ between, isBlank c = true := fun c mem =>
      behind.blank c (rest ▸ List.mem_append_left _ mem)
    exact ⟨before, _, trees ▸ composes ⟨between, blank⟩, by simp [kept]⟩
  · rintro ⟨before, _, ⟨phrase, rfl, faultless, trees⟩, whole⟩
    obtain ⟨core, behind, split, -, composes⟩ := phrase.ends faultless
    refine ⟨before, core ++ (behind.append blanks).chars, trees ▸ composes _, ?_⟩
    simp [whole, split, Blanks.append]

/-- Blanks behind a text that is read do not nest. -/
theorem ReadsAsExpression.nestingOf_append {source : String} {tree : TypeExpr}
    (reads : ReadsAsExpression source tree) (blanks : Blanks) :
    nestingOf (source.toList ++ blanks.chars) = nestingOf source.toList := by
  obtain ⟨depth, -, -, reaches⟩ := reads.counts Nesting.start rfl
  have nothing := startsWithout_nil isNameChar
  have alone := reaches [] nothing
  have followed := reaches (blanks.chars ++ []) (blanks.stops_append nothing)
  rw [reach_blanks, ← alone] at followed
  simpa only [nestingOf, List.append_nil] using followed

theorem parse_append_iff {source : String} {tree : TypeExpr} (blanks : Blanks) :
    parse (source ++ String.ofList blanks.chars) = .ok tree ↔ parse source = .ok tree := by
  rw [parse, parse, parseWithin_eq_ok_iff_nestingOf, parseWithin_eq_ok_iff_nestingOf,
    readsAsExpression_append_iff, String.toList_append, String.toList_ofList]
  exact and_congr_left fun reads => by rw [reads.nestingOf_append]

end Source

open Source

namespace Text

theorem trim_append (source : String) (blanks : Blanks) :
    trim (source ++ String.ofList blanks.chars) = trim source := by
  rw [trim, trim, String.toList_append, String.toList_ofList, List.dropWhile_append]
  split
  · rename_i nothing
    rw [List.isEmpty_iff.mp nothing, List.dropWhile_eq_nil_iff.mpr blanks.white]
  · rw [trimEndChars_append blanks.white]

theorem isBlankLine_append (source : String) (blanks : Blanks) :
    isBlankLine (source ++ String.ofList blanks.chars) = isBlankLine source := by
  rw [isBlankLine, isBlankLine, String.toList_append, String.toList_ofList, List.all_append,
    List.all_eq_true.mpr blanks.white, Bool.and_true]

end Text

/-- A text has the same canonical tree when there are further blanks behind it. -/
theorem AliasTable.normalized_append_iff {table : AliasTable} {source : String} {tree : TypeExpr}
    (blanks : Blanks) :
    table.normalized (source ++ String.ofList blanks.chars) = .ok tree ↔
      table.normalized source = .ok tree := by
  simp only [normalized_eq_ok_iff, parse_append_iff]

/-! ## Outcomes -/

namespace CommandLine

open TypeSpelling.Text

namespace Outcome

variable {mode : Mode} {source other : String}

theorem output_eq_of_trim (same : Text.trim source = Text.trim other) (outcome : Outcome) :
    outcome.output source = outcome.output other := by
  cases outcome with
  | notMinimal text => rw [output, output, same]
  | printed | silent | failed => rfl

/-- Texts with one canonical tree and one trimmed form have one outcome. -/
theorem ofExpression_of_normalized {tree : TypeExpr}
    (normalized : AliasTable.standard.normalized source = .ok tree)
    (also : AliasTable.standard.normalized other = .ok tree)
    (same : Text.trim source = Text.trim other) :
    ofExpression mode source = ofExpression mode other := by
  cases mode with
  | canonicalize =>
      rw [ofExpression, ofExpression, AliasTable.canonicalize, AliasTable.canonicalize,
        normalized, also]
  | shorten | check =>
      rw [ofExpression, ofExpression, AliasTable.shorten, AliasTable.shorten, normalized, also,
        same]
  | validate =>
      rw [ofExpression, ofExpression, AliasTable.validate, AliasTable.validate, normalized, also]

theorem ofExpression_of_error {error : SpellingError}
    (failure : AliasTable.standard.normalized source = .error error) :
    ofExpression mode source = .failed error := by
  cases mode with
  | canonicalize => rw [ofExpression, AliasTable.canonicalize_of_error failure]
  | shorten | check => rw [ofExpression, AliasTable.shorten_of_error failure]
  | validate => rw [ofExpression, AliasTable.validate_of_error failure]

/-- What of an expression is seen in the output and in the exit status. -/
def seen (mode : Mode) (source : String) : String × Bool :=
  let outcome := ofExpression mode source
  (outcome.output source, outcome.isFailure)

/-- Blanks behind an expression are not seen. -/
theorem seen_append (mode : Mode) (source : String) (blanks : Blanks) :
    seen mode (source ++ String.ofList blanks.chars) = seen mode source := by
  cases normalized : AliasTable.standard.normalized source with
  | ok tree =>
      have longer := (AliasTable.normalized_append_iff blanks).mpr normalized
      have same := Text.trim_append source blanks
      rw [seen, seen, ofExpression_of_normalized longer normalized same, output_eq_of_trim same]
  | error error =>
      cases longer : AliasTable.standard.normalized (source ++ String.ofList blanks.chars) with
      | ok tree =>
          rw [(AliasTable.normalized_append_iff blanks).mp longer] at normalized
          cases normalized
      | error other =>
          -- The errors may differ, but nothing is printed about either.
          rw [seen, seen, ofExpression_of_error longer, ofExpression_of_error normalized]
          rfl

end Outcome

open Outcome

theorem processAll_output (mode : Mode) (sources : List String) :
    (processAll mode sources).output =
      String.join ((sources.map (seen mode)).map Prod.fst) := by
  simp only [processAll, List.map_map]
  rfl

theorem processAll_exitCode (mode : Mode) (sources : List String) :
    (processAll mode sources).exitCode =
      if (sources.map (seen mode)).any Prod.snd then 1 else 0 := by
  simp only [processAll, List.any_map]
  rfl

theorem processAll_singleton_output (mode : Mode) (source : String) :
    (processAll mode [source]).output = (seen mode source).1 := by
  rw [processAll_output]
  exact String.empty_append

theorem processAll_singleton_exitCode (mode : Mode) (source : String) :
    (processAll mode [source]).exitCode = 1 ↔ (seen mode source).2 = true := by
  rw [processAll_exitCode, List.map_singleton, List.any_cons, List.any_nil, Bool.or_false]
  cases (seen mode source).2 <;> decide

/-! ## Lines with expressions -/

/-- Texts stand on the lines of an input, one on each.  A line ends in a line feed, perhaps
with a carriage return in front of it, and the last line may end with the input. -/
inductive OnLines : List String → List Char → Prop where
  | nil : OnLines [] []
  | last (text : String) : OnLines [text] text.toList
  | line (text : String) {ending : List Char} (ends : ending = ['\n'] ∨ ending = ['\r', '\n'])
      {others : List String} {input : List Char} (rest : OnLines others input) :
      OnLines (text :: others) (text.toList ++ (ending ++ input))

/-- What is read of a line that holds a text lacks blanks at the end at most. -/
theorem exists_line {text : String} (single : '\n' ∉ text.toList) {ending : List Char}
    (ends : ending = ['\n'] ∨ ending = ['\r', '\n']) (input : List Char) :
    ∃ (line : String) (blanks : Blanks), text = line ++ String.ofList blanks.chars ∧
      linesOfParts (splitChars '\n' (text.toList ++ (ending ++ input))) =
        line.toList :: linesOfParts (splitChars '\n' input) := by
  have others := splitChars_ne_nil '\n' input
  rcases ends with rfl | rfl
  · rw [List.singleton_append, splitChars_append_cons single, linesOfParts_cons _ others]
    rcases dropCarriageReturn_cases text.toList with kept | dropped
    · exact ⟨text, .none, by simp [Blanks.none], by rw [← kept]⟩
    · refine ⟨String.ofList (dropCarriageReturn text.toList),
        ⟨['\r'], List.forall_mem_singleton.mpr (by decide)⟩, ?_, ?_⟩
      · rw [← String.ofList_append, ← dropped, String.ofList_toList]
      · rw [String.toList_ofList]
  · -- Only one carriage return is dropped, so the text keeps its own.
    have both : text.toList ++ (['\r', '\n'] ++ input) =
        (text.toList ++ ['\r']) ++ '\n' :: input := by simp
    rw [both, splitChars_append_cons (by simpa using single), linesOfParts_cons _ others,
      dropCarriageReturn_append]
    exact ⟨text, .none, by simp [Blanks.none], rfl⟩

/-- The expressions on the lines of an input are seen like the texts that stand there. -/
theorem map_seen_expressionsOf (mode : Mode) {sources : List String} {input : List Char}
    (onLines : OnLines sources input)
    (plain : ∀ source ∈ sources, isBlankLine source = false ∧ '\n' ∉ source.toList) :
    (expressionsOf (String.ofList input)).map (seen mode) = sources.map (seen mode) := by
  rw [expressionsOf, lines, String.toList_ofList]
  induction onLines with
  | nil => rfl
  | last text =>
      obtain ⟨filled, single⟩ := List.forall_mem_singleton.mp plain
      have some : text.toList ≠ [] := by
        intro nothing
        rw [isBlankLine, nothing] at filled
        cases filled
      rw [splitChars_of_not_mem single, linesOfParts, if_neg (by simpa using some),
        List.map_singleton, String.ofList_toList, List.filter_cons_of_pos (by simp [filled]),
        List.filter_nil]
  | @line text ending ends others input rest ih =>
      obtain ⟨⟨filled, single⟩, othersPlain⟩ := List.forall_mem_cons.mp plain
      obtain ⟨line, blanks, rfl, lines⟩ := exists_line single ends input
      rw [isBlankLine_append] at filled
      rw [lines, List.map_cons, String.ofList_toList, List.filter_cons_of_pos (by simp [filled]),
        List.map_cons, List.map_cons, ih othersPlain, seen_append]

/-! ## Arguments -/

/-- The option that asks for a mode. -/
def Mode.arguments : Mode → List String
  | .canonicalize => []
  | .shorten => ["--shorten"]
  | .check => ["--check"]
  | .validate => ["--validate"]

theorem ofOption_ne_expressionsFollow (name : String) (attached? : Option String) :
    Argument.ofOption name attached? ≠ .expressionsFollow := by
  unfold Argument.ofOption
  split <;> exact Argument.noConfusion

theorem eq_of_classify {argument : String}
    (follow : Argument.classify argument = .expressionsFollow) : argument = "--" := by
  unfold Argument.classify at follow
  split at follow
  · rename_i chars
    exact String.toList_inj.mp chars
  · exact absurd follow (ofOption_ne_expressionsFollow _ _)
  all_goals cases follow

theorem Options.finish_append {options asked : Options} {mode : Mode}
    (asks : options.finish = .process mode asked) (sources : List String) :
    finish { options with expressions := options.expressions ++ sources } =
      .process mode { asked with expressions := asked.expressions ++ sources } := by
  obtain ⟨modes, plainReports, logFilter?, expressions⟩ := options
  cases modes with
  | nil =>
      cases asks
      rfl
  | cons first others =>
      cases others with
      | nil =>
          cases asks
          rfl
      | cons second more => cases asks

/-- Behind options that ask for a mode, `--` makes everything an expression. -/
theorem Options.read_append {arguments : List String} {options asked : Options} {mode : Mode}
    (apart : "--" ∉ arguments) (asks : options.read arguments = .process mode asked)
    (sources : List String) :
    options.read (arguments ++ "--" :: sources) =
      .process mode { asked with expressions := asked.expressions ++ sources } := by
  fun_induction Options.read options arguments with
  | case1 options =>
      have follow : Argument.classify "--" = .expressionsFollow := rfl
      rw [List.nil_append, read.eq_def]
      dsimp only
      rw [follow]
      exact finish_append asks sources
  | case2 | case4 | case6 | case8 | case9 | case11 | case12 | case15 => cases asks
  | case3 options argument rest mode kind fresh ih
  | case5 options argument rest kind fresh ih
  | case7 options argument rest value kind fresh ih =>
      rw [List.cons_append, read.eq_def]
      dsimp only
      rw [kind]
      dsimp only
      rw [if_neg fresh]
      exact ih (List.not_mem_of_not_mem_cons apart) asks
  | case10 options argument kind value rest fresh ih =>
      rw [List.cons_append, List.cons_append, read.eq_def]
      dsimp only
      rw [kind]
      dsimp only
      rw [if_neg fresh]
      exact ih (List.not_mem_of_not_mem_cons (List.not_mem_of_not_mem_cons apart)) asks
  | case13 options argument rest kind =>
      exact absurd (List.mem_cons.mpr (.inl (eq_of_classify kind).symm)) apart
  | case14 options argument rest kind ih =>
      rw [List.cons_append, read.eq_def]
      dsimp only
      rw [kind]
      exact ih (List.not_mem_of_not_mem_cons apart) asks

/-- Behind options that are accepted, a run processes what stands behind `--` too. -/
theorem run_append {arguments : List String} {options : Options} {mode : Mode}
    (apart : "--" ∉ arguments) (asks : Request.ofArguments arguments = .process mode options)
    (accepted : options.logFilter?.forM checkLogFilter = .ok ()) {sources : List String}
    (some : sources ≠ []) (input : String) :
    run (arguments ++ "--" :: sources) input =
      processAll mode (options.expressions ++ sources) := by
  have nonempty : (options.expressions ++ sources).isEmpty = false := by simp [some]
  have reading : Request.ofArguments (arguments ++ "--" :: sources) = _ :=
    Options.read_append apart asks sources
  rw [run, reading]
  dsimp only
  rw [accepted, nonempty]
  rfl

theorem ofArguments_arguments (mode : Mode) : ∃ options,
    Request.ofArguments mode.arguments = .process mode options ∧ options.expressions = [] ∧
      options.logFilter?.forM checkLogFilter = .ok () := by
  cases mode <;> exact ⟨_, rfl, rfl, rfl⟩

theorem run_arguments (mode : Mode) (input : String) :
    run mode.arguments input = processAll mode (expressionsOf input) := by
  obtain ⟨options, asks, nothing, accepted⟩ := ofArguments_arguments mode
  rw [run, asks]
  dsimp only
  rw [accepted, nothing]
  rfl

theorem run_expressions (mode : Mode) {sources : List String} (some : sources ≠ [])
    (input : String) : run (mode.arguments ++ "--" :: sources) input = processAll mode sources := by
  obtain ⟨options, asks, nothing, accepted⟩ := ofArguments_arguments mode
  have apart : "--" ∉ mode.arguments := by cases mode <;> decide
  rw [run_append apart asks accepted some, nothing, List.nil_append]

/-! ## Runs -/

/-- Whatever expressions stand behind `--`, a run prints what a run with each of them alone
prints, in order, and it fails exactly if one of these runs fails.  If none of them is blank
or contains a line feed, they may as well stand on the lines of the standard input. -/
theorem run_batch (mode : Mode) {sources : List String} (some : sources ≠ []) (input : String)
    (ownInput : String → String) :
    let batch := run (mode.arguments ++ "--" :: sources) input
    let alone := fun source => run (mode.arguments ++ ["--", source]) (ownInput source)
    batch.output = String.join (sources.map fun source => (alone source).output) ∧
      batch.exitCode = (if ∃ source ∈ sources, (alone source).exitCode = 1 then 1 else 0) ∧
      ((∀ source ∈ sources, isBlankLine source = false ∧ '\n' ∉ source.toList) →
        ∀ lines : String, OnLines sources lines.toList →
          (run mode.arguments lines).output = batch.output ∧
            (run mode.arguments lines).exitCode = batch.exitCode) := by
  have run_alone : ∀ source, run (mode.arguments ++ ["--", source]) (ownInput source) =
      processAll mode [source] := fun source =>
    run_expressions mode (List.cons_ne_nil source []) _
  intro batch alone
  simp only [batch, alone, run_expressions mode some, run_alone, run_arguments]
  refine ⟨?_, ?_, fun plain lines onLines => ?_⟩
  · simp only [processAll_singleton_output]
    rw [processAll_output, List.map_map]
    rfl
  · simp only [processAll_singleton_exitCode]
    rw [processAll_exitCode]
    exact if_congr (by simp) rfl rfl
  · have same := map_seen_expressionsOf mode onLines plain
    rw [String.ofList_toList] at same
    rw [processAll_output, processAll_output, processAll_exitCode, processAll_exitCode, same]
    exact ⟨rfl, rfl⟩

/-- The texts report a shorter spelling, nothing, an error and again nothing, and their lines
end in three ways. -/
theorem run_batch_of_mixed :
    let sources := ["typing.List[int]", " int\r", "dict[str]", "[int]\r"]
    let lines := "typing.List[int]\r\n int\r\ndict[str]\n[int]\r"
    sources ≠ [] ∧
      (∀ source ∈ sources, isBlankLine source = false ∧ '\n' ∉ source.toList) ∧
      OnLines sources lines.toList ∧
      (run ("--check" :: "--" :: sources) "").output = "typing.List[int]: [int]\n" ∧
      (run ("--check" :: "--" :: sources) "").exitCode = 1 ∧
      (run ["--check"] lines).output = "typing.List[int]: [int]\n" ∧
      (run ["--check"] lines).exitCode = 1 := by
  intro sources lines
  have some : sources ≠ [] := List.cons_ne_nil _ _
  have plain : ∀ source ∈ sources, isBlankLine source = false ∧ '\n' ∉ source.toList := by
    decide +kernel
  have written : lines.toList = "typing.List[int]".toList ++ (['\r', '\n'] ++
      (" int\r".toList ++ (['\n'] ++ ("dict[str]".toList ++ (['\n'] ++ "[int]\r".toList))))) := by
    decide +kernel
  have onLines : OnLines sources lines.toList :=
    written ▸ .line "typing.List[int]" (.inr rfl) (.line " int\r" (.inl rfl)
      (.line "dict[str]" (.inl rfl) (.last "[int]\r")))
  obtain ⟨output, exitCode, fromLines⟩ := run_batch .check some "" fun _ => ""
  obtain ⟨sameOutput, sameExitCode⟩ := fromLines plain lines onLines
  have printed : (run ("--check" :: "--" :: sources) "").output = "typing.List[int]: [int]\n" :=
    output.trans (by decide +kernel)
  have fails : (run ("--check" :: "--" :: sources) "").exitCode = 1 :=
    exitCode.trans (if_pos ⟨"dict[str]", by simp [sources], by decide +kernel⟩)
  exact ⟨some, plain, onLines, printed, fails, sameOutput.trans printed, sameExitCode.trans fails⟩

end CommandLine

end TypeSpelling
