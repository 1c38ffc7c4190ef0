import Vee.Proofs.Code.Sections
import Vee.Proofs.Command.Files
import Vee.Proofs.Parsing.Origin
import Vee.Proofs.Text.Assembly
import Vee.Proofs.Text.TokenFile

/-! # Stages with files between them

A source text can be compiled at once, or stage by stage with the outcome of each stage written to a file and read
back by the next. Both give the same errors or the same program, and the commands that do so show the same.
-/

namespace Vee

set_option autoImplicit false

/-! ## Names of sections -/

theorem Listing.exists_declaration_of_section {statements : List Stmt} {listing : Listing}
    (h : Listing.ofStatements statements = .ok listing) {s : Nat × String} (hMem : s ∈ listing.sections) :
    ∃ d ∈ Stmt.blockDeclarations statements, d.name = s.2 := by
  obtain ⟨hErrors, d, main, ps, hDraft, hFunctions, -, rfl⟩ := Listing.exists_draft h
  rw [hDraft.sections] at hMem
  obtain ⟨p, hPlaced, rfl⟩ := List.mem_map.mp hMem
  have hDeclared := Functions.declarations_declareBlock hErrors
  rw [List.map_nil, List.nil_append, ← hFunctions] at hDeclared
  refine ⟨p.function.declaration, ?_, rfl⟩
  rw [← hDeclared]
  exact List.mem_map_of_mem (List.mem_map_of_mem hPlaced)

namespace Toolchain

theorem exists_assemble {source : String} {tokens : List Token} {statements : List Stmt} {l : Listing}
    (hLex : Token.lex source = .ok tokens) (hParse : parse tokens = .ok statements)
    (hListing : listing statements = .ok l) :
    ∃ program, l.toProgram = .ok program ∧ assemble l.text = .ok program := by
  have hGenerated := Effect.eq_ok_of_mapError hListing
  obtain ⟨program, -, hProgram, -⟩ := Listing.exists_layout hGenerated
  have hNames : ∀ s ∈ l.sections, '\n' ∉ s.2.toList := by
    intro s hMem
    obtain ⟨d, hDeclared, hName⟩ := Listing.exists_declaration_of_section hGenerated hMem
    obtain ⟨t, hToken, hText⟩ := namedBy_parse hParse d hDeclared
    rw [← hName, ← hText]
    exact Text.not_mem_of_solid (Token.solid_of_lex hLex t hToken) rfl
  refine ⟨program, hProgram, ?_⟩
  rw [assemble, (Listing.assemble_text_iff hNames).mpr hProgram]
  rfl

/-! ## Texts between the stages -/

/-- The token file of a source text. -/
def tokenText (source : String) : Except (List Diagnostic) String := do
  return Token.writeAll (← (Token.lex source).mapError fun e => [e.diagnostic])

/-- The listing of a token file. -/
def listingText (text : String) : Except (List Diagnostic) String := do
  let tokens ← (Token.readAll text).mapError fun e => [e.diagnostic]
  let statements ← (parse tokens).mapError fun d => [d]
  return (← listing statements).text

/-- The program of an assembly text, written in decimal. -/
def programText (text : String) : Except (List Diagnostic) String := do
  return (← assemble text).text

/-- The program of a source text, where each stage reads the text that the one before has written. -/
def staged (source : String) : Except (List Diagnostic) Program := do
  let program ← programText (← listingText (← tokenText source))
  (Program.ofText program).mapError fun e => [e.diagnostic]

theorem listingText_writeAll {source : String} {tokens : List Token} (hLex : Token.lex source = .ok tokens) :
    listingText (Token.writeAll tokens) = (compileListing source).map Listing.text := by
  rw [listingText, Token.readAll_writeAll (Token.clean_of_lex hLex), compileListing, parseSource, hLex]
  cases hParse : parse tokens with
  | error d =>
    simp only [Except.mapError, bind, Except.bind, hParse]
    rfl
  | ok statements =>
    simp only [Except.mapError, bind, Except.bind, hParse]
    cases listing statements <;> rfl

theorem exists_program {source : String} {l : Listing} (h : compileListing source = .ok l) :
    ∃ program, l.toProgram = .ok program ∧ assemble l.text = .ok program := by
  obtain ⟨statements, hStatements, hListing⟩ := Effect.exists_of_except_bind h
  obtain ⟨tokens, hLex, hParse⟩ := Effect.exists_of_except_bind (Effect.eq_ok_of_mapError hStatements)
  exact exists_assemble (Effect.eq_ok_of_mapError hLex) hParse hListing

theorem staged_eq_compile (source : String) : staged source = compile source := by
  cases hLex : Token.lex source with
  | error e =>
    simp only [staged, tokenText, compile, compileListing, parseSource, hLex]
    rfl
  | ok tokens =>
    have hTokens : tokenText source = .ok (Token.writeAll tokens) := by
      rw [tokenText, hLex]
      rfl
    rw [staged, hTokens, compile]
    simp only [bind, Except.bind, listingText_writeAll hLex]
    cases hListing : compileListing source with
    | error ds => rfl
    | ok l =>
      obtain ⟨program, -, hAssemble⟩ := exists_program hListing
      simp only [Except.map, programText, hAssemble, bind, Except.bind, pure, Except.pure, Program.ofText_text]
      rfl

end Toolchain

namespace Command

open Toolchain (tokenText listingText programText compile)

/-! ## Commands in a folder -/

/-- What a command ends with in a folder, and the folder behind it. -/
def after {α : Type} (x : Steps (StateM Folder) α) (s : Folder) : Except (List Diagnostic) α × Folder := x.run s

section

variable {α β : Type} {x : Steps (StateM Folder) α} {f : α → Steps (StateM Folder) β} {s t : Folder}

theorem after_bind (x : Steps (StateM Folder) α) (f : α → Steps (StateM Folder) β) (s : Folder) :
    after (x >>= f) s =
      match after x s with
      | (.ok a, t) => after (f a) t
      | (.error ds, t) => (.error ds, t) := by
  change (match after x s with | (r, t) => (ExceptT.bindCont f r) t) = _
  cases after x s with
  | mk r t => cases r <;> rfl

theorem after_lift (x : StateM Folder α) (s : Folder) : after (liftM x) s = (.ok (x s).1, (x s).2) := rfl

theorem after_listed (x : Except (List Diagnostic) α) (s : Folder) : after (listed x) s = (x, s) := by
  cases x <;> rfl

theorem after_single {ε : Type} (f : ε → Diagnostic) (x : Except ε α) (s : Folder) :
    after (single f x) s = (x.mapError fun e => [f e], s) := by
  cases x <;> rfl

end

section

variable {path text : String} {s t : Folder}

theorem after_readInput (h : s.readText path = .ok text) :
    after (liftM (readInput path : StateM Folder (Except Diagnostic String))) s = (.ok (.ok text), s) := by
  change (Except.ok (((s.readText path).mapError FileError.text).mapError _), s) = _
  rw [h]
  rfl

theorem after_readSource (h : s.readText path = .ok text) : after (readSource path) s = (.ok text, s) := by
  rw [readSource, after_bind, after_readInput h]
  rfl

theorem after_write (h : s.writeText path text = .ok t) : after (write false path text) s = (.ok (), t) := by
  have hWrite : (Host.writeText path text : StateM Folder (Except String Unit)) s = (.ok (), t) := by
    simp only [Host.writeText, bind, StateT.bind, get, getThe, MonadStateOf.get, StateT.get, pure, h]
    rfl
  rw [write, after_bind, show after (liftM _) s = (.ok (), s) from rfl]
  simp only [after_bind, after_lift, hWrite]
  rfl

theorem after_generate (statements : List Stmt) (s : Folder) :
    after (generate false statements) s = (Toolchain.listing statements, s) := by
  rw [generate, after_bind, show after (liftM _) s = (.ok (), s) from rfl]
  exact after_listed _ s

end

/-! ## One stage -/

/-- Reads a file, and writes another with what a stage makes of its text. -/
def stage (f : String → Except (List Diagnostic) String) (input output : String) : Steps (StateM Folder) Bool := do
  let text ← listed (f (← readSource input))
  write false output text
  return true

/-- Behind a stage that succeeds the next command finds the text of the stage in its file. -/
theorem after_stage {f : String → Except (List Diagnostic) String} {input output text : String} {s : Folder}
    (hInput : s.readText input = .ok text) (hOutput : Folder.Faithful output) :
    ∃ t, t.shown = s.shown ∧ (∀ out, f text = .ok out → t.readText output = .ok out) ∧
      after (stage f input output) s = ((f text).map fun _ => true, t) := by
  simp only [stage, after_bind, after_readSource hInput, after_listed]
  cases f text with
  | error ds => exact ⟨s, rfl, nofun, rfl⟩
  | ok out =>
    obtain ⟨t, hWrite, hRead, hShown⟩ := hOutput s out
    refine ⟨t, hShown, ?_, ?_⟩
    · rintro _ ⟨⟩
      exact hRead
    · simp only [after_write hWrite]
      rfl

variable {options : Options} (hTrace : options.trace = false) (slices : Nat)
include hTrace

theorem after_tokenize (input : String) (output : Option String) {s : Folder} {text : String}
    (hInput : s.readText input = .ok text) :
    after (perform options slices (.tokenize input output)) s =
      after (stage tokenText input (output.getD (Path.withExtension input "vlex"))) s := by
  simp only [perform, stage, tokenText, hTrace, after_bind, after_readSource hInput, after_listed, after_single]
  cases Token.lex text <;> rfl

theorem after_parse (input : String) (output : Option String) {s : Folder} {text : String}
    (hInput : s.readText input = .ok text) :
    after (perform options slices (.parse input output false)) s =
      after (stage listingText input (output.getD (Path.withExtension input "vbyt"))) s := by
  simp only [perform, stage, listingText, hTrace, after_bind, after_readSource hInput, after_listed,
    after_single, Bool.false_eq_true, if_false]
  cases Token.readAll text with
  | error e => rfl
  | ok tokens =>
    simp only [Except.mapError, bind, Except.bind]
    cases Toolchain.parse tokens with
    | error d => rfl
    | ok statements =>
      simp only [after_generate]
      cases Toolchain.listing statements <;> rfl

theorem after_assemble (input : String) (output : Option String) {s : Folder} {text : String}
    (hInput : s.readText input = .ok text) :
    after (perform options slices (.assemble input output)) s =
      after (stage programText input (output.getD (Path.withExtension input "vcomp"))) s := by
  simp only [perform, stage, programText, hTrace, after_bind, after_readSource hInput, after_listed]
  cases Toolchain.assemble text <;> rfl

omit hTrace in
theorem after_run (input : String) {s : Folder} {text : String} (hInput : s.readText input = .ok text) :
    after (perform options slices (.run input)) s =
      match (Program.ofText text).mapError fun e => [e.diagnostic] with
      | .ok program => after (execute options slices program) s
      | .error ds => (.error ds, s) := by
  simp only [perform, after_bind, after_readInput hInput, after_single]
  cases Program.ofText text <;> rfl

theorem after_buildRun (input : String) {s : Folder} {source : String} (hInput : s.readText input = .ok source) :
    after (perform options slices (.buildRun input)) s =
      match compile source with
      | .ok program => after (execute options slices program) s
      | .error ds => (.error ds, s) := by
  simp only [perform, hTrace, after_bind, after_readSource hInput, after_single, after_listed, compile,
    Toolchain.compileListing]
  cases Toolchain.parseSource source with
  | error d => rfl
  | ok statements =>
    simp only [Except.mapError, bind, Except.bind, after_generate]
    cases Toolchain.listing statements with
    | error ds => rfl
    | ok l =>
      dsimp only
      cases Toolchain.assemble l.text <;> rfl

/-! ## Runs show the same from folders that show the same -/

/-- The result of an action in a folder, and what is shown behind it. -/
def outcome {α : Type} (x : StateM Folder α) (s : Folder) : α × String × String := ((x s).1, (x s).2.shown)

omit hTrace in
theorem outcome_runMachine {success : Bool} {machine : Machine} {s t : Folder} (h : s.shown = t.shown) :
    outcome (runMachine false slices success machine) s = outcome (runMachine false slices success machine) t := by
  induction slices generalizing success machine s t with
  | zero => exact congrArg (success, ·) h
  | succ n ih =>
    obtain ⟨hOut, hErr⟩ := Prod.ext_iff.mp h
    cases hRun : machine.execute sliceLength with
    | mk event next =>
    simp only [runMachine, hRun]
    cases event with
    | stopped => exact congrArg (success, ·) h
    | running => exact ih h
    | printed text => exact ih (Prod.ext (congrArg (· ++ text) hOut) hErr)
    | failed fault => exact ih (Prod.ext hOut (congrArg (· ++ _) hErr))

theorem outcome_execute {program : Program} {s t : Folder} (h : s.shown = t.shown) :
    outcome (execute options slices program).run s = outcome (execute options slices program).run t := by
  have hRun (s : Folder) : outcome (execute options slices program).run s =
      (outcome (runMachine false slices true (Machine.start program options.limits)) s).map .ok id := by
    rw [execute, hTrace]
    rfl
  rw [hRun, hRun, outcome_runMachine slices h]

/-! ## All stages -/

/-- The commands for the stages one behind another, each on the file that the one before has written. -/
def performStaged (options : Options) (slices : Nat) (input tokens listing program : String) :
    Steps (StateM Folder) Bool := do
  let _ ← perform options slices (.tokenize input (some tokens))
  let _ ← perform options slices (.parse tokens (some listing) false)
  let _ ← perform options slices (.assemble listing (some program))
  perform options slices (.run program)

theorem after_performStaged {input tokens listing program : String} {s : Folder} {source : String}
    (hInput : s.readText input = .ok source) (hTokens : Folder.Faithful tokens) (hListing : Folder.Faithful listing)
    (hProgram : Folder.Faithful program) :
    ∃ t, t.shown = s.shown ∧ after (performStaged options slices input tokens listing program) s =
      match Toolchain.staged source with
      | .ok program => after (execute options slices program) t
      | .error ds => (.error ds, t) := by
  obtain ⟨t, hShown, hRead, hEnd⟩ := after_stage (f := tokenText) hInput hTokens
  rw [performStaged, after_bind, after_tokenize hTrace slices input _ hInput, Option.getD_some, hEnd, Toolchain.staged]
  cases hFirst : tokenText source with
  | error ds => exact ⟨t, hShown, rfl⟩
  | ok first =>
    have hInput := hRead first hFirst
    obtain ⟨u, hShown', hRead, hEnd⟩ := after_stage (f := listingText) hInput hListing
    simp only [Except.map, after_bind, after_parse hTrace slices tokens _ hInput, Option.getD_some, hEnd]
    cases hSecond : listingText first with
    | error ds => exact ⟨u, hShown'.trans hShown, by simp [hSecond, Except.bind, bind]⟩
    | ok second =>
      have hInput := hRead second hSecond
      obtain ⟨v, hShown'', hRead, hEnd⟩ := after_stage (f := programText) hInput hProgram
      simp only [Except.map, after_assemble hTrace slices listing _ hInput, Option.getD_some, hEnd]
      have hShown := hShown''.trans (hShown'.trans hShown)
      cases hThird : programText second with
      | error ds => exact ⟨v, hShown, by simp [hSecond, hThird, Except.bind, bind]⟩
      | ok third =>
        refine ⟨v, hShown, ?_⟩
        simp only [after_run slices program (hRead third hThird), hSecond, hThird, bind, Except.bind]

theorem outcome_performStaged {input tokens listing program : String} {s : Folder} {source : String}
    (hInput : s.readText input = .ok source) (hTokens : Folder.Faithful tokens) (hListing : Folder.Faithful listing)
    (hProgram : Folder.Faithful program) :
    outcome (performStaged options slices input tokens listing program).run s =
      outcome (perform options slices (.buildRun input)).run s := by
  obtain ⟨t, hShown, hEnd⟩ := after_performStaged hTrace slices hInput hTokens hListing hProgram
  have hBuild := after_buildRun hTrace slices input hInput
  rw [Toolchain.staged_eq_compile] at hEnd
  cases hCompile : compile source with
  | error ds =>
    rw [hCompile] at hEnd hBuild
    change ((after _ s).1, (after _ s).2.shown) = ((after _ s).1, (after _ s).2.shown)
    rw [hEnd, hBuild, hShown]
  | ok compiled =>
    rw [hCompile] at hEnd hBuild
    change ((after _ s).1, (after _ s).2.shown) = ((after _ s).1, (after _ s).2.shown)
    rw [hEnd, hBuild]
    exact outcome_execute hTrace slices hShown

end Command

/-- Stages with files between them agree with compiling at once. -/
theorem Toolchain.staged_agrees (source : String) :
    staged source = compile source ∧
      (∀ ds, compile source = .error ds ↔ compileListing source = .error ds) ∧
      (∀ program, compile source = .ok program ↔
        ∃ listing, compileListing source = .ok listing ∧ listing.toProgram = .ok program) ∧
      ∀ (options : Command.Options) (slices : Nat) (folder : Command.Folder) (input tokens listing program : String),
        options.trace = false → folder.readText input = .ok source → Command.Folder.Faithful tokens →
        Command.Folder.Faithful listing → Command.Folder.Faithful program →
        Command.outcome (Command.performStaged options slices input tokens listing program).run folder =
          Command.outcome (Command.perform options slices (.buildRun input)).run folder := by
  refine ⟨staged_eq_compile source, ?_, ?_, ?_⟩
  · intro ds
    rw [compile]
    cases hListing : compileListing source with
    | error es => simp [bind, Except.bind]
    | ok l =>
      obtain ⟨program, -, hAssemble⟩ := exists_program hListing
      simp [bind, Except.bind, hAssemble]
  · intro program
    rw [compile]
    cases hListing : compileListing source with
    | error es => simp [bind, Except.bind]
    | ok l =>
      obtain ⟨other, hProgram, hAssemble⟩ := exists_program hListing
      simp [bind, Except.bind, hAssemble, hProgram]
  · intro options slices folder input tokens listing program hTrace hInput hTokens hListing hProgram
    exact Command.outcome_performStaged hTrace slices hInput hTokens hListing hProgram

/-- A program of one line is built and run in a folder that holds nothing else. -/
theorem Toolchain.staged_agrees_print :
    Command.outcome (Command.performStaged ⟨false, {}⟩ 1 "a.vee" "a.vlex" "a.vbyt" "a.vcomp").run
        (Command.Folder.keep {} "print(1);" .working "a.vee") =
      Command.outcome (Command.perform ⟨false, {}⟩ 1 (.buildRun "a.vee")).run
        (Command.Folder.keep {} "print(1);" .working "a.vee") :=
  (staged_agrees "print(1);").2.2.2 ⟨false, {}⟩ 1 _ "a.vee" "a.vlex" "a.vbyt" "a.vcomp" rfl
    (Command.Folder.readText_keep (by decide) "print(1);") (Command.Folder.faithful_of_isName (by decide))
    (Command.Folder.faithful_of_isName (by decide)) (Command.Folder.faithful_of_isName (by decide))

end Vee
