import Mim.Escaped
import Mim.Outline.Json
import Mim.Outline.Text
import Mim.Source
import Mim.Usage

/-! # Commands

What the command line can ask for, how its arguments are read, and what each
command answers. Files are looked up by a function, so that an answer depends on
nothing else.
-/

namespace Mim

inductive Command where
  | tokens (path : String)
  | parse (path : String) (json : Bool)
  | check (paths : List String) (notes : Bool)
  | fmt (path : String)
  | version
  | help (topic : Topic)
  deriving DecidableEq

namespace Command

/-! ## Arguments -/

/-- The part of a command line that is being read: before the command, or after its name. -/
inductive Mode where
  | root
  | tokens
  | parse
  | check
  | fmt
  deriving DecidableEq

def Mode.ofName? : String → Option Mode
  | "tokens" => some .tokens
  | "parse" => some .parse
  | "check" => some .check
  | "fmt" => some .fmt
  | _ => none

def Mode.topic : Mode → Topic
  | .root => .program
  | .tokens => .tokens
  | .parse => .parse
  | .check => .check
  | .fmt => .fmt

inductive Flag where
  | verbose
  | json
  | notes
  | version
  | help
  deriving DecidableEq

/-- The flags that a word names in a mode, in order, and none for what is no flag of that
    mode. Short flags may share a dash. -/
def flags (mode : Mode) (word : String) : List (Option Flag) :=
  match word.toList with
  | '-' :: '-' :: name => [long? (String.ofList name)]
  | '-' :: letters => letters.map short?
  | _ => [none]
where
  long? : String → Option Flag
    | "verbose" => some .verbose
    | "help" => some .help
    | "version" => if mode = .root then some .version else none
    | "json" => if mode = .parse then some .json else none
    | "notes" => if mode = .check then some .notes else none
    | _ => none
  short? : Char → Option Flag
    | 'v' => some .verbose
    | 'h' => some .help
    | 'V' => if mode = .root then some .version else none
    | _ => none

/-- Arguments as far as they have been read. -/
structure Arguments where
  mode : Mode
  /-- The flags given in this mode. -/
  given : List Flag
  paths : List String

/-- How many paths a mode takes. -/
def Mode.takes (mode : Mode) (count : Nat) : Bool :=
  match mode with
  | .root => false
  | .check => true
  | .tokens | .parse | .fmt => count ≤ 1

/-- What the arguments ask for once all are read. -/
def Arguments.command? (a : Arguments) : Option Command :=
  match a.mode, a.paths with
  | .tokens, [path] => some (.tokens path)
  | .parse, [path] => some (.parse path (a.given.contains .json))
  | .check, path :: paths => some (.check (path :: paths) (a.given.contains .notes))
  | .fmt, [path] => some (.fmt path)
  | _, _ => none

/-- Takes flags one by one. A flag may be given once; the version and the help are asked
    for as soon as they are named. -/
def Arguments.addFlags (a : Arguments) : List (Option Flag) → Option (Command ⊕ Arguments)
  | [] => some (.inr a)
  | none :: _ => none
  | some .version :: _ => some (.inl .version)
  | some .help :: _ => some (.inl (.help a.mode.topic))
  | some flag :: flags =>
    if a.given.contains flag then none else { a with given := flag :: a.given }.addFlags flags

/-- Takes a path, which may not be empty. -/
def Arguments.addPath (a : Arguments) (path : String) : Option Arguments :=
  if path.isEmpty || !a.mode.takes (a.paths.length + 1) then none
  else some { a with paths := a.paths ++ [path] }

/-- What `help` asks for with the words after it: a page on the program or on one command. -/
def helpOn? : List String → Option Command
  | [] => some (.help .program)
  | [word] => .help <$> Topic.ofName? word
  | _ => none

/-- Reads words, none if they are not understood. The first word that is no flag names the
    command; after two dashes every word is a path. -/
def Arguments.read? (a : Arguments) : List String → Option Command
  | [] => a.command?
  | "--" :: words => do (← words.foldlM addPath a).command?
  | word :: words =>
    if word.startsWith "-" && word != "-" then do
      match ← a.addFlags (flags a.mode word) with
      | .inl command => some command
      | .inr a => a.read? words
    else if a.mode = .root then do
      if word = "help" then helpOn? words
      else Arguments.read? ⟨← Mode.ofName? word, [], []⟩ words
    else do (← a.addPath word).read? words

/-- The command that a command line asks for, none if it is not understood. -/
def ofArguments? (words : List String) : Option Command := Arguments.read? ⟨.root, [], []⟩ words

/-! ## Answers -/

/-- What a run leaves: an exit code, its output, the diagnostics shown for each source, and
    the error that ended it, if one did. -/
structure Outcome where
  exit : Nat
  output : String
  shown : List (String × Diagnostic)
  error : Option String

namespace Outcome

def success (output : String) (shown : List (String × Diagnostic)) : Outcome :=
  ⟨0, output, shown, none⟩

def failure (output : String) (shown : List (String × Diagnostic)) (error : String) : Outcome :=
  ⟨1, output, shown, some error⟩

/-- The arguments are not understood. -/
def misuse : Outcome := ⟨2, "", [], none⟩

end Outcome

/-- The contents of a file, if it is there. -/
abbrev Files := String → Option ByteArray

/-- The text of a file, or why there is none. -/
def readText (files : Files) (path : String) : Except String String :=
  match (files path).bind String.fromUTF8? with
  | some text => .ok text
  | none => .error ("Failed to read source file: " ++ Escaped.quoted path)

def count (n : Nat) : String := String.ofList (Numeral.natText n)

def padLeft (width : Nat) (s : String) : String := "".pushn ' ' (width - s.length) ++ s

def padRight (width : Nat) (s : String) : String := s.pushn ' ' (width - s.length)

/-- One line of a token listing. -/
def tokenLine (index : Nat) (x : Lexeme) : String :=
  padLeft 4 (count index) ++ ": " ++ padLeft 4 (count x.position.line) ++ ":" ++
    padRight 3 (count x.position.column) ++ " " ++ padRight 16 x.token.kind.name ++ " " ++
    x.token.display ++ "\n"

def runTokens (path text : String) : Outcome :=
  let lines := (lexemes text).zipIdx.map fun (x, index) => tokenLine index x
  let output := String.join lines
  let errors := Diagnostic.errorCount (Source.lexical text)
  if errors = 0 then .success output []
  else .failure output [] (count errors ++ " lexical error(s) in " ++ Escaped.quoted path)

def shownErrors (s : Source) : List (String × Diagnostic) := s.errors.map (s.name, ·)

def runParse (path text : String) (json : Bool) : Outcome :=
  let source := Source.read path text
  let outline := source.file.outline
  let output := (if json then outline.json else outline.plainText) ++ "\n"
  if source.hasErrors then .failure output (shownErrors source) "Parsing failed"
  else .success output []

def runFmt (path text : String) : Outcome :=
  let source := Source.read path text
  if source.hasErrors then
    .failure "" (shownErrors source) "Cannot format a file with syntax errors"
  else .success source.formatted []

/-- One line of a check. -/
def checkLine (s : Source) : String :=
  let errors := s.errors.length
  if errors = 0 then "ok: " ++ s.name ++ "\n"
  else "failed: " ++ s.name ++ " (" ++ count errors ++ " error(s))\n"

def runCheck (sources : List Source) (notes : Bool) : Outcome :=
  let output := String.join (sources.map checkLine)
  let shown := sources.flatMap fun s =>
    (s.diagnostics.filter fun d => notes || d.isError).map (s.name, ·)
  let failed := sources.countP Source.hasErrors
  if failed = 0 then .success (output ++ "success: No errors found\n") shown
  else .failure output shown (count failed ++ " file(s) with syntax errors")

/-- Runs a command on the text of one file. -/
def onText (files : Files) (path : String) (run : String → Outcome) : Outcome :=
  match readText files path with
  | .ok text => run text
  | .error message => .failure "" [] message

/-- The files that a command reads. -/
def paths : Command → List String
  | .tokens path | .parse path _ | .fmt path => [path]
  | .check paths _ => paths
  | .version | .help _ => []

def run (files : Files) : Command → Outcome
  | .tokens path => onText files path (runTokens path)
  | .parse path json => onText files path fun text => runParse path text json
  | .fmt path => onText files path (runFmt path)
  | .check paths notes =>
    match paths.mapM fun path => (Source.read path) <$> readText files path with
    | .ok sources => runCheck sources notes
    | .error message => .failure "" [] message
  | .version => .success "mim 0.1.0\n" []
  | .help topic => .success topic.text []

/-- Runs the program on a command line. -/
def runArguments (files : Files) (words : List String) : Outcome :=
  match ofArguments? words with
  | some command => run files command
  | none => .misuse

end Command

end Mim
