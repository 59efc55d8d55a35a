/-! # Usage

The help pages of the program: one on the program as a whole and one on each of its
commands.
-/

namespace Mim

/-- What a help page is about. -/
inductive Topic where
  | program
  | tokens
  | parse
  | check
  | fmt
  | help
  deriving DecidableEq

/-- A table of a help page: words of the command line, each with what it means. -/
structure UsageTable where
  title : String
  rows : List (String × String)

/-- A help page. -/
structure UsagePage where
  about : String
  pattern : String
  tables : List UsageTable

/-- A table with its meanings in one column, two blanks after the longest word. -/
def UsageTable.text (t : UsageTable) : String :=
  let width := t.rows.foldl (fun width row => max width row.1.length) 0
  let rows := t.rows.map fun (word, meaning) =>
    "  " ++ word.pushn ' ' (width - word.length) ++ "  " ++ meaning ++ "\n"
  "\n" ++ t.title ++ ":\n" ++ String.join rows

def UsagePage.text (p : UsagePage) : String :=
  p.about ++ "\n\nUsage: mim " ++ p.pattern ++ "\n" ++ String.join (p.tables.map UsageTable.text)

namespace Topic

/-- The topic that a word after `help` names. -/
def ofName? : String → Option Topic
  | "tokens" => some .tokens
  | "parse" => some .parse
  | "check" => some .check
  | "fmt" => some .fmt
  | "help" => some .help
  | _ => none

def about : Topic → String
  | .program => "Syntax tools for the Mim language"
  | .tokens => "Print the token stream of a source file"
  | .parse => "Parse a source file and dump the syntax tree"
  | .check => "Check source files for syntax errors"
  | .fmt => "Print a source file in canonical form"
  | .help => "Print this message or the help of the given subcommand(s)"

/-- The options that follow those of one command alone. -/
def sharedOptions : List (String × String) :=
  [("-v, --verbose", "Enable verbose output"), ("-h, --help", "Print help")]

/-- The page on a command that takes one file. -/
def filePage (topic : Topic) (name file : String) (options : List (String × String)) :
    UsagePage where
  about := topic.about
  pattern := name ++ " [OPTIONS] <INPUT>"
  tables := [⟨"Arguments", [("<INPUT>", file)]⟩, ⟨"Options", options ++ sharedOptions⟩]

def page : Topic → UsagePage
  | .program =>
    ⟨about .program, "[OPTIONS] <COMMAND>",
      [⟨"Commands", [("tokens", about .tokens), ("parse", about .parse),
          ("check", about .check), ("fmt", about .fmt), ("help", about .help)]⟩,
        ⟨"Options", sharedOptions ++ [("-V, --version", "Print version")]⟩]⟩
  | .tokens => filePage .tokens "tokens" "The source file to scan" []
  | .parse =>
    filePage .parse "parse" "The source file to parse" [("    --json", "Dump the tree as JSON")]
  | .check =>
    ⟨about .check, "check [OPTIONS] <INPUTS>...",
      [⟨"Arguments", [("<INPUTS>...", "The source files to check")]⟩,
        ⟨"Options", ("    --notes", "Also show which ambiguity rules were applied") ::
          sharedOptions⟩]⟩
  | .fmt => filePage .fmt "fmt" "The source file to format" []
  | .help =>
    ⟨about .help, "help [COMMAND]...",
      [⟨"Arguments", [("[COMMAND]...", "Print help for the subcommand(s)")]⟩]⟩

def text (topic : Topic) : String := topic.page.text

end Topic

end Mim
