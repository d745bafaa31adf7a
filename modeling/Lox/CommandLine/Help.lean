import Lox.CommandLine.Arguments

/-!
The help on the command line: for each topic what it is about, how it is written, and tables of what
may stand in it.
-/

namespace Lox.CommandLine

/-- The name of the program. -/
def programName : String := "treelox"

/-- The name of the program and its version. -/
def versionText : String := programName ++ " 0.1.0\n"

/-- What an action does. -/
def Action.about : Action → String
  | .tokenize => "Tokenizes input from a file, printing each token"
  | .parse => "Parses a program from a file and prints its syntax tree"
  | .evaluate => "Evaluates input from a file as a single expression and prints the result"
  | .run => "Runs a program from a file, or starts a REPL when no file is given"

/-- How the file of an action is written, in square brackets if it may be missing. -/
def Action.fileMark : Action → String
  | .run => "[FILENAME]"
  | _ => "<FILENAME>"

namespace Topic

/-- The name and the purpose of the help itself. -/
def helpEntry : String × String :=
  ("help", "Print this message or the help of the given subcommand(s)")

/-- What the topic is about. -/
def about : Topic → String
  | .program => "Tree-walking interpreter for a small class-based scripting language"
  | .action a => a.about
  | .help => helpEntry.2

/-- The words that are written after the name of the program. -/
def usage : Topic → String
  | .program => "[OPTIONS] <COMMAND>"
  | .action a => a.name ++ " [OPTIONS] " ++ a.fileMark
  | .help => "help [COMMAND]..."

/-- A table of two columns under a heading; the second column stands right of the longest entry of
the first. -/
def table (heading : String) (rows : List (String × String)) : String :=
  let width := rows.foldl (fun n row => max n row.1.length) 0
  let line (row : String × String) : String :=
    "  " ++ row.1 ++ String.ofList (List.replicate (width - row.1.length) ' ') ++ "  " ++ row.2
      ++ "\n"
  "\n" ++ heading ++ ":\n" ++ String.join (rows.map line)

/-- The options of all actions. -/
def commonOptions : List (String × String) :=
  [("    --log", "Enable logging to app.log"),
    ("    --max-args <MAX_ARGS>",
      "Maximum number of arguments in a call or parameters in a declaration [default: 255]"),
    ("    --lenient-limits",
      "Only warn (instead of failing) when a call or declaration exceeds --max-args")]

/-- The option that asks for help. -/
def helpOption : String × String := ("-h, --help", "Print help")

/-- The option that asks for the version. -/
def versionOption : String × String := ("-V, --version", "Print version")

/-- The options of an action alone. -/
def ownOptions : Action → List (String × String)
  | .parse => [("    --json", "Print the tree as JSON instead of prefix form")]
  | _ => []

/-- The tables of a topic. -/
def tables : Topic → String
  | .program =>
    table "Commands" (Action.all.map (fun a => (a.name, a.about)) ++ [helpEntry])
      ++ table "Options" (commonOptions ++ [helpOption, versionOption])
  | .action a =>
    table "Arguments" [(a.fileMark, "")]
      ++ table "Options" (ownOptions a ++ commonOptions ++ [helpOption])
  | .help => table "Arguments" [("[COMMAND]...", "Print help for the subcommand(s)")]

/-- The help on a topic. -/
def text (topic : Topic) : String :=
  topic.about ++ "\n\nUsage: " ++ programName ++ " " ++ topic.usage ++ "\n" ++ topic.tables

end Topic

end Lox.CommandLine
