import Lox.Program.Cursor

/-!
The arguments of the command line. There are four actions; the options `--log`, `--lenient-limits`
and `--max-args` may stand before or after the name of the action, each at most once on either
side, and the one after it counts. After `--` no word is an option. Words are read from left to
right, and the first one that asks for help or for the version, or cannot be used, ends the reading.
-/

namespace Lox.CommandLine

/-- What can be done. -/
inductive Action where
  | tokenize
  | parse
  | evaluate
  | run
  deriving DecidableEq, Repr

namespace Action

/-- All actions. -/
def all : List Action := [.tokenize, .parse, .evaluate, .run]

/-- The name by which an action is asked for. -/
def name : Action → String
  | .tokenize => "tokenize"
  | .parse => "parse"
  | .evaluate => "evaluate"
  | .run => "run"

/-- The action of a name. -/
def ofName? (name : String) : Option Action :=
  all.find? fun a => a.name = name

end Action

/-- What is to be done. -/
inductive Command where
  /-- List the tokens of a file. -/
  | tokenize (file : String)
  /-- Show the program in a file, bracketed or as a JSON document. -/
  | parse (file : String) (json : Bool)
  /-- Show the value of the expression in a file. -/
  | evaluate (file : String)
  /-- Run the program in a file, or each line of the input as a program. -/
  | run (file : Option String)
  deriving DecidableEq, Repr

/-- The file that a command reads. -/
def Command.file? : Command → Option String
  | .tokenize file | .parse file _ | .evaluate file => some file
  | .run file => file

/-- A command with its options. -/
structure Invocation where
  command : Command
  /-- Events are logged to a file. -/
  log : Bool
  limit : Limit
  deriving DecidableEq, Repr

/-- What help is asked for. -/
inductive Topic where
  /-- All of the program. -/
  | program
  | action (a : Action)
  /-- The help itself. -/
  | help
  deriving DecidableEq, Repr

/-- What is shown instead of a command being invoked. -/
inductive Notice where
  /-- The arguments cannot be used. -/
  | unusable
  | help (topic : Topic)
  | version
  deriving DecidableEq, Repr

/-- The words on one side of the name of an action. -/
structure Words where
  log : Bool := false
  lenient : Bool := false
  json : Bool := false
  maxArguments : Option Nat := none
  /-- The value of the `--max-args` just before, which has not been read as a number yet. -/
  unread : Option String := none
  file : Option String := none

/-- A number of 64 bits in decimal digits, which may follow a plus sign. -/
def readNumber? (word : String) : Option Nat :=
  let digits : List Char := match word.toList with
    | '+' :: digits => digits
    | digits => digits
  let value := digits.foldl (fun n c => 10 * n + (c.toNat - '0'.toNat)) 0
  if digits ≠ [] ∧ digits.all Char.isDigit ∧ value < Decimal.pow2 64 then some value else none

/-- The word looks like an option; a single dash does not. -/
def isOption (word : String) : Bool :=
  word.startsWith "-" && word ≠ "-"

namespace Words

/-- Sets an option that is not set yet. -/
def once {α : Type} (isSet : Bool) (set : α) : Except Notice α :=
  if isSet then .error .unusable else .ok set

/-- Reads the value of the `--max-args` just before, if there is one. -/
def settle (w : Words) : Except Notice Words :=
  match w.unread.map readNumber? with
  | none => .ok w
  | some none => .error .unusable
  | some (some n) => once w.maxArguments.isSome { w with maxArguments := some n, unread := none }

/-- Takes the value of `--max-args`, to be read when the next option or file comes. -/
def addValue (w : Words) (value : String) : Except Notice Words := do
  return { ← w.settle with unread := some value }

/-- Takes an option that stands where one may ask for help on the topic. Of letters after a single
dash, the first decides. -/
def addOption (w : Words) (topic : Topic) (word : String) : Except Notice Words := do
  let w ← w.settle
  let valueMark := "--max-args="
  if word = "--log" then once w.log { w with log := true }
  else if word = "--lenient-limits" then once w.lenient { w with lenient := true }
  else if word = "--json" ∧ topic = .action .parse then once w.json { w with json := true }
  else if word.startsWith valueMark then
    (← w.addValue (word.drop valueMark.length).toString).settle
  else if word = "--help" ∨ word.startsWith "-h" then throw (.help topic)
  else if (word = "--version" ∨ word.startsWith "-V") ∧ topic = .program then throw .version
  else throw .unusable

/-- Takes the file that an action reads; there is one at most, and its name is not empty. -/
def addFile (w : Words) (file : String) : Except Notice Words := do
  once (w.file.isSome || file = "") { ← w.settle with file := some file }

/-- Reads words up to the first one that is no option, and gives that one and those after it. -/
def beforeAction (w : Words) : List String → Except Notice (Words × String × List String)
  | [] => .error .unusable
  | "--max-args" :: value :: rest => do
    if isOption value then throw .unusable
    (← w.addValue value).beforeAction rest
  | word :: rest => do
    if isOption word then (← w.addOption .program word).beforeAction rest
    else return (w, word, rest)

/-- Reads all words after the name of an action. -/
def afterAction (w : Words) (a : Action) : List String → Except Notice Words
  | [] => w.settle
  | "--max-args" :: value :: rest => do
    if isOption value then throw .unusable
    (← w.addValue value).afterAction a rest
  | word :: rest => do
    if word = "--" then (← rest.foldlM addFile w).settle
    else if isOption word then (← w.addOption (.action a) word).afterAction a rest
    else (← w.addFile word).afterAction a rest

/-- The command that an action is with its words; only a run may be without a file. -/
def command (w : Words) (a : Action) : Except Notice Command :=
  match a, w.file with
  | .run, file => .ok (.run file)
  | _, none => .error .unusable
  | .tokenize, some file => .ok (.tokenize file)
  | .parse, some file => .ok (.parse file w.json)
  | .evaluate, some file => .ok (.evaluate file)

end Words

/-- The notice that the word `help` gives before other words. -/
def Notice.ofHelp : List String → Notice
  | [] => .help .program
  | ["help"] => .help .help
  | [name] =>
    match Action.ofName? name with
    | some a => .help (.action a)
    | none => .unusable
  | _ => .unusable

/-- The invocation that the arguments are, or what is shown instead. -/
def Invocation.ofArguments (arguments : List String) : Except Notice Invocation := do
  let (before, name, rest) ← Words.beforeAction {} arguments
  match Action.ofName? name with
  | none => throw (if name = "help" then .ofHelp rest else .unusable)
  | some a =>
    let after ← Words.afterAction {} a rest
    let command ← after.command a
    let before ← before.settle
    let maxArguments := (after.maxArguments <|> before.maxArguments).getD 255
    return ⟨command, before.log || after.log, ⟨maxArguments, !(before.lenient || after.lenient)⟩⟩

end Lox.CommandLine
