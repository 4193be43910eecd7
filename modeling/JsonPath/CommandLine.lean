/-
  JsonPath.CommandLine — the command that reads a path and shows it.

  `run` is the command: it reads the expression that the arguments give, or else the
  standard input without the line feeds that end it, and prints the path's display, its
  canonical text or its tree. `outline` is the plain tool beside it, which reads its
  first argument or the whole standard input and prints the tree. Both are functions of
  what the world gives them, the engine among it; the outer layer only reads and prints.
-/

import JsonPath.CommandLine.Arguments
import JsonPath.Path.Display
import JsonPath.Reading

namespace JsonPath.CommandLine

/-- What a command leaves behind. `traces` says that a trace follows the errors, and
    `logs` that the run was told to log for debugging. -/
structure Report where
  exit : Nat
  out : Text
  err : Text
  traces : Bool
  logs : Bool
  deriving DecidableEq

namespace Report

def printed (out : Text) (logs : Bool) : Report := ⟨0, out, [], false, logs⟩

def failed (message : Text) (debug : Bool) : Report := ⟨1, [], "Parse error: " ++ message ++ "\n", debug, debug⟩

/-- An error that no one takes: it ends the run, with a trace in any case. -/
def escaped (message : Text) (debug : Bool) : Report := ⟨1, [], message ++ "\n", true, debug⟩

end Report

def usage : Text :=
  "usage: jsonpath-syntax [-h] [-b \x7brd,lalr,earley\x7d] [--tree] [--canonical]\n" ++
  "                       [expression]\n"

def help : Text :=
  usage ++
  "\n" ++
  "Parse a JSONPath expression\n" ++
  "\n" ++
  "positional arguments:\n" ++
  "  expression            Path expression (defaults to stdin)\n" ++
  "\n" ++
  "options:\n" ++
  "  -h, --help            show this help message and exit\n" ++
  "  -b \x7brd,lalr,earley\x7d, --backend \x7brd,lalr,earley\x7d\n" ++
  "                        Parser backend (default: $JSONPATH_SYNTAX_BACKEND or\n" ++
  "                        rd)\n" ++
  "  --tree                Print the parse tree\n" ++
  "  --canonical           Print the canonical path text\n"

def ArgumentError.report (e : ArgumentError) : Report :=
  ⟨2, [], usage ++ "jsonpath-syntax: error: " ++ e.message ++ "\n", false, false⟩

/-- The text without the line feeds at its end. -/
def chomp (t : Text) : Text := (t.reverse.dropWhile (· = .ofChar '\n')).reverse

/-- What is printed of a path. -/
def shown (options : Options) (p : Path) : Except TextError Text :=
  if options.canonical then p.text else .ok p.display

/-- Reads the tree of a path with the backend that the arguments choose. -/
def readChosen (env : Environment) (choice : BackendChoice) (source : Text) (engine : Engine := .ofRules) :
    Except ReadError (Tree Token) :=
  match choice with
  | .unset => readTree env none source engine
  | .named b => readTree env (some b.name) source engine
  | .nameless => .error (.backend .nameless)

/-- Only errors of reading are taken. A tree that was read has a path and the path a text, so none escapes. -/
def runOptions (env : Environment) (options : Options) (input : Text) (engine : Engine := .ofRules) : Report :=
  let debug := env.debugEnabled
  let source := options.expression.getD (chomp input)
  match readChosen env options.backend source engine with
  | .error e => .failed e.message debug
  | .ok tree =>
    if options.tree then .printed (engine.outline tree) debug
    else
      match tree.path with
      | .error e => .escaped e.message debug
      | .ok p =>
        match shown options p with
        | .error e => .escaped e.message debug
        | .ok text => .printed (text ++ "\n") debug

def run (env : Environment) (arguments : List Text) (input : Text) (engine : Engine := .ofRules) : Report :=
  match Request.ofArguments arguments with
  | .error e => e.report
  | .ok .help => .printed help false
  | .ok (.run options) => runOptions env options input engine

def outline (arguments : List Text) (input : Text) (engine : Engine := .ofRules) : Report :=
  match Rule.path.read (arguments.head?.getD input) with
  | .error e => .failed e.message false
  | .ok tree => .printed (engine.outline tree ++ "\n") false

end JsonPath.CommandLine
