/-
  JsonPath.CommandLine.Arguments — what the arguments of the command ask for.

  The command takes at most one expression and four switches. A switch may stand
  before or behind the expression; a long one may be cut short as long as it is the
  only one that begins so, and takes a value behind `=`, or in the next argument; a
  short one takes it also right behind its letter, and where it takes none, more
  letters may follow. Behind `--` nothing is a switch. Neither is an argument that
  spells a negative number, or one with a space in it that no switch begins with. A
  value that is `--` is left out, so the switch that it was given to has none.

  Every argument is told apart before any of them counts, so an ambiguous switch is an
  error wherever it stands. From there on the arguments count from left to right: help
  ends it, and arguments that nothing takes are only an error at the end.
-/

import JsonPath.Settings
import JsonPath.Text.DecimalDigit

namespace JsonPath.CommandLine

inductive Switch where
  | help
  | backend
  | tree
  | canonical
  deriving DecidableEq

namespace Switch

def spellings : Switch → List Text
  | help => ["-h", "--help"]
  | backend => ["-b", "--backend"]
  | tree => ["--tree"]
  | canonical => ["--canonical"]

/-- Every spelling of a switch. -/
def table : List (Text × Switch) :=
  [help, backend, tree, canonical].flatMap fun s => s.spellings.map (·, s)

def ofSpelling? (t : Text) : Option Switch := (table.find? (·.1 = t)).map (·.2)

end Switch

inductive ArgumentError where
  | ambiguous (argument : Text) (spellings : List Text)
  | missingValue (switch : Switch)
  | unwantedValue (switch : Switch) (value : Text)
  | unknownBackend (value : Text)
  | unrecognized (arguments : List Text)
  deriving DecidableEq

namespace ArgumentError

def about (switch : Switch) (message : Text) : Text :=
  "argument " ++ Text.join "/" switch.spellings ++ ": " ++ message

def message : ArgumentError → Text
  | ambiguous argument spellings =>
    "ambiguous option: " ++ argument ++ " could match " ++ Text.join ", " spellings
  | missingValue switch => about switch "expected one argument"
  | unwantedValue switch value => about switch ("ignored explicit argument " ++ value.literal)
  | unknownBackend value =>
    about .backend ("invalid choice: " ++ value.literal ++ " (choose from " ++
      Text.join ", " (Backend.all.map fun b => b.name.literal) ++ ")")
  | unrecognized arguments => "unrecognized arguments: " ++ Text.join " " arguments

end ArgumentError

/-! ## Telling arguments apart -/

/-- A switch as it was given. -/
structure GivenSwitch where
  switch : Switch
  /-- Given by its letter. -/
  short : Bool
  value : Option Text
  deriving DecidableEq

inductive Argument where
  | plain (text : Text)
  | switch (given : GivenSwitch)
  | unknownSwitch (text : Text)
  | separator
  deriving DecidableEq

/-- Splits at the first `=`, if there is one. -/
def splitValue (t : Text) : Text × Option Text :=
  match t.dropWhile (· ≠ .ofChar '=') with
  | [] => (t, none)
  | _ :: value => (t.takeWhile (· ≠ .ofChar '='), some value)

def isShort (spelling : Text) : Bool := spelling[1]? ≠ some (.ofChar '-')

/-- A minus and a decimal numeral, in digits of any script. A line feed may follow. -/
def isNegativeNumber (t : Text) : Bool :=
  let isDigit (c : CodePoint) : Bool := c.decimalDigit?.isSome
  let t := if t.getLast? = some (.ofChar '\n') then t.dropLast else t
  match t with
  | [] => false
  | c :: t =>
    c = '-' &&
      match t.dropWhile isDigit with
      | [] => !t.isEmpty
      | point :: fraction => point = '.' && !fraction.isEmpty && fraction.all isDigit

/-- The switches that a text which spells none of them may stand for. -/
def candidates (t : Text) : List (Text × GivenSwitch) :=
  if isShort t then
    (Switch.table.filter (·.1 = t.take 2)).map fun (spelling, s) => (spelling, ⟨s, true, some (t.drop 2)⟩)
  else
    let (name, value) := splitValue t
    (Switch.table.filter (name.isPrefixOf ·.1)).map fun (spelling, s) => (spelling, ⟨s, false, value⟩)

def Argument.ofText (t : Text) : Except ArgumentError Argument :=
  if t.head? ≠ some (.ofChar '-') then .ok (.plain t)
  else
    match Switch.ofSpelling? t with
    | some s => .ok (.switch ⟨s, isShort t, none⟩)
    | none =>
      if t.length = 1 then .ok (.plain t)
      else
        let (name, value) := splitValue t
        match Switch.ofSpelling? name with
        | some s => .ok (.switch ⟨s, isShort t, value⟩)
        | none =>
          match candidates t with
          | [(_, given)] => .ok (.switch given)
          | [] => .ok (if isNegativeNumber t || t.contains (.ofChar ' ') then .plain t else .unknownSwitch t)
          | many => .error (.ambiguous t (many.map (·.1)))

def Argument.ofTexts : List Text → Except ArgumentError (List Argument)
  | [] => .ok []
  | t :: ts =>
    if t = Text.ofString "--" then .ok (.separator :: ts.map .plain)
    else do
      let a ← ofText t
      let as ← ofTexts ts
      return a :: as

/-! ## Taking them in -/

inductive BackendChoice where
  | unset
  | named (b : Backend)
  /-- Asked for, with a value that was left out. -/
  | nameless
  deriving DecidableEq

structure Options where
  expression : Option Text
  backend : BackendChoice
  tree : Bool
  canonical : Bool
  deriving DecidableEq

def Options.none : Options := ⟨.none, .unset, false, false⟩

inductive Request where
  | help
  | run (options : Options)
  deriving DecidableEq

/-- The last of the switches that share one argument, and whether help is before it.
    Help is the only switch that another letter may follow. -/
def GivenSwitch.last (helped : Bool) (given : GivenSwitch) : Except ArgumentError (Bool × GivenSwitch) :=
  match given with
  | ⟨.backend, _, _⟩ | ⟨_, _, none⟩ => .ok (helped, given)
  | ⟨s, _, some []⟩ => .error (.unwantedValue s [])
  | ⟨s, false, some value⟩ => .error (.unwantedValue s value)
  | ⟨s, true, some (c :: more)⟩ =>
    match Switch.ofSpelling? ['-', c] with
    | none => .error (.unwantedValue s (c :: more))
    | some next =>
      match more with
      | [] => .ok (true, ⟨next, true, none⟩)
      | d :: more => last true ⟨next, true, some (d :: more)⟩
termination_by (given.value.getD []).length

def Options.withBackend (options : Options) (name : Text) : Except ArgumentError Options :=
  if name = Text.ofString "--" then .ok { options with backend := .nameless }
  else
    match Backend.ofName name with
    | .ok b => .ok { options with backend := .named b }
    | .error _ => .error (.unknownBackend name)

/-- Takes the arguments in, from left to right; `extra` are those that nothing took so far. -/
def Request.collect (options : Options) (extra : List Text) : List Argument → Except ArgumentError Request
  | [] => if extra = [] then .ok (.run options) else .error (.unrecognized extra)
  | .plain t :: rest =>
    if options.expression.isSome then collect options (extra ++ [t]) rest
    else
      match rest with
      | .separator :: rest => collect { options with expression := some t } extra rest
      | rest => collect { options with expression := some t } extra rest
  | .separator :: rest =>
    if options.expression.isSome then collect options (extra ++ [Text.ofString "--"]) rest
    else collect options extra rest
  | .unknownSwitch t :: rest => collect options (extra ++ [t]) rest
  | .switch given :: rest => do
    let (helped, given) ← given.last false
    match given.switch, given.value with
    | .help, _ => return .help
    | .tree, _ => if helped then return .help else collect { options with tree := true } extra rest
    | .canonical, _ => if helped then return .help else collect { options with canonical := true } extra rest
    | .backend, some value =>
      if helped then return .help
      else collect (← options.withBackend value) extra rest
    | .backend, none =>
      match rest with
      | .plain value :: rest =>
        if helped then return .help
        else collect (← options.withBackend value) extra rest
      | _ => throw (.missingValue .backend)

def Request.ofArguments (arguments : List Text) : Except ArgumentError Request := do
  collect .none [] (← Argument.ofTexts arguments)

end JsonPath.CommandLine
