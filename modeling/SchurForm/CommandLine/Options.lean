/-!
# Options of a command

An option has a name behind two hyphens and maybe a letter behind one. Its value is the next
argument or is attached to it: behind an equals sign, or directly behind the letter. A value of its
own does not begin with a hyphen, unless it is the hyphen alone. Every option is given at most once,
and there are no arguments besides options. Asking for help or for the version ends the reading at
once.
-/

namespace SchurForm

namespace CommandLine

/-- Why there is no command to run. -/
inductive Interruption where
  | help
  | version
  /-- The arguments do not form a command. -/
  | misuse
  deriving DecidableEq, Repr

/-- An option that takes a value. -/
structure ValueOption where
  letter : Option Char
  name : String
  /-- Whether a text is a value of the option. -/
  accepts : String → Bool

/-- The options that a command knows. -/
structure Grammar where
  valued : List ValueOption
  /-- Names of options without a value. -/
  flags : List String

/-- The options that were given, with the values they were given. -/
structure Given where
  values : List (String × String)
  flags : List String
  deriving DecidableEq, Repr

/-- The value of an option. -/
def Given.value? (given : Given) (name : String) : Option String :=
  given.values.lookup name

/-- Whether an option without a value was given. -/
def Given.hasFlag (given : Given) (name : String) : Bool :=
  given.flags.contains name

/-- What an argument looks like. -/
inductive Argument where
  | long (name : String) (attached : Option String)
  | short (letter : Char) (attached : Option String)
  /-- Two hyphens, behind which nothing is an option. -/
  | endOfOptions
  | plain (text : String)
  deriving DecidableEq, Repr

/-- Tell the sorts of arguments apart. -/
def Argument.of (text : String) : Argument :=
  match text.toList with
  | ['-', '-'] => .endOfOptions
  | '-' :: '-' :: rest =>
    let name := String.ofList (rest.takeWhile fun c => c != '=')
    match rest.dropWhile fun c => c != '=' with
    | '=' :: value => .long name (some (String.ofList value))
    | _ => .long name none
  | ['-', letter] => .short letter none
  | '-' :: letter :: '=' :: value => .short letter (some (String.ofList value))
  | '-' :: letter :: value => .short letter (some (String.ofList value))
  | _ => .plain text

/-- Whether an argument can be a value of its own. -/
def isValue (text : String) : Bool :=
  match Argument.of text with
  | .plain _ => true
  | _ => false

namespace Grammar

/-- The option that an argument names. -/
def valued? (grammar : Grammar) : Argument → Option ValueOption
  | .long name _ => grammar.valued.find? fun o => o.name == name
  | .short letter _ => grammar.valued.find? fun o => o.letter == some letter
  | _ => none

/-- The flag that an argument names. -/
def flag? (grammar : Grammar) : Argument → Option String
  | .long name none => grammar.flags.find? fun flag => flag == name
  | _ => none

/-- The value that is attached to an argument. -/
def attached? : Argument → Option String
  | .long _ attached => attached
  | .short _ attached => attached
  | _ => none

/-- The end that an argument puts to the reading when it names no option of the command. -/
def interruption : Argument → Interruption
  | .long "help" none => .help
  | .long "version" none => .version
  | .short 'h' _ => .help
  | .short 'V' _ => .version
  | _ => .misuse

/-- Note the value of an option. -/
def note (given : Given) (option : ValueOption) (value : String) : Except Interruption Given :=
  if option.accepts value ∧ given.value? option.name = none then
    .ok { given with values := (option.name, value) :: given.values }
  else .error .misuse

/-- Read the arguments of a command. -/
def read (grammar : Grammar) (given : Given) : List String → Except Interruption Given
  | [] => .ok given
  | [text] =>
    let argument := Argument.of text
    match grammar.valued? argument, attached? argument, grammar.flag? argument with
    | some option, some value, _ => note given option value
    | some _, none, _ => .error .misuse
    | none, _, some flag =>
      if given.hasFlag flag then .error .misuse
      else .ok { given with flags := flag :: given.flags }
    | none, _, none =>
      if argument = .endOfOptions then .ok given else .error (interruption argument)
  | text :: next :: rest =>
    let argument := Argument.of text
    match grammar.valued? argument, attached? argument, grammar.flag? argument with
    | some option, some value, _ =>
      match note given option value with
      | .ok given => read grammar given (next :: rest)
      | .error e => .error e
    | some option, none, _ =>
      if isValue next then
        match note given option next with
        | .ok given => read grammar given rest
        | .error e => .error e
      else .error .misuse
    | none, _, some flag =>
      if given.hasFlag flag then .error .misuse
      else read grammar { given with flags := flag :: given.flags } (next :: rest)
    | none, _, none => .error (interruption argument)

end Grammar

end CommandLine

end SchurForm
