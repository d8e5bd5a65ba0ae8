/-!
The command line.

An option is `--name` or a letter after one dash; letters can stand together. The value of an option
follows it, or is attached: `--name=value`, `-nvalue`, `-n=value`. After `--` everything is a plain
argument. The first thing that is wrong, or that asks for help or the version, decides.
-/

namespace ArrayKernel.Program

inductive Opt where
  | verbose | help | version | ir | headless
  | scope | out | arg | read
  deriving DecidableEq, Repr

namespace Opt

def long : Opt → String
  | verbose => "verbose"
  | help => "help"
  | version => "version"
  | ir => "ir"
  | headless => "headless"
  | scope => "scope"
  | out => "out"
  | arg => "arg"
  | read => "read"

def short? : Opt → Option Char
  | verbose => some 'v'
  | help => some 'h'
  | version => some 'V'
  | out => some 'o'
  | _ => none

def takesValue : Opt → Bool
  | scope | out | arg | read => true
  | _ => false

def isRepeatable : Opt → Bool
  | verbose | arg | read => true
  | _ => false

def isPath : Opt → Bool
  | scope | out => true
  | _ => false

def takesAnything : Opt → Bool
  | arg => true
  | _ => false

end Opt

inductive Subcommand where
  | build | reflect | run
  deriving DecidableEq, Repr

namespace Subcommand

def ofName? : String → Option Subcommand
  | "build" => some build
  | "reflect" => some reflect
  | "run" => some run
  | _ => none

def options : Subcommand → List Opt
  | build => [.verbose, .help, .scope, .out, .ir]
  | reflect => [.verbose, .help]
  | run => [.verbose, .help, .scope, .arg, .read, .headless]

end Subcommand

/-- What was given, in order: options with their values, and plain arguments. -/
structure Given where
  options : List (Opt × String) := []
  plain : List String := []
  deriving DecidableEq, Repr

inductive Stop where
  | misuse
  | help
  | version
  deriving DecidableEq, Repr

namespace Given

def has (g : Given) (o : Opt) : Bool := g.options.any (·.1 == o)

/-- Takes an option with its value, which is empty for one that takes none. -/
def withOption (g : Given) (o : Opt) (value : String) : Except Stop Given :=
  match o with
  | .help => .error .help
  | .version => .error .version
  | _ =>
    if g.has o && !o.isRepeatable then .error .misuse
    else if o.isPath && value.isEmpty then .error .misuse
    else .ok { g with options := g.options ++ [(o, value)] }

def withPlain (g : Given) (text : String) : Except Stop Given :=
  if text.isEmpty || !g.plain.isEmpty then .error .misuse else .ok { g with plain := [text] }

def value? (g : Given) (o : Opt) : Option String := g.options.lookup o

def values (g : Given) (o : Opt) : List String := (g.options.filter (·.1 == o)).map Prod.snd

end Given

/-! ## Reading -/

/-- Whether an argument looks like an option. A lone dash does not. -/
def looksLikeOption (text : String) : Bool := text.startsWith "-" && text != "-"

/-- An option that is written with its name, and the value that is attached to it. -/
def readLong (known : List Opt) (text : String) : Except Stop (Opt × Option String) :=
  let cs := text.toList
  let name := String.ofList (cs.takeWhile (· != '='))
  let attached? : Option String := match cs.dropWhile (· != '=') with
    | _ :: value => some (String.ofList value)
    | [] => none
  match known.find? (·.long == name) with
  | none => .error .misuse
  | some o => if attached?.isSome && !o.takesValue then .error .misuse else .ok (o, attached?)

/-- Options that are written as letters. One that lacks its value comes last. -/
def readLetters (known : List Opt) (g : Given) : List Char → Except Stop (Given × Option Opt)
  | [] => .ok (g, none)
  | c :: rest =>
    match known.find? (·.short? == some c) with
    | none => .error .misuse
    | some o =>
      if !o.takesValue then do readLetters known (← g.withOption o "") rest
      else
        match rest with
        | [] => .ok (g, some o)
        | '=' :: value => do return (← g.withOption o (String.ofList value), none)
        | value => do return (← g.withOption o (String.ofList value), none)

/-- What one argument gives, and the option whose value is still to come. -/
def readOption (known : List Opt) (g : Given) (text : String) : Except Stop (Given × Option Opt) :=
  match text.toList with
  | '-' :: '-' :: name => do
    match ← readLong known (String.ofList name) with
    | (o, some value) => return (← g.withOption o value, none)
    | (o, none) => if o.takesValue then return (g, some o) else return (← g.withOption o "", none)
  | '-' :: letters => readLetters known g letters
  | _ => .error .misuse

/-- Reads the arguments of a subcommand. `pending` is an option whose value comes next. -/
def readGiven (known : List Opt) (g : Given) (pending : Option Opt) :
    List String → Except Stop Given
  | [] => if pending.isSome then .error .misuse else .ok g
  | text :: rest =>
    match pending with
    | some o =>
      if looksLikeOption text && !o.takesAnything then .error .misuse
      else do readGiven known (← g.withOption o text) none rest
    | none =>
      if text == "--" then rest.foldlM Given.withPlain g
      else if looksLikeOption text then do
        let (g, pending) ← readOption known g text
        readGiven known g pending rest
      else do readGiven known (← g.withPlain text) none rest

structure Request where
  subcommand : Subcommand
  input : String
  given : Given
  deriving DecidableEq, Repr

/-- What a request for help asks about: the program, or one of its subcommands, of which help is
one. -/
def helpOn : List String → Stop
  | [] => .help
  | [name] => if name == "help" || (Subcommand.ofName? name).isSome then .help else .misuse
  | _ => .misuse

/-- Reads a whole command line: options for all subcommands, then the name of one and its arguments.
-/
def Request.read (general : Given) : List String → Except Stop Request
  | [] => .error .misuse
  | text :: rest =>
    if text == "--" then .error .misuse
    else if looksLikeOption text then do
      let (g, _) ← readOption [.verbose, .help, .version] general text
      Request.read g rest
    else if text == "help" then .error (helpOn rest)
    else
      match Subcommand.ofName? text with
      | none => .error .misuse
      | some sub => do
        let given ← readGiven sub.options {} none rest
        match given.plain with
        | [input] => return { subcommand := sub, input, given }
        | _ => .error .misuse

end ArrayKernel.Program
