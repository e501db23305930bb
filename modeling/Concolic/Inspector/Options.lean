/-!
# Options of the inspector

Flags have a short and a long name; short ones may be bundled after one dash.  What does not start
with a dash, or is a dash alone, is a free argument wherever it stands, and so is everything after
two dashes.  A long name of one letter means the short name.
-/

namespace Concolic.Inspector

inductive Flag where
  | smt
  | memory
  | help
deriving DecidableEq, Repr

namespace Flag

/-- In the order of the help text. -/
def all : List Flag := [.smt, .memory, .help]

def long : Flag → String
  | .smt => "smt"
  | .memory => "memory"
  | .help => "help"

def short : Flag → Char
  | .smt => 's'
  | .memory => 'm'
  | .help => 'h'

def ofShort? (c : Char) : Option Flag :=
  all.find? fun flag ↦ flag.short = c

/-- A name of a single byte is a short one. -/
def ofLong? (name : String) : Option Flag :=
  match name.toList with
  | [c] => if c.toNat < 128 then ofShort? c else none
  | _ => all.find? fun flag ↦ flag.long = name

end Flag

inductive OptionError where
  | unrecognized (name : String)
  | repeated (flag : Flag)
  | unexpectedArgument (name : String)
deriving DecidableEq, Repr

def OptionError.message : OptionError → String
  | .unrecognized name => s!"Unrecognized option: '{name}'"
  | .repeated flag => s!"Option '{flag.long}' given more than once"
  | .unexpectedArgument name => s!"Option '{name}' does not take an argument"

structure Options where
  flags : List Flag := []
  free : List String := []
deriving DecidableEq, Repr

namespace Options

def bundled : List Char → Except OptionError (List Flag)
  | [] => .ok []
  | c :: rest =>
    match Flag.ofShort? c with
    | none => .error (.unrecognized c.toString)
    | some flag => do return flag :: (← bundled rest)

/-- A long option as it stands after its two dashes. -/
def long (body : List Char) : Except OptionError Flag :=
  let name := String.ofList (body.takeWhile (· ≠ '='))
  match Flag.ofLong? name with
  | none => .error (.unrecognized name)
  | some flag => if body.contains '=' then .error (.unexpectedArgument name) else .ok flag

def collect : List String → Except OptionError Options
  | [] => .ok {}
  | argument :: rest =>
    match argument.toList with
    | ['-', '-'] => .ok { free := rest }
    | '-' :: '-' :: body => do
      let flag ← long body
      let later ← collect rest
      return { later with flags := flag :: later.flags }
    | '-' :: c :: body => do
      let flags ← bundled (c :: body)
      let later ← collect rest
      return { later with flags := flags ++ later.flags }
    | _ => do
      let later ← collect rest
      return { later with free := argument :: later.free }

/-- Every flag may be given once. -/
def parse (arguments : List String) : Except OptionError Options := do
  let options ← collect arguments
  match Flag.all.find? fun flag ↦ 1 < options.flags.count flag with
  | some flag => throw (.repeated flag)
  | none => return options

def has (options : Options) (flag : Flag) : Bool :=
  options.flags.contains flag

end Options

def usage (program : String) : String :=
  s!"Usage: {program} [options] [EXECUTION]\n\n" ++
    "Options:\n" ++
    "    -s, --smt           print the path condition as an SMT-LIB script\n" ++
    "    -m, --memory        print the final symbolic memory\n" ++
    "    -h, --help          print this help menu\n"

end Concolic.Inspector
