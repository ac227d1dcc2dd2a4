import Pgify.Model.Calls

/-! # The command line program

`main` takes its options from the command line and its input from a file, or else from the standard
input, and prints the translation. What `getopt_long` returns and what opening a file gives are
parameters.
-/

namespace Pgify.Model

/-! ## Switches -/

/-- The values of `getopt_long`; `file` comes with `optarg`. -/
inductive Switch where
  | file (optarg : String) | help | debug | escape | lowercase | version | unknown
deriving DecidableEq, Repr

/-- The variables that the switches set. -/
structure Switches where
  fName : Option String := none
  debug : Bool := false
  escape : Bool := true
  lowercase : Bool := true
deriving DecidableEq, Repr

def Switches.pgoptions (set : Switches) : ℕ :=
  (if set.debug then pgifyDebug else 0) ||| (if set.escape then pgifyEscape else 0) |||
    (if set.lowercase then pgifyLowerid else 0)

/-- Where decoding ends: with a file name and options, or with a message and the status of `exit`. -/
inductive Decoded where
  | pgoptions (fName : Option String) (pgoptions : ℕ)
  | version
  | usage (status : ℕ)
deriving DecidableEq, Repr

def exitSuccess : ℕ := 0
def exitFailure : ℕ := 1

def decodeSwitches (set : Switches) : List Switch → Decoded
  | [] => .pgoptions set.fName set.pgoptions
  | .version :: _ => .version
  | .help :: _ => .usage exitSuccess
  | .file optarg :: rest => decodeSwitches { set with fName := some optarg } rest
  | .debug :: rest => decodeSwitches { set with debug := true } rest
  | .escape :: rest => decodeSwitches { set with escape := false } rest
  | .lowercase :: rest => decodeSwitches { set with lowercase := false } rest
  | .unknown :: _ => .usage exitFailure

def usage (programName : String) : String :=
  s!"{programName} - A C library to transform MySQL SQL dialect to PostgreSQL.\n" ++
    s!"Usage: {programName} [OPTION]... [FILE]...\n" ++
    "Options:\n" ++
    "  -f [file],                 use [file] for input instead of stdin\n" ++
    "  -h, --help                 display this help and exit\n" ++
    "  -V, --version              output version information and exit\n" ++
    "  -d, --debug                print debug statement structure to stderr\n" ++
    "  -e, --escape               convert backslash escapes to ANSI standards(default true)\n" ++
    "  -c, --lowercase            convert backtic quoted strings to lowercase(default true)\n"

/-! ## The standard input -/

def bufSize : ℕ := 2048

/-- What `fgets` puts into a buffer with some room: no more than to the end of the line. -/
def fgets : (room : ℕ) → List UInt8 → List UInt8 × List UInt8
  | 0, input => ([], input)
  | _, [] => ([], [])
  | room + 1, c :: input =>
    if c = '\n'.toUInt8 then ([c], input)
    else (c :: (fgets room input).1, (fgets room input).2)

/-- A buffer as a C string: what stands in front of the first NUL. -/
def cString (cbuf : List UInt8) : List UInt8 :=
  cbuf.takeWhile (· != 0)

/-- The loop over `fgets`, which needs one byte of the buffer for a NUL. -/
def readLoop (size : ℕ) : (fuel : ℕ) → (buffer input : List UInt8) → List UInt8
  | fuel + 1, buffer, c :: input =>
    readLoop size fuel (buffer ++ cString (fgets (size - 1) (c :: input)).1)
      (fgets (size - 1) (c :: input)).2
  | _, buffer, _ => buffer

/-- The bytes that come, and whether reading fails behind them. -/
structure Stdin where
  bytes : List UInt8
  ferror : Bool

/-- No result is `exit(EXIT_FAILURE)`. -/
def readStdin (stdin : Stdin) : Option (List UInt8) :=
  if stdin.ferror then none else some (readLoop bufSize stdin.bytes.length [] stdin.bytes)

/-! ## The program -/

/-- What the program prints and the status that it exits with. -/
structure Exit where
  stdout : String
  status : ℕ
deriving DecidableEq, Repr

/-- Translate the input with a walker state of its own. A walk without a result ends the process
before it exits. -/
def translateInput (rt : Runtime) (front : Frontend (List UInt8)) (pgoptions : ℕ)
    (input : List UInt8) : Option Exit :=
  (front.pgifyStringS rt input (walkerstateNew pgoptions)).map fun (pg, _) => ⟨pg, exitSuccess⟩

/-- A file that cannot be opened, and no file name, leave the standard input. -/
def main (rt : Runtime) (front : Frontend (List UInt8)) (programName : String)
    (readFile : String → Option (List UInt8)) (argv : List Switch) (stdin : Stdin) : Option Exit :=
  match decodeSwitches {} argv with
  | .version => some ⟨"pgify 0.1.0\n", exitSuccess⟩
  | .usage status => some ⟨usage programName, status⟩
  | .pgoptions fName pgoptions =>
    match fName.bind readFile with
    | some input => translateInput rt front pgoptions input
    | none =>
      match readStdin stdin with
      | none => some ⟨"", exitFailure⟩
      | some sql =>
        if sql.length < 1 then some ⟨"", exitSuccess⟩ else translateInput rt front pgoptions sql

end Pgify.Model
