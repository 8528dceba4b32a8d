import Carving.Bytes.OsText
import Carving.Format

/-!
# Options of a run

The arguments of a run are flags, and options that take a value. A value follows its option as the
next argument, or in the same one: behind an equals sign, or right behind a short option. Flags of
one letter may stand together. Arguments are refused that are unknown, given too often, incomplete
or contradictory. Paths may be any texts, but a format and a count must be strings.
-/

namespace Carving.Console

inductive Input
  | file (path : OsText)
  | directory (path : OsText)
  deriving DecidableEq, Repr

structure Options where
  input : Input
  output : OsText
  verbosity : Nat
  formats : List Format
  maxChunks : Nat
  carve : Bool
  commands : Bool
  dryRun : Bool
  force : Bool
  deriving DecidableEq, Repr

inductive Valued
  | file
  | directory
  | output
  | format
  | maxChunks
  deriving DecidableEq, Repr

inductive Flag
  | verbose
  | carve
  | commands
  | dryRun
  | force
  deriving DecidableEq, Repr

inductive Switch
  | valued (option : Valued)
  | flag (option : Flag)
  | help
  | version
  deriving DecidableEq, Repr

structure Given where
  file : Option OsText := none
  directory : Option OsText := none
  output : Option OsText := none
  maxChunks : Option Nat := none
  formats : List Format := []
  verbosity : Nat := 0
  carve : Bool := false
  commands : Bool := false
  dryRun : Bool := false
  force : Bool := false
  deriving DecidableEq, Repr

inductive Refusal
  | help
  | version
  | unusable
  deriving DecidableEq, Repr

def Switch.ofName? : String → Option Switch
  | "file" => some (.valued .file)
  | "directory" => some (.valued .directory)
  | "output" => some (.valued .output)
  | "format" => some (.valued .format)
  | "max-chunks" => some (.valued .maxChunks)
  | "verbose" => some (.flag .verbose)
  | "carve" => some (.flag .carve)
  | "commands" => some (.flag .commands)
  | "dry-run" => some (.flag .dryRun)
  | "force" => some (.flag .force)
  | "help" => some .help
  | "version" => some .version
  | _ => none

def Switch.ofLetter? : Char → Option Switch
  | 'f' => some (.valued .file)
  | 'd' => some (.valued .directory)
  | 'o' => some (.valued .output)
  | 'v' => some (.flag .verbose)
  | 'h' => some .help
  | 'V' => some .version
  | _ => none

def maxCount : Nat := capacity 8 - 1

/-- Reads a count: digits, which may follow a plus sign. -/
def parseCount? (text : String) : Option Nat :=
  let digits := match text.toList with
    | '+' :: rest => rest
    | chars => chars
  if digits.isEmpty || !digits.all Char.isDigit then none
  else
    let n := digits.foldl (fun n c => 10 * n + (c.toNat - '0'.toNat)) 0
    if n ≤ maxCount then some n else none

/-- The byte between an option and a value in one argument. -/
def equalsSign : UInt8 := 0x3D

namespace Given

/-- Gives a value that may be given once, and is not empty. -/
def once (earlier : Option OsText) (value : OsText) : Except Refusal (Option OsText) :=
  if earlier.isSome || value.isEmpty then .error .unusable else .ok (some value)

/-- Sets a flag that may be set once. -/
def raise (earlier : Bool) : Except Refusal Bool :=
  if earlier then .error .unusable else .ok true

def give (g : Given) (option : Valued) (value : OsText) : Except Refusal Given :=
  match option with
  | .file => do return { g with file := ← once g.file value }
  | .directory => do return { g with directory := ← once g.directory value }
  | .output => do return { g with output := ← once g.output value }
  | .maxChunks =>
    match g.maxChunks, value.string?.bind parseCount? with
    | none, some n => .ok { g with maxChunks := some n }
    | _, _ => .error .unusable
  | .format =>
    match value.string?.bind Format.ofName? with
    | some format => .ok { g with formats := g.formats ++ [format] }
    | none => .error .unusable

def set (g : Given) (option : Flag) : Except Refusal Given :=
  match option with
  | .verbose => .ok { g with verbosity := g.verbosity + 1 }
  | .carve => do return { g with carve := ← raise g.carve }
  | .commands => do return { g with commands := ← raise g.commands }
  | .dryRun => do return { g with dryRun := ← raise g.dryRun }
  | .force => do return { g with force := ← raise g.force }

/-- Reads the letters of an argument after its dash, and returns the option that still needs its
value. -/
def readLetters (g : Given) : OsText → Except Refusal (Given × Option Valued)
  | [] => .ok (g, none)
  | letter :: rest =>
    match Switch.ofLetter? (Char.ofUInt8 letter) with
    | none => .error .unusable
    | some .help => .error .help
    | some .version => .error .version
    | some (.flag option) => do readLetters (← g.set option) rest
    | some (.valued option) =>
      match rest with
      | [] => .ok (g, some option)
      | 0x3D :: value => do return (← g.give option value, none)
      | value => do return (← g.give option value, none)

/-- Reads an argument after its two dashes, and returns the option that still needs its value. -/
def readLong (g : Given) (text : OsText) : Except Refusal (Given × Option Valued) :=
  let name : OsText := text.takeWhile (· ≠ equalsSign)
  let value : Option OsText := match text.dropWhile (· ≠ equalsSign) with
    | [] => none
    | _ :: value => some value
  match name.string?.bind Switch.ofName?, value with
  | none, _ => .error .unusable
  | some (.flag option), none => do return (← g.set option, none)
  | some (.valued option), some value => do return (← g.give option value, none)
  | some (.valued option), none => .ok (g, some option)
  | some .help, none => .error .help
  | some .version, none => .error .version
  | some _, some _ => .error .unusable

/-- Reads the arguments in their order. The option before may still need its value. -/
def readAll (g : Given) (pending : Option Valued) : List OsText → Except Refusal Given
  | [] => if pending.isSome then .error .unusable else .ok g
  | argument :: rest =>
    match argument, pending with
    | [0x2D, 0x2D], none => if rest.isEmpty then .ok g else .error .unusable
    | [0x2D, 0x2D], some _ => .error .unusable
    | 0x2D :: 0x2D :: text, none => do
      let (g, pending) ← g.readLong text
      g.readAll pending rest
    | 0x2D :: letter :: letters, none => do
      let (g, pending) ← g.readLetters (letter :: letters)
      g.readAll pending rest
    | 0x2D :: _ :: _, some _ => .error .unusable
    | _, some option => do (← g.give option argument).readAll none rest
    | _, none => .error .unusable

def options (g : Given) : Except Refusal Options :=
  let run (input : Input) : Except Refusal Options :=
    if g.commands && !g.carve then .error .unusable
    else .ok {
      input := input
      output := g.output.getD "."
      verbosity := g.verbosity
      formats := g.formats
      maxChunks := g.maxChunks.getD 0
      carve := g.carve
      commands := g.commands
      dryRun := g.dryRun
      force := g.force }
  match g.file, g.directory with
  | some path, none => run (.file path)
  | none, some path => run (.directory path)
  | _, _ => .error .unusable

end Given

def Options.parse (arguments : List OsText) : Except Refusal Options := do
  (← Given.readAll {} none arguments).options

end Carving.Console
