import CssFallback.Settings

/-!
# Command line arguments

Flags start with a hyphen, and are short or long. Short ones may be written together;
one that takes a value takes what is left of its argument, or else the next argument,
whatever that looks like. After `--` there are no more flags. Arguments that are no flags
are free: there may be one, the input.
-/

set_option autoImplicit false

namespace CssFallback

inductive Flag where
  | output
  | config
  /-- Forces a switch off. -/
  | off (switch : Switch)
  | help
  | version
  deriving DecidableEq, Repr

namespace Flag

def all : List Flag :=
  [.output, .config, .off .overlay, .off .clip, .off .pairs, .help, .version]

def long : Flag → Text
  | .output => "output".toList
  | .config => "config".toList
  | .off .overlay => "no-overlay-fallback".toList
  | .off .clip => "no-clip-fallback".toList
  | .off .pairs => "no-double-values".toList
  | .help => "help".toList
  | .version => "version".toList

def short? : Flag → Option Char
  | .output => some 'o'
  | .config => some 'c'
  | .off _ => none
  | .help => some 'h'
  | .version => some 'V'

def takesValue : Flag → Bool
  | .output | .config => true
  | _ => false

/-- A name of one character is a short one, with one hyphen or with two. -/
def ofName? (name : Text) : Option Flag :=
  all.find? fun f => f.long == name || f.short?.map (fun c => [c]) == some name

theorem of_name_long (f : Flag) : ofName? f.long = some f := by
  cases f with
  | off s => cases s <;> decide
  | _ => decide

theorem of_name_short {f : Flag} {c : Char} (h : f.short? = some c) : ofName? [c] = some f := by
  cases f <;> cases h <;> decide

end Flag

namespace Arguments

inductive Fault where
  | unrecognized (name : Text)
  | valueMissing (name : Text)
  | valueUnexpected (name : Text)
  | repeated (flag : Flag)
  deriving DecidableEq, Repr

def Fault.message : Fault → Text
  | .unrecognized name => "Unrecognized option: '".toList ++ name ++ ['\'']
  | .valueMissing name => "Argument to option '".toList ++ name ++ "' missing".toList
  | .valueUnexpected name => "Option '".toList ++ name ++ "' does not take an argument".toList
  | .repeated flag => "Option '".toList ++ flag.long ++ "' given more than once".toList

structure Given where
  flag : Flag
  value : Text
  deriving DecidableEq, Repr

/-- The flags of one argument. The last one may still lack its value, which is the next
argument then; its name is kept as it is written. -/
structure Group where
  complete : List Given
  lacking : Option (Flag × Text)

def shortGroup : Text → Except Fault Group
  | [] => .ok ⟨[], none⟩
  | c :: rest =>
    match Flag.ofName? [c] with
    | none => .error (.unrecognized [c])
    | some f =>
      if f.takesValue then
        match rest with
        | [] => .ok ⟨[], some (f, [c])⟩
        | _ => .ok ⟨[⟨f, rest⟩], none⟩
      else (shortGroup rest).map fun g => ⟨⟨f, []⟩ :: g.complete, g.lacking⟩

def longGroup (t : Text) : Except Fault Group :=
  let name := t.takeWhile (· ≠ '=')
  match Flag.ofName? name, t.dropWhile (· ≠ '=') with
  | none, _ => .error (.unrecognized name)
  | some f, [] => .ok (if f.takesValue then ⟨[], some (f, name)⟩ else ⟨[⟨f, []⟩], none⟩)
  | some f, _ :: value =>
    if f.takesValue then .ok ⟨[⟨f, value⟩], none⟩ else .error (.valueUnexpected name)

structure Sorted where
  given : List Given
  free : List Text
  deriving DecidableEq, Repr

namespace Sorted

def addGiven (gs : List Given) (s : Sorted) : Sorted := ⟨gs ++ s.given, s.free⟩

def addFree (t : Text) (s : Sorted) : Sorted := ⟨s.given, t :: s.free⟩

def count (s : Sorted) (f : Flag) : Nat := s.given.countP fun g => g.flag == f

def has (s : Sorted) (f : Flag) : Bool := s.given.any fun g => g.flag == f

def value? (s : Sorted) (f : Flag) : Option Text :=
  (s.given.find? fun g => g.flag == f).map Given.value

end Sorted

/-- The flags of an argument, or nothing if the argument is free. -/
def group? : Text → Option (Except Fault Group)
  | '-' :: '-' :: name => some (longGroup name)
  | '-' :: c :: rest => some (shortGroup (c :: rest))
  | _ => none

def sort : List Text → Except Fault Sorted
  | [] => .ok ⟨[], []⟩
  | argument :: rest =>
    if argument = ['-', '-'] then .ok ⟨[], rest⟩
    else
      match group? argument with
      | none => (sort rest).map (Sorted.addFree argument)
      | some (.error fault) => .error fault
      | some (.ok ⟨complete, none⟩) => (sort rest).map (Sorted.addGiven complete)
      | some (.ok ⟨complete, some (flag, name)⟩) =>
        match rest with
        | [] => .error (.valueMissing name)
        | value :: later => (sort later).map (Sorted.addGiven (complete ++ [⟨flag, value⟩]))

/-- The arguments, each flag of which may be given once. -/
def read (arguments : List Text) : Except Fault Sorted :=
  match sort arguments with
  | .error fault => .error fault
  | .ok s =>
    match Flag.all.find? fun f => 1 < s.count f with
    | some f => .error (.repeated f)
    | none => .ok s

end Arguments

/-!
## What the arguments ask for

Help comes before the version, and both before anything else. A request names the
stylesheet, the place of the result and a file of options; its limits say which switches
the flags force off, whatever the file says.
-/

structure Request where
  /-- Without it, the standard input. -/
  input : Option Text
  /-- Without it, the standard output. -/
  output : Option Text
  config : Option Text
  /-- A switch that is off here is forced off. -/
  limits : Options
  deriving DecidableEq, Repr

inductive Command where
  | help
  | version
  | run (request : Request)
  deriving DecidableEq, Repr

namespace Command

inductive Fault where
  | badArguments (fault : Arguments.Fault)
  | severalInputs
  deriving DecidableEq, Repr

def ofSorted (s : Arguments.Sorted) : Except Fault Command :=
  let request := fun input =>
    Command.run ⟨input, s.value? .output, s.value? .config,
      .ofSwitches fun switch => !s.has (.off switch)⟩
  if s.has .help then .ok .help
  else if s.has .version then .ok .version
  else
    match s.free with
    | [] => .ok (request none)
    | [input] => .ok (request (if input = ['-'] then none else some input))
    | _ => .error .severalInputs

def ofArguments (arguments : List Text) : Except Fault Command :=
  match Arguments.read arguments with
  | .ok s => ofSorted s
  | .error fault => .error (.badArguments fault)

end Command

namespace Request

def overrides (r : Request) : Json.Fields :=
  (Switch.all.filter fun s => !r.limits.isOn s).map fun s => (s.name, .bool false)

/-- The fields of a file of options with those that the flags set. No file, and `null` in
the file, give no fields; anything else has to be an object. -/
def merged? (r : Request) : Option Json → Option Json.Fields
  | none => some (Json.Fields.insertAll [] r.overrides)
  | some .null => some (Json.Fields.insertAll [] r.overrides)
  | some (.object fields) => some (Json.Fields.insertAll fields r.overrides)
  | some _ => none

end Request

/-!
## The usage text

A summary, and a row for each flag: its names, the name of its value, and what it does.
What it does starts in a fixed column, on a line of its own if the names reach that far.
-/

def programName : Text := "overflow-fallback".toList

def programVersion : Text := "0.1.0".toList

namespace Usage

def summary : Text :=
  ("Usage: overflow-fallback [OPTIONS] [INPUT]\n\n" ++
    "Inserts fallbacks before `overflow: clip` and `overflow: overlay`.\n" ++
    "Reads INPUT (or stdin when INPUT is absent or `-`) and writes CSS to stdout.\n" ++
    "Set RUST_LOG=debug to see every inserted fallback.").toList

def description : Flag → Text
  | .output => "Write the result to PATH".toList
  | .config => "Load options from a JSON file".toList
  | .off .overlay => "Do not insert `auto` before `overlay`".toList
  | .off .clip => "Do not insert `hidden` before `clip`".toList
  | .off .pairs => "Leave two-keyword `overflow` values alone".toList
  | .help => "Print this help".toList
  | .version => "Print the version".toList

def column : Nat := 24

def spaces (n : Nat) : Text := List.replicate n ' '

def names (f : Flag) : Text :=
  let short :=
    match f.short? with
    | some c => ['-', c, ',', ' ']
    | none => spaces 4
  spaces 4 ++ short ++ ['-', '-'] ++ f.long ++ [' '] ++
    (if f.takesValue then "PATH".toList else [])

def row (f : Flag) : Text :=
  let start := names f
  let gap :=
    if start.length < column then spaces (column - start.length) else '\n' :: spaces column
  start ++ gap ++ description f

def text : Text :=
  summary ++ "\n\nOptions:\n".toList ++ Text.joinedBy ['\n'] (Flag.all.map row) ++ ['\n']

end Usage

end CssFallback
