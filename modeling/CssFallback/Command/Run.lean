import CssFallback.Command.Files
import CssFallback.Command.Arguments
import CssFallback.Stylesheet.Splice

/-!
# Running a command

A run is a row of steps on a host that reads and writes files. Options are read and checked
before the stylesheet is, and nothing is written before all of the result is known.
-/

set_option autoImplicit false

namespace CssFallback

inductive Failure where
  | badCommand (fault : Command.Fault)
  | configUnread (path : Text) (fault : Files.Fault)
  | configNotJson (path : Text) (fault : Json.Fault)
  | configNotAnObject
  | badOptions (fault : Options.Fault)
  /-- The path is missing if the input is the standard one. -/
  | inputUnread (path : Option Text) (fault : Files.Fault)
  | badSource (error : StrayBrace)
  | outputUnwritten (path : Text) (fault : Files.Fault)

namespace Command.Fault

def message : Fault → Text
  | .badArguments fault => fault.message ++ "\n\n".toList ++ Usage.text
  | .severalInputs => "only one input may be given".toList

end Command.Fault

namespace Json.Fault

def message : Fault → Text
  | .endOfText => "the text ends too early".toList
  | .malformed => "the text is malformed".toList

end Json.Fault

namespace Options.Fault

def causes (fault : Fault) : List Text :=
  match fault with
  | .notABoolean value => fault.message?.toList ++ [typeText value]
  | .notJson fault => [fault.message]
  | _ => fault.message?.toList

end Options.Fault

namespace Failure

def headline : Failure → Text
  | .badCommand fault => fault.message
  | .configUnread path _ => "failed to read config ".toList ++ path
  | .configNotJson path _ => "config ".toList ++ path ++ " is not valid JSON".toList
  | .configNotAnObject => "config file must contain a JSON object".toList
  | .badOptions _ => "invalid overflow-fallback options".toList
  | .inputUnread path _ => "failed to read ".toList ++ path.getD "stdin".toList
  | .badSource _ => "failed to parse stylesheet".toList
  | .outputUnwritten path _ => "failed to write ".toList ++ path

def causes : Failure → List Text
  | .badCommand _ => []
  | .configUnread _ fault => [fault.message]
  | .configNotJson _ fault => [fault.message]
  | .configNotAnObject => []
  | .badOptions fault => fault.causes
  | .inputUnread _ fault => [fault.message]
  | .badSource error => [error.message]
  | .outputUnwritten _ fault => [fault.message]

/-- Several causes are numbered from zero. -/
def causeLines (causes : List Text) : List Text :=
  match causes with
  | [cause] => ["    ".toList ++ cause]
  | _ =>
    causes.zipIdx.map fun c => "    ".toList ++ Text.digits 10 c.2 ++ ": ".toList ++ c.1

def report (f : Failure) : Text :=
  let causes :=
    if f.causes = [] then []
    else "\n\nCaused by:\n".toList ++ Text.joinedBy ['\n'] (causeLines f.causes)
  "Error: ".toList ++ f.headline ++ causes ++ ['\n']

end Failure

class Reads (m : Type → Type) where
  readFile : Text → m (Except Files.Fault ByteArray)

/-- What a run can ask of the system that it runs on. -/
class Host (m : Type → Type) extends Reads m where
  /-- The standard input, to its end. -/
  takeInput : m ByteArray
  print : Text → m Unit
  writeFile : Text → ByteArray → m (Except Files.Fault Unit)

section
variable {m : Type → Type} [Monad m] {ε α : Type}

/-- A step that may fail, with what its failure means for the run. -/
def attempt (failure : ε → Failure) (x : m (Except ε α)) : ExceptT Failure m α :=
  ExceptT.mk ((Except.mapError failure) <$> x)

def check (failure : ε → Failure) (x : Except ε α) : ExceptT Failure m α := attempt failure (pure x)

namespace Request

def decode (content : Except Files.Fault ByteArray) : Except Files.Fault Text :=
  match content with
  | .error fault => .error fault
  | .ok bytes =>
    match Text.ofUtf8? bytes with
    | some t => .ok t
    | none => .error .notText

def readConfig [Reads m] (r : Request) : ExceptT Failure m (Option Json) :=
  match r.config with
  | none => return none
  | some path => do
    let t ← attempt (.configUnread path) (decode <$> Reads.readFile path)
    let value ← check (.configNotJson path) (Json.parse t)
    return some value

def readOptions [Reads m] (r : Request) : ExceptT Failure m Options := do
  match r.merged? (← r.readConfig) with
  | none => throw .configNotAnObject
  | some fields => check .badOptions (Options.ofFields fields)

def readInput [Host m] (r : Request) : ExceptT Failure m Text :=
  match r.input with
  | some path => attempt (.inputUnread path) (decode <$> Reads.readFile path)
  | none => attempt (.inputUnread none) ((fun bytes => decode (.ok bytes)) <$> Host.takeInput)

def writeOutput [Host m] (r : Request) (css : Text) : ExceptT Failure m Unit :=
  match r.output with
  | some path => attempt (.outputUnwritten path) (Host.writeFile path css.toUtf8)
  | none => ExceptT.lift (Host.print css)

def run [Host m] (r : Request) : ExceptT Failure m Unit := do
  let o ← r.readOptions
  let css ← r.readInput
  let text ← check .badSource (addFallbacks o css)
  r.writeOutput text

end Request

def Command.perform [Host m] (arguments : List Text) : ExceptT Failure m Unit := do
  match ← check .badCommand (ofArguments arguments) with
  | .help => ExceptT.lift (Host.print (Usage.text ++ ['\n']))
  | .version => ExceptT.lift (Host.print (programName ++ ' ' :: programVersion ++ ['\n']))
  | .run request => request.run

end

/-! ## Files that stay as they are -/

instance : Reads (ReaderM Files) where
  readFile path := do return (← read).read path

section
variable {α β : Type} (files : Files)

theorem look_bind (x : ExceptT Failure (ReaderM Files) α) (f : α → ExceptT Failure (ReaderM Files) β) :
    (x >>= f).run.run files = (x.run.run files).bind fun a => (f a).run.run files := by
  rw [ExceptT.run_bind, ReaderT.run_bind]
  cases x.run.run files <;> rfl

end

namespace Request

def loadConfig (r : Request) (files : Files) : Except Failure (Option Json) :=
  (r.readConfig : ExceptT Failure (ReaderM Files) (Option Json)).run.run files

def options (r : Request) (files : Files) : Except Failure Options :=
  (r.readOptions : ExceptT Failure (ReaderM Files) Options).run.run files

variable (r : Request) (files : Files)

theorem load_config_eq : r.loadConfig files =
    match r.config with
    | none => .ok none
    | some path => ((decode (files.read path)).mapError (.configUnread path)).bind fun t =>
        ((Json.parse t).mapError (.configNotJson path)).map some := by
  obtain ⟨input, output, config, limits⟩ := r
  cases config with
  | none => rfl
  | some path =>
    simp only [loadConfig, readConfig, look_bind]
    congr 1

theorem options_eq : r.options files = (r.loadConfig files).bind fun config =>
    match r.merged? config with
    | none => .error .configNotAnObject
    | some fields => (Options.ofFields fields).mapError .badOptions := by
  rw [options, readOptions, look_bind]
  congr 1
  funext config
  cases r.merged? config <;> rfl

end Request

/-! ## Files that are written -/

structure World where
  /-- What is still to be read from the standard input. -/
  stdin : ByteArray
  stdout : Text
  files : Files

instance : Host (StateM World) where
  readFile path := do return (← get).files.read path
  takeInput := modifyGet fun w => (w.stdin, { w with stdin := .empty })
  print t := modify fun w => { w with stdout := w.stdout ++ t }
  writeFile path content := do
    let w ← get
    match w.files.write path content with
    | .ok files =>
      set { w with files := files }
      return .ok ()
    | .error fault => return .error fault

/-- A step of a run. One that fails leaves a world as well. -/
abbrev Effect := ExceptT Failure (StateM World)

def Effect.on {α : Type} (x : Effect α) (w : World) : Except Failure α × World := x.run.run w

structure Outcome where
  code : Nat
  stdout : Text
  stderr : Text
  files : Files

/-- Runs the program. What a failure leaves is what the steps in front of it left. -/
def Command.execute (arguments : List Text) (stdin : ByteArray) (files : Files) : Outcome :=
  match Effect.on (perform arguments) ⟨stdin, [], files⟩ with
  | (.ok (), w) => ⟨0, w.stdout, [], w.files⟩
  | (.error failure, w) => ⟨1, w.stdout, failure.report, w.files⟩

end CssFallback
