import CssFallback.Json.Reader
import CssFallback.Overflow

/-!
# Options from JSON

Options are given as an object with a field for each switch. A field that is missing is
on, other fields mean nothing, and `null` stands for the empty object. Two fields that
were once options are refused.
-/

set_option autoImplicit false

namespace CssFallback

inductive Switch where
  | clip
  | overlay
  | pairs
  deriving DecidableEq, Repr

namespace Switch

def all : List Switch := [.clip, .overlay, .pairs]

theorem mem_all (s : Switch) : s ∈ all := by cases s <;> decide

def name : Switch → Text
  | .clip => "addClipFallback".toList
  | .overlay => "addOverlayFallback".toList
  | .pairs => "operateOnDoubleValues".toList

theorem name_injective {s t : Switch} (h : s.name = t.name) : s = t := by
  cases s <;> cases t <;> revert h <;> decide

end Switch

namespace Options

def isOn (o : Options) : Switch → Bool
  | .clip => o.clip
  | .overlay => o.overlay
  | .pairs => o.pairs

def ofSwitches (isOn : Switch → Bool) : Options := ⟨isOn .overlay, isOn .clip, isOn .pairs⟩

inductive Fault where
  /-- They have a field that is no longer an option. -/
  | removed
  /-- They are neither an object nor null. -/
  | notAnObject (value : Json)
  /-- The first switch, by name, that is not a boolean. -/
  | notABoolean (value : Json)
  /-- Their text is not JSON. -/
  | notJson (fault : Json.Fault)

namespace Fault

def typeText (value : Json) : Text :=
  "invalid type: ".toList ++ value.exhibit ++ ", expected a boolean".toList

/-- There is no message for a text that is not JSON: only what sort of fault it has. -/
def message? : Fault → Option Text
  | .removed => some <|
    "the `add` and `upgradeHiddenToClip` options are removed. ".toList ++
      "Use the `postcss-overflow-clip` plugin instead.".toList
  | .notAnObject value => some ("options must be a JSON object, got ".toList ++ value.describe)
  | .notABoolean value => some ("invalid options: ".toList ++ typeText value)
  | .notJson _ => none

end Fault

/-- The names of options that are refused. -/
def removedNames : List Text := ["add".toList, "upgradeHiddenToClip".toList]

/-- The value of the first switch that is set to something else than a boolean. -/
def firstBad? (fields : Json.Fields) : Option Json :=
  Switch.all.findSome? fun s =>
    match fields.find? s.name with
    | none => none
    | some (.bool _) => none
    | some value => some value

def ofFields (fields : Json.Fields) : Except Fault Options :=
  if removedNames.any fields.contains then .error .removed
  else
    match firstBad? fields with
    | some value => .error (.notABoolean value)
    | none =>
      .ok <| ofSwitches fun s =>
        match fields.find? s.name with
        | some (.bool value) => value
        | _ => true

def ofJson : Json → Except Fault Options
  | .null => .ok all
  | .object fields => ofFields fields
  | value => .error (.notAnObject value)

def ofText (t : Text) : Except Fault Options :=
  match Json.parse t with
  | .ok value => ofJson value
  | .error fault => .error (.notJson fault)

def jsonText (o : Options) : Text :=
  let field := fun (s : Switch) =>
    '"' :: s.name ++ "\":".toList ++ (if o.isOn s then "true" else "false").toList
  '\x7b' :: Text.joinedBy [','] ([Switch.overlay, .clip, .pairs].map field) ++ ['\x7d']

end Options

inductive Settings where
  | value (json : Json)
  | text (t : Text)

def Settings.options : Settings → Except Options.Fault Options
  | .value json => Options.ofJson json
  | .text t => Options.ofText t

end CssFallback
