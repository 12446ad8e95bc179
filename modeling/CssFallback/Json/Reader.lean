import CssFallback.Json.Number
import CssFallback.Token.Character

/-!
# Reading JSON

A text is read from left to right, and the first thing wrong with it counts. Arrays and
objects may be nested 127 deep.
-/

set_option autoImplicit false

namespace CssFallback

/-!
## JSON values

The fields of an object are sorted by name, and no name occurs twice.
-/

inductive Json where
  | null
  | bool (value : Bool)
  | number (value : Json.Number)
  | string (value : Text)
  | array (items : List Json)
  | object (fields : List (Text × Json))
  deriving Repr

namespace Json

def precedes : Text → Text → Bool
  | _, [] => false
  | [], _ :: _ => true
  | c :: s, d :: t => c.toNat < d.toNat || (c == d && precedes s t)

abbrev Fields := List (Text × Json)

namespace Fields

def insert (name : Text) (value : Json) : Fields → Fields
  | [] => [(name, value)]
  | field :: rest =>
    if name = field.1 then (name, value) :: rest
    else if precedes name field.1 then (name, value) :: field :: rest
    else field :: insert name value rest

/-- Sets fields one after the other: of those with one name the last counts. -/
def insertAll (fields new : Fields) : Fields :=
  new.foldl (fun fields field => insert field.1 field.2 fields) fields

def find? (name : Text) : Fields → Option Json
  | [] => none
  | field :: rest => if name = field.1 then some field.2 else find? name rest

def contains (fields : Fields) (name : Text) : Bool := (fields.find? name).isSome

theorem find_insert_self (name : Text) (value : Json) (fields : Fields) :
    find? name (insert name value fields) = some value := by
  induction fields with
  | nil => simp [insert, find?]
  | cons field rest ih =>
    rw [insert]
    split
    · simp [find?]
    · split
      · simp [find?]
      · rename_i h _
        simp [find?, h, ih]

theorem find_insert_of_ne {name other : Text} (h : other ≠ name) (value : Json)
    (fields : Fields) : find? other (insert name value fields) = find? other fields := by
  induction fields with
  | nil => simp [insert, find?, h]
  | cons field rest ih =>
    rw [insert]
    split
    · rename_i hn
      simp [find?, h, ← hn]
    · split
      · simp [find?, h]
      · simp [find?, ih]

end Fields

def describe : Json → Text
  | .null => "null".toList
  | .bool _ => "a boolean".toList
  | .number _ => "a number".toList
  | .string _ => "a string".toList
  | .array _ => "an array".toList
  | .object _ => "an object".toList

def exhibit : Json → Text
  | .null => "null".toList
  | .bool value => "boolean `".toList ++ (if value then "true" else "false").toList ++ "`".toList
  | .number (.integer value) => "integer `".toList ++ (Number.integer value).text ++ "`".toList
  | .number value => "floating point `".toList ++ value.text ++ "`".toList
  | .string value => "string ".toList ++ value.quoted
  | .array _ => "sequence".toList
  | .object _ => "map".toList

end Json

/-! ## Reading -/

namespace Json

def skipSpace (t : Text) : Text :=
  t.dropWhile fun c => c == ' ' || c == '\n' || c == '\t' || c == '\r'

def expect : (word : Text) → Text → Except Fault Text
  | [], t => .ok t
  | _ :: _, [] => .error .endOfText
  | w :: word, c :: rest => if w = c then expect word rest else .error .malformed

inductive StringPart where
  | plain
  /-- After a backslash. -/
  | escape
  /-- In an escaped code unit with `left` digits to come, after `high` if that is the
  first half of a pair. -/
  | unit (left value : Nat) (high : Option Nat)
  /-- After the first half of a pair. -/
  | half (high : Nat)
  /-- After the first half of a pair and a backslash. -/
  | halfEscape (high : Nat)

def escapedCharacter? (c : Char) : Option Char :=
  match c with
  | '"' => some '"'
  | '\\' => some '\\'
  | '/' => some '/'
  | 'b' => some '\x08'
  | 'f' => some '\x0c'
  | 'n' => some '\n'
  | 'r' => some '\r'
  | 't' => some '\t'
  | _ => none

def isHighHalf (unit : Nat) : Bool := 0xD800 ≤ unit && unit < 0xDC00

def isLowHalf (unit : Nat) : Bool := 0xDC00 ≤ unit && unit < 0xE000

/-- The end of the text counts before its digits if fewer than four bytes are left. -/
def tooShort (t : Text) : Bool := Text.byteSize (t.take 4) < 4

def readString : StringPart → Text → Except Fault (Text × Text)
  | _, [] => .error .endOfText
  | .plain, c :: rest =>
    if c = '"' then .ok ([], rest)
    else if c = '\\' then readString .escape rest
    else if c < ' ' then .error .malformed
    else (readString .plain rest).map fun s => (c :: s.1, s.2)
  | .escape, c :: rest =>
    match escapedCharacter? c with
    | some d => (readString .plain rest).map fun s => (d :: s.1, s.2)
    | none =>
      if c ≠ 'u' then .error .malformed
      else if tooShort rest then .error .endOfText
      else readString (.unit 4 0 none) rest
  | .unit left value high, c :: rest =>
    let unit := 16 * value + hexValue c
    if !isHexDigit c then .error .malformed
    else if 1 < left then readString (.unit (left - 1) unit high) rest
    else
      match high with
      | none =>
        if isLowHalf unit then .error .malformed
        else if isHighHalf unit then readString (.half unit) rest
        else (readString .plain rest).map fun s => (Char.ofNat unit :: s.1, s.2)
      | some high =>
        if isLowHalf unit then
          let value := 0x10000 + (high - 0xD800) * 0x400 + (unit - 0xDC00)
          (readString .plain rest).map fun s => (Char.ofNat value :: s.1, s.2)
        else .error .malformed
  | .half high, c :: rest =>
    if c = '\\' then readString (.halfEscape high) rest else .error .malformed
  | .halfEscape high, c :: rest =>
    if c ≠ 'u' then .error .malformed
    else if tooShort rest then .error .endOfText
    else readString (.unit 4 0 (some high)) rest

mutual

/-- A value and what follows it. Each call takes one of `fuel`, and `depth` more arrays
and objects may be opened. -/
def readValue : (fuel depth : Nat) → Text → Except Fault (Json × Text)
  | 0, _, _ => .error .endOfText
  | fuel + 1, depth, t =>
    match skipSpace t with
    | [] => .error .endOfText
    | 'n' :: rest => (expect "ull".toList rest).map fun t => (.null, t)
    | 't' :: rest => (expect "rue".toList rest).map fun t => (.bool true, t)
    | 'f' :: rest => (expect "alse".toList rest).map fun t => (.bool false, t)
    | '"' :: rest => (readString .plain rest).map fun s => (.string s.1, s.2)
    | '[' :: rest =>
      match depth with
      | 0 => .error .malformed
      | depth + 1 => (readItems fuel depth true rest).map fun s => (.array s.1, s.2)
    | '\x7b' :: rest =>
      match depth with
      | 0 => .error .malformed
      | depth + 1 =>
        (readFields fuel depth true rest).map fun s => (.object (Fields.insertAll [] s.1), s.2)
    | c :: rest =>
      if c = '-' ∨ c.isDigit then (Number.read (c :: rest)).map fun s => (.number s.1, s.2)
      else .error .malformed

/-- The items of an array up to its closing bracket; `first` if none has been read. -/
def readItems : (fuel depth : Nat) → (first : Bool) → Text → Except Fault (List Json × Text)
  | 0, _, _, _ => .error .endOfText
  | fuel + 1, depth, first, t =>
    let item := fun t => do
      let (value, rest) ← readValue fuel depth t
      let (items, following) ← readItems fuel depth false rest
      .ok (value :: items, following)
    match skipSpace t with
    | [] => .error .endOfText
    | ']' :: rest => .ok ([], rest)
    | c :: rest =>
      if first then item (c :: rest)
      else if c = ',' then
        if (skipSpace rest).head? = some ']' then .error .malformed else item rest
      else .error .malformed

def readFields : (fuel depth : Nat) → (first : Bool) → Text → Except Fault (Fields × Text)
  | 0, _, _, _ => .error .endOfText
  | fuel + 1, depth, first, t =>
    let field := fun t => do
      match skipSpace t with
      | [] => .error .endOfText
      | '"' :: rest =>
        let (name, afterName) ← readString .plain rest
        match skipSpace afterName with
        | [] => .error .endOfText
        | ':' :: beforeValue =>
          let (value, rest) ← readValue fuel depth beforeValue
          let (fields, following) ← readFields fuel depth false rest
          .ok ((name, value) :: fields, following)
        | _ => .error .malformed
      | _ => .error .malformed
    match skipSpace t with
    | [] => .error .endOfText
    | '\x7d' :: rest => .ok ([], rest)
    | c :: rest =>
      if first then field (c :: rest)
      else if c = ',' then field rest
      else .error .malformed

end

def parse (t : Text) : Except Fault Json :=
  match readValue (2 * t.length + 2) 127 t with
  | .error fault => .error fault
  | .ok (value, rest) => if skipSpace rest = [] then .ok value else .error .malformed

end Json

end CssFallback
