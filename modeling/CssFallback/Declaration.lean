import CssFallback.Text.Basic

/-!
# Declarations

A declaration keeps, beside its name and value, how it was written: the white space in
front of it and the separator. A declaration of a source also knows its place there; one
that was added does not.
-/

set_option autoImplicit false

namespace CssFallback

/-!
## Separators

A separator is what stands between the name and the value of a declaration: a colon,
with white space and comments around it. `plain` keeps the colon and the white space
next to it and drops the comments.
-/

namespace Separator

/-- The texts before and after the first colon outside comments. An unclosed comment
hides all that follows it. -/
def splitColonFrom : (inComment : Bool) → Text → Option (Text × Text)
  | _, [] => none
  | true, '*' :: '/' :: rest =>
    (splitColonFrom false rest).map fun s => ('*' :: '/' :: s.1, s.2)
  | true, c :: rest => (splitColonFrom true rest).map fun s => (c :: s.1, s.2)
  | false, '/' :: '*' :: rest =>
    (splitColonFrom true rest).map fun s => ('/' :: '*' :: s.1, s.2)
  | false, c :: rest =>
    if c = ':' then some ([], rest)
    else (splitColonFrom false rest).map fun s => (c :: s.1, s.2)

def splitColon (separator : Text) : Option (Text × Text) := splitColonFrom false separator

/-- Without a colon, a separator in its usual form. -/
def plain (separator : Text) : Text :=
  match splitColon separator with
  | none => [':', ' ']
  | some (head, tail) => (if head.all isBlank then head else []) ++ ':' :: tail.leadingBlanks

end Separator

/-!
## Importance

A value may end with `!important`, in any case and with blanks around the word.
-/

namespace Importance

def splitLastMark (t : Text) : Option (Text × Text) :=
  match t.reverse.dropWhile (· ≠ '!') with
  | [] => none
  | _ :: head => some (head.reverse, (t.reverse.takeWhile (· ≠ '!')).reverse)

def split (raw : Text) : Text × Bool :=
  let value := raw.trim
  match splitLastMark value with
  | none => (value, false)
  | some (head, word) =>
    if word.trim.sameIgnoringCase "important".toList then (head.trimEnd, true)
    else (value, false)

end Importance

/-! ## Declarations -/

structure Declaration where
  property : Text
  value : Text
  important : Bool
  /-- The white space in front of the name. -/
  indent : Text
  /-- The text from the name to the value. -/
  separator : Text
  /-- The byte position of the name in the source. -/
  place : Option Nat
  deriving DecidableEq, Repr

namespace Declaration

def fresh (property value : Text) (important : Bool) : Declaration :=
  ⟨property, value, important, [], [':', ' '], none⟩

/-- A declaration to stand in front of `d`, written as `d` is. It is never important:
it must not win over `d`. -/
def fallback (d : Declaration) (value : Text) : Declaration :=
  ⟨d.property, value, false, d.indent, Separator.plain d.separator, none⟩

def importance (d : Declaration) : Text := if d.important then " !important".toList else []

/-- The text that puts a declaration in front of another one in a source. The white space
comes last: in front of the name stands the white space of the other declaration. -/
def leadText (d : Declaration) : Text :=
  d.property ++ d.separator ++ d.value ++ d.importance ++ ';' :: d.indent

def canonicalText (d : Declaration) : Text :=
  d.property ++ [':', ' '] ++ d.value ++ d.importance ++ [';']

end Declaration

/-!
## Lists of declarations

The declarations of one block, in order.
-/

abbrev Declarations := List Declaration

namespace Declarations

def previous? (list : Declarations) : Nat → Option Declaration
  | 0 => none
  | index + 1 => list[index]?

/-- The list with a fallback of the declaration at an index in front of it, or nothing
if the index is out of range. -/
def addFallback? (list : Declarations) (index : Nat) (value : Text) : Option Declarations :=
  list[index]?.map fun d => list.insertIdx index (d.fallback value)

def addFallbackToEach (list : Declarations) (value : Text) : Declarations :=
  list.flatMap fun d => [d.fallback value, d]

def canonicalText (list : Declarations) : Text :=
  Text.joinedBy [' '] (list.map Declaration.canonicalText)

theorem previous_append (front back : Declarations) :
    previous? (front ++ back) front.length = front.getLast? := by
  cases h : front.length with
  | zero => simp [previous?, List.eq_nil_of_length_eq_zero h]
  | succ n =>
    rw [previous?, List.getLast?_eq_getElem?, h, List.getElem?_append_left (by omega)]
    rfl

theorem add_fallback_append (front back : Declarations) (d : Declaration) (value : Text) :
    addFallback? (front ++ d :: back) front.length value =
      some (front ++ d.fallback value :: d :: back) := by
  have h : (front ++ d :: back)[front.length]? = some d := by simp
  rw [addFallback?, h, Option.map_some]
  induction front with
  | nil => rfl
  | cons e front ih =>
    have := ih (by simp)
    simp_all

end Declarations

end CssFallback
