import CssFallback.Declaration
import CssFallback.Overflow
import CssFallback.Value

/-!
# Fallbacks

A declaration gets no fallback if the one in front of it sets the same property: its
author has provided one, or an earlier run has. A value that is `clip` or `overlay`
gets one fallback. A pair of keywords gets one for each modern keyword in it, in
stages: the first replaces `clip`, the second replaces `overlay` in the result and goes
in front of the first, so that an engine stops at the last line that it understands.
-/

set_option autoImplicit false

namespace CssFallback

namespace Fallback

/-- The keywords replaced in a pair, in the order of the stages. -/
def stages : List Keyword := [.clip, .overlay]

/-- The word that takes the place of a keyword, if it has one and the options want it. -/
def replacement? (o : Options) (k : Keyword) : Option Text :=
  if o.enables k then k.older?.map Keyword.text else none

/-- A list and the number of declarations that were added to it. -/
abbrev Grown := Declarations × Nat

def provideWord (o : Options) (list : Declarations) (index : Nat) (k : Keyword) : Grown :=
  match (replacement? o k).bind (list.addFallback? index) with
  | some list' => (list', 1)
  | none => (list, 0)

/-- One fallback for each stage that changes the value, each in front of the one before
it. -/
def provideStages (o : Options) (index : Nat) :
    List Keyword → Declarations → List ValuePart → Grown
  | [], list, _ => (list, 0)
  | k :: later, list, parts =>
    match replacement? o k with
    | none => provideStages o index later list parts
    | some word =>
      if ValuePart.hasWord k.text parts then
        let replaced := ValuePart.replaceWord k.text word parts
        match list.addFallback? index (ValuePart.textOf replaced) with
        | some list' =>
          let grown := provideStages o index later list' replaced
          (grown.1, grown.2 + 1)
        | none => (list, 0)
      else provideStages o index later list parts

def modernKeyword? (value : Text) : Option Keyword :=
  (Keyword.ofText? value).filter fun k => k.older?.isSome

/-- Whether a value is a pair of keywords in which keywords are to be replaced. -/
def isHandledPair (o : Options) (property : Text) (parts : List ValuePart) : Bool :=
  o.pairs && Property.ofName? property == some .shorthand && (ValuePart.wordPair? parts).isSome

def provide (o : Options) (list : Declarations) (index : Nat) : Grown :=
  if o.addsNothing then (list, 0)
  else
    match list[index]? with
    | none => (list, 0)
    | some d =>
      if (list.previous? index).any fun p => p.property == d.property then (list, 0)
      else
        match modernKeyword? d.value with
        | some k => provideWord o list index k
        | none =>
          let parts := valueParts d.value
          if isHandledPair o d.property parts then provideStages o index stages list parts
          else (list, 0)

end Fallback

/-!
## Sweeping a list of declarations

The declarations of a list are taken in order, and those of an overflow property are
provided with their fallbacks. What has been added is passed over, and it is in place
when the later declarations are taken.
-/

structure Tally where
  rules : Nat
  /-- Declarations of an overflow property. -/
  considered : Nat
  added : Nat
  deriving DecidableEq, Repr

namespace Tally

def zero : Tally := ⟨0, 0, 0⟩

def add (s t : Tally) : Tally :=
  ⟨s.rules + t.rules, s.considered + t.considered, s.added + t.added⟩

end Tally

namespace Fallback

abbrev Action := Options → Declarations → Nat → Grown

def action? (property : Text) : Option Action := (Property.ofName? property).map fun _ => provide

/-- Takes `left` declarations from an index on, and counts on from a tally. -/
def sweepFrom (o : Options) : (left : Nat) → Declarations → Nat → Tally → Declarations × Tally
  | 0, list, _, tally => (list, tally)
  | left + 1, list, index, tally =>
    match list[index]? with
    | none => (list, tally)
    | some d =>
      match action? d.property with
      | none => sweepFrom o left list (index + 1) tally
      | some act =>
        let grown := act o list index
        sweepFrom o left grown.1 (index + grown.2 + 1) (tally.add ⟨0, 1, grown.2⟩)

def sweep (o : Options) (list : Declarations) : Declarations × Tally :=
  sweepFrom o list.length list 0 .zero

end Fallback

end CssFallback
