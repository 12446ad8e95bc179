import CssFallback.Proofs.Token.Calm
import CssFallback.Stylesheet.Reading

/-!
# Laid-out stylesheets

A stylesheet is a tree of rules and declarations, and a layout of it is a text that
prints it: with any white space and closed comments where they mean nothing, and with
spare semicolons between items. In a list, grouping at-rules hold rules and are no rules
themselves; inside a block they are rules like any other.
-/

set_option autoImplicit false

namespace CssFallback

structure Entry where
  property : Text
  value : Text
  important : Bool
  deriving DecidableEq, Repr

structure Outline where
  selector : Text
  entries : List Entry
  deriving DecidableEq, Repr

def Declaration.entry (d : Declaration) : Entry := ⟨d.property, d.value, d.important⟩

def Rule.outline (r : Rule) : Outline := ⟨r.selector, r.declarations.map Declaration.entry⟩

namespace Layout

/-! ## Trees -/

def isName (t : Text) : Bool := t.head?.any Char.isAlpha && t.all fun c => c.isAlpha || c == '-'

def isSelector (t : Text) : Bool :=
  (t.head?.any fun c => c.isAlpha || ".#&*:".toList.contains c) && t.getLast? != some ' ' &&
    t.all fun c => c.isAlpha || c.isDigit || ".#&*>:,- ".toList.contains c

def isValue (t : Text) : Bool :=
  t != [] && t.head? != some ' ' && t.getLast? != some ' ' && t.closes 0 &&
    t.all fun c => c.isAlpha || c.isDigit || "-, ()".toList.contains c

inductive Head where
  | selector (text : Text)
  | atRule (name : Text) (more : Option Text)
  deriving DecidableEq, Repr

namespace Head

def text : Head → Text
  | .selector text => text
  | .atRule name none => '@' :: name
  | .atRule name (some more) => '@' :: (name ++ ' ' :: more)

def isProper : Head → Bool
  | .selector text => isSelector text
  | .atRule name more => isName name && more.all isSelector

def isGrouping : Head → Bool
  | .selector _ => false
  | .atRule name _ => groupingNames.any (Text.sameIgnoringCase name)

end Head

def properEntry (e : Entry) : Bool := isName e.property && isValue e.value

/-- The contents of a block: a first item and what comes later. -/
inductive Contents where
  | nil
  | entry (e : Entry) (later : Contents)
  | rule (head : Head) (body later : Contents)
  deriving Repr

namespace Contents

def isProper : Contents → Bool
  | .nil => true
  | .entry e later => properEntry e && later.isProper
  | .rule head body later => head.isProper && body.isProper && later.isProper

/-- The declarations that stand in the block itself. -/
def entries : Contents → List Entry
  | .nil => []
  | .entry e later => e :: later.entries
  | .rule _ _ later => later.entries

/-- The rules nested in the block, each followed by those nested in it. -/
def outlines : Contents → List Outline
  | .nil => []
  | .entry _ later => later.outlines
  | .rule head body later => ⟨head.text, body.entries⟩ :: body.outlines ++ later.outlines

end Contents

/-- A list of rules: a first one and what comes later. -/
inductive Sheet where
  | nil
  | rule (head : Head) (body : Contents) (later : Sheet)
  | group (head : Head) (body later : Sheet)
  deriving Repr

namespace Sheet

def isProper : Sheet → Bool
  | .nil => true
  | .rule head body later => head.isProper && !head.isGrouping && body.isProper && later.isProper
  | .group head body later => head.isProper && head.isGrouping && body.isProper && later.isProper

/-- The rules of the sheet, in the order in which they start. -/
def outlines : Sheet → List Outline
  | .nil => []
  | .rule head body later => ⟨head.text, body.entries⟩ :: body.outlines ++ later.outlines
  | .group _ body later => body.outlines ++ later.outlines

end Sheet

/-! ## Layouts -/

/-- White space and closed comments, and, where they may stand, spare semicolons. -/
inductive Gap (spare : Bool) : Text → Prop
  | nil : Gap spare []
  | space {c : Char} {g : Text} (hc : isSpace c = true) (hg : Gap spare g) : Gap spare (c :: g)
  | comment {body g : Text} (hb : body.isCommentBody = true) (hg : Gap spare g) :
      Gap spare (commentText body ++ g)
  | semicolon {g : Text} (hs : spare = true) (hg : Gap spare g) : Gap spare (';' :: g)

/-- `!important` in any case, with any white space around the mark. -/
inductive PrintsMark : Bool → Text → Prop
  | plain : PrintsMark false []
  | important {before after word : Text} (hb : before.all isSpace = true)
      (ha : after.all isSpace = true) (hw : word.sameIgnoringCase "important".toList = true) :
      PrintsMark true (before ++ '!' :: (after ++ word))

/-- A declaration without its semicolon. -/
inductive PrintsEntry (e : Entry) : Text → Prop
  | intro {before after mark trail : Text} (hb : Gap false before) (ha : Gap false after)
      (hm : PrintsMark e.important mark) (ht : Gap false trail) :
      PrintsEntry e (e.property ++ before ++ ':' :: (after ++ e.value ++ mark ++ trail))

inductive Contents.Prints : Contents → Text → Prop
  | nil {g : Text} (hg : Gap true g) : Prints .nil g
  /-- The last declaration of a block needs no semicolon. -/
  | last {e : Entry} {g t : Text} (hg : Gap true g) (he : PrintsEntry e t) :
      Prints (.entry e .nil) (g ++ t)
  | entry {e : Entry} {later : Contents} {g t u : Text} (hg : Gap true g) (he : PrintsEntry e t)
      (hl : Prints later u) : Prints (.entry e later) (g ++ t ++ ';' :: u)
  | rule {head : Head} {body later : Contents} {g space b u : Text} (hg : Gap true g)
      (hs : space.all isSpace = true) (hb : Prints body b) (hl : Prints later u) :
      Prints (.rule head body later) (g ++ head.text ++ space ++ '\x7b' :: (b ++ '\x7d' :: u))

inductive Sheet.Prints : Sheet → Text → Prop
  | nil {g : Text} (hg : Gap true g) : Prints .nil g
  | rule {head : Head} {body : Contents} {later : Sheet} {g space b u : Text} (hg : Gap true g)
      (hs : space.all isSpace = true) (hb : body.Prints b) (hl : Prints later u) :
      Prints (.rule head body later) (g ++ head.text ++ space ++ '\x7b' :: (b ++ '\x7d' :: u))
  | group {head : Head} {body later : Sheet} {g space b u : Text} (hg : Gap true g)
      (hs : space.all isSpace = true) (hb : Prints body b) (hl : Prints later u) :
      Prints (.group head body later) (g ++ head.text ++ space ++ '\x7b' :: (b ++ '\x7d' :: u))

end Layout
end CssFallback
