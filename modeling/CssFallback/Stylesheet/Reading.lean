import CssFallback.Stylesheet.Basic
import CssFallback.Text.Basic
import CssFallback.Token.Lexer

/-!
# Reading a stylesheet

A stylesheet is read token by token. What is open at a place is a stack of frames: lists
of rules, in the sheet itself and in grouping at-rules, and blocks of declarations.
Brackets inside an item are not entered; they are only counted until they close.

The only error is a closing brace in the sheet itself where a rule might start. The end
of the source closes all that is open.
-/

set_option autoImplicit false

namespace CssFallback

/-- The text of a rule in front of its block, as far as it has been read. Tokens are kept
latest first. -/
structure Prelude where
  /-- The block holds rules. -/
  grouping : Bool
  kept : List Token
  /-- The contents of the brackets that the last kept token opens, and their closer. They
  belong to the prelude only if another token follows in front of the block. -/
  held : List Token
  deriving Repr

structure RuleList where
  found : List Rule
  pending : Option Prelude
  deriving Repr

structure Block where
  selector : Text
  declarations : Declarations
  /-- The rules nested in the block. -/
  inner : List Rule
  /-- White space and comments since the last item, latest first. -/
  gap : List Token
  item : Item
  deriving Repr

inductive Frame where
  | list (list : RuleList)
  | block (block : Block)
  deriving Repr

/-- What a token leads to: the state after it, the brackets it opens inside an item, and
the frame it enters. -/
structure Step (α : Type) where
  state : α
  nesting : Nesting
  entered : Option Frame

namespace Step

def stay {α : Type} (state : α) (nesting : Nesting) : Step α := ⟨state, nesting, none⟩

def enter {α : Type} (state : α) (frame : Frame) : Step α := ⟨state, [], some frame⟩

def map {α β : Type} (f : α → β) (s : Step α) : Step β := ⟨f s.state, s.nesting, s.entered⟩

end Step

def groupingNames : List Text :=
  ["media", "supports", "layer", "container", "document", "scope", "starting-style"].map
    String.toList

def Token.isGrouping (t : Token) : Bool :=
  t.kind == .atKeyword &&
    groupingNames.any (Text.sameIgnoringCase (Text.unescape (t.text.drop 1)))

namespace Prelude

def start (t : Token) : Prelude := ⟨t.isGrouping, [t], []⟩

def push (p : Prelude) (t : Token) : Prelude := ⟨p.grouping, t :: (p.held ++ p.kept), []⟩

def pushInside (p : Prelude) (t : Token) : Prelude := ⟨p.grouping, p.kept, t :: p.held⟩

def selector (p : Prelude) : Text := (Token.textOf p.kept.reverse).trim

end Prelude

namespace Block

def empty (selector : Text) : Block := ⟨selector, [], [], [], .none⟩

def endItem (b : Block) : Block :=
  ⟨b.selector, b.declarations ++ (b.item.declaration? b.gap).toList, b.inner, [], .none⟩

/-- A brace in an item opens a nested rule, unless it is part of a value. -/
def opensRule (b : Block) (t : Token) : Bool :=
  t.kind == .opening .curly && !b.item.isCustomValue

def read (b : Block) (position : Nat) (t : Token) : Step Block :=
  if t.kind = .semicolon then .stay b.endItem []
  else if b.opensRule t then
    .enter ⟨b.selector, b.declarations, b.inner, [], .none⟩
      (.block (.empty (Token.textOf b.item.tokens.reverse).trim))
  else
    match b.item, t.isTrivia with
    | .none, true => .stay ⟨b.selector, b.declarations, b.inner, t :: b.gap, .none⟩ []
    | item, _ =>
      .stay ⟨b.selector, b.declarations, b.inner, b.gap, item.push position t⟩ t.opens?.toList

def rules (b : Block) (position : Nat) : List Rule :=
  ⟨b.selector, b.endItem.declarations, position⟩ :: b.inner

end Block

namespace RuleList

def empty : RuleList := ⟨[], none⟩

def frameOf (p : Prelude) : Frame :=
  if p.grouping then .list empty else .block (.empty p.selector)

def read (l : RuleList) (t : Token) : Step RuleList :=
  match l.pending with
  | none =>
    match t.kind with
    | .space | .comment | .cdo | .cdc | .semicolon => .stay l []
    | .opening .curly => .enter l (.block (.empty []))
    | _ => .stay ⟨l.found, some (.start t)⟩ t.opens?.toList
  | some p =>
    match t.kind with
    | .semicolon => .stay ⟨l.found, none⟩ []
    | .opening .curly => .enter ⟨l.found, none⟩ (frameOf p)
    | _ => .stay ⟨l.found, some (p.push t)⟩ t.opens?.toList

def receive (l : RuleList) (rules : List Rule) : RuleList := ⟨l.found ++ rules, l.pending⟩

def pushInside (l : RuleList) (t : Token) : RuleList :=
  ⟨l.found, l.pending.map fun p => p.pushInside t⟩

end RuleList

namespace Frame

def read (f : Frame) (position : Nat) (t : Token) : Step Frame :=
  match f with
  | .list l => (l.read t).map .list
  | .block b => (b.read position t).map .block

def receive (f : Frame) (rules : List Rule) : Frame :=
  match f with
  | .list l => .list (l.receive rules)
  | .block b => .block ⟨b.selector, b.declarations, b.inner ++ rules, b.gap, b.item⟩

def pushInside (f : Frame) (t : Token) : Frame :=
  match f with
  | .list l => .list (l.pushInside t)
  | .block b => .block ⟨b.selector, b.declarations, b.inner, b.gap, b.item.pushInside t⟩

def rules (f : Frame) (position : Nat) : List Rule :=
  match f with
  | .list l => l.found
  | .block b => b.rules position

end Frame

structure Reading where
  position : Nat
  /-- The brackets of the current item that are open. -/
  nesting : Nesting
  /-- The rules of the sheet itself. -/
  sheet : RuleList
  /-- The open frames inside the sheet, innermost first. -/
  frames : List Frame
  deriving Repr

namespace Reading

def start : Reading := ⟨0, [], .empty, []⟩

def stepInside (r : Reading) (position : Nat) (t : Token) : Reading :=
  match r.frames with
  | [] => ⟨position, r.nesting.step t, r.sheet.pushInside t, []⟩
  | f :: outer => ⟨position, r.nesting.step t, r.sheet, f.pushInside t :: outer⟩

/-- A token in the innermost frame, which is not the sheet and not ended by the token. -/
def stepFrame (r : Reading) (position : Nat) (t : Token) (f : Frame) (outer : List Frame) :
    Reading :=
  let s := f.read r.position t
  ⟨position, s.nesting, r.sheet, s.entered.toList ++ s.state :: outer⟩

def leave (r : Reading) (position : Nat) (f : Frame) : List Frame → Reading
  | [] => ⟨position, [], r.sheet.receive (f.rules r.position), []⟩
  | g :: outer => ⟨position, [], r.sheet, g.receive (f.rules r.position) :: outer⟩

/-- The state after one more token. A closing brace in the sheet itself, in front of any
rule, is an error at its byte position. -/
def step (r : Reading) (t : Token) : Except Nat Reading :=
  let position := r.position + t.text.byteSize
  if r.nesting ≠ [] then .ok (r.stepInside position t)
  else
    match r.frames with
    | f :: outer =>
      if t.kind = .closing .curly then .ok (r.leave position f outer)
      else .ok (r.stepFrame position t f outer)
    | [] =>
      if t.kind = .closing .curly ∧ r.sheet.pending.isNone then .error r.position
      else
        let s := r.sheet.read t
        .ok ⟨position, s.nesting, s.state, s.entered.toList⟩

def run (r : Reading) : List Token → Except Nat Reading
  | [] => .ok r
  | t :: rest =>
    match r.step t with
    | .ok next => next.run rest
    | .error position => .error position

/-- The rules that are complete when open frames end, where `rules` are those of the
frames already ended. -/
def endFrames (position : Nat) : (rules : List Rule) → List Frame → List Rule
  | rules, [] => rules
  | rules, f :: outer => endFrames position ((f.receive rules).rules position) outer

def finish (r : Reading) : List Rule := r.sheet.found ++ endFrames r.position [] r.frames

theorem run_append (r : Reading) (s t : List Token) :
    r.run (s ++ t) = (r.run s).bind fun next => next.run t := by
  induction s generalizing r with
  | nil => rfl
  | cons token s ih =>
    simp only [List.cons_append, run]
    cases r.step token with
    | ok next => exact ih next
    | error position => rfl

end Reading

namespace Stylesheet

def parse (source : Text) : Except StrayBrace Stylesheet :=
  match Reading.start.run (lex source) with
  | .ok r => .ok ⟨source, r.finish⟩
  | .error position => .error ⟨(source.before position).line⟩

end Stylesheet
end CssFallback
