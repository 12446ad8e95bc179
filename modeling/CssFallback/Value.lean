import CssFallback.Token.Lexer
import CssFallback.Token.Basic

/-!
# The parts of a declaration value

A value is split into words, white space, function calls and everything else. A call
and a bracketed block are one part each, contents and closer included, so that words
inside them are out of reach. The parts join back into the value
(`text_of_value_parts`).
-/

set_option autoImplicit false

namespace CssFallback

inductive ValuePart.Kind where
  | word
  | space
  | function
  | other
  deriving DecidableEq, Repr

structure ValuePart where
  kind : ValuePart.Kind
  text : Text
  deriving DecidableEq, Repr

namespace ValuePart

def Kind.ofToken : Token.Kind → Kind
  | .ident => .word
  | .space => .space
  | .function => .function
  | _ => .other

def textOf (ps : List ValuePart) : Text := ps.flatMap text

/-- A part whose brackets `nesting` are still open. -/
structure Unclosed where
  kind : Kind
  text : Text
  nesting : Nesting

/-- The parts that consecutive tokens give after an unclosed part, if there is one. The
end of the tokens closes it. -/
def group : Option Unclosed → List Token → List ValuePart
  | none, [] => []
  | some u, [] => [⟨u.kind, u.text⟩]
  | none, t :: rest =>
    match t.opens? with
    | some b => group (some ⟨.ofToken t.kind, t.text, [b]⟩) rest
    | none => ⟨.ofToken t.kind, t.text⟩ :: group none rest
  | some u, t :: rest =>
    match u.nesting.step t with
    | [] => ⟨u.kind, u.text ++ t.text⟩ :: group none rest
    | nesting => group (some ⟨u.kind, u.text ++ t.text, nesting⟩) rest

theorem text_of_group (u : Option Unclosed) (ts : List Token) :
    textOf (group u ts) = (u.elim [] Unclosed.text) ++ Token.textOf ts := by
  induction ts generalizing u with
  | nil => cases u <;> simp [group, textOf, Token.textOf]
  | cons t rest ih =>
    cases u with
    | none =>
      rw [group]
      split
      · simp [ih, Token.textOf]
      · simpa [textOf, Token.textOf] using ih none
    | some u =>
      rw [group]
      split
      · simpa [textOf, Token.textOf] using ih none
      · simp [ih, Token.textOf]

end ValuePart

def valueParts (value : Text) : List ValuePart := ValuePart.group none (lex value)

theorem text_of_value_parts (value : Text) : ValuePart.textOf (valueParts value) = value := by
  rw [valueParts, ValuePart.text_of_group, text_of_lex]
  rfl

namespace ValuePart

/-- Two to twenty ASCII letters. -/
def isPlainWord (word : Text) : Bool :=
  2 ≤ word.length && word.length ≤ 20 && word.all Char.isAlpha

/-- The two words of a value that is two plain words with a single space between them. -/
def wordPair? : List ValuePart → Option (Text × Text)
  | [⟨.word, first⟩, ⟨.space, [' ']⟩, ⟨.word, second⟩] =>
    if isPlainWord first && isPlainWord second then some (first, second) else none
  | _ => none

def hasWord (word : Text) (ps : List ValuePart) : Bool := ps.contains ⟨.word, word⟩

def replaceWord (old new : Text) (ps : List ValuePart) : List ValuePart :=
  ps.map fun p => if p = ⟨.word, old⟩ then ⟨.word, new⟩ else p

end ValuePart
end CssFallback
