import CssFallback.Fallback
import CssFallback.Stylesheet.Reading

/-!
# Writing a stylesheet

The source is written as it is, with the added declarations spliced in: in front of the
declaration of the source that follows them in their list, or else where their block
ends.
-/

set_option autoImplicit false

namespace CssFallback

/-- A text to be written at a byte position of the source. -/
structure Piece where
  position : Nat
  text : Text
  deriving DecidableEq, Repr

namespace Piece

/-- What is written at a position: its pieces, in order. -/
def textAt (pieces : List Piece) (position : Nat) : Text :=
  (pieces.filter fun p => p.position == position).flatMap text

def ofRun (position : Nat) (run : Text) : List Piece := if run = [] then [] else [⟨position, run⟩]

/-- The pieces of a list of declarations in a block that ends at `stop`, where `run` has
to be written in front of the next declaration of the source. -/
def ofDeclarations (stop : Nat) : (run : Text) → Declarations → List Piece
  | run, [] => ofRun stop run
  | run, d :: rest =>
    match d.place with
    | none => ofDeclarations stop (run ++ d.leadText) rest
    | some position => ofRun position run ++ ofDeclarations stop [] rest

def ofRule (r : Rule) : List Piece := ofDeclarations r.stop [] r.declarations

def weave (pieces : List Piece) : (position : Nat) → Text → Text
  | position, [] => textAt pieces position
  | position, c :: rest =>
    textAt pieces position ++ c :: weave pieces (position + c.utf8Size) rest

/-- What is left of a source from a cursor on, with the pieces: each is written behind the
source up to its position, from where the source goes on. -/
def splice? (source : Text) : (cursor : Nat) → List Piece → Option Text
  | cursor, [] => source.from? cursor
  | cursor, p :: rest => do
    let kept ← source.slice? cursor p.position
    let following ← splice? source p.position rest
    return kept ++ p.text ++ following

/-- Pieces in the order of their positions. Those for one position keep their order. -/
def sorted (pieces : List Piece) : List Piece := pieces.mergeSort fun p q => p.position ≤ q.position

theorem weave_nil (position : Nat) (t : Text) : weave [] position t = t := by
  induction t generalizing position with
  | nil => rfl
  | cons c rest ih => simp [weave, textAt, ih]

end Piece

namespace Stylesheet

def render (s : Stylesheet) : Text := Piece.weave (s.rules.flatMap Piece.ofRule) 0 s.source

/-- The text of a stylesheet as it is put together with a cursor that runs through the
source, or nothing if the source cannot be cut where a piece belongs. -/
def write? (s : Stylesheet) : Option Text :=
  Piece.splice? s.source 0 (Piece.sorted (s.rules.flatMap Piece.ofRule))

def sweepRules (o : Options) : List Rule → List Rule × Tally
  | [] => ([], .zero)
  | r :: rest =>
    let swept := Fallback.sweep o r.declarations
    let others := sweepRules o rest
    (⟨r.selector, swept.1, r.stop⟩ :: others.1,
      Tally.add ⟨1, swept.2.considered, swept.2.added⟩ others.2)

def sweep (o : Options) (s : Stylesheet) : Stylesheet × Tally :=
  let swept := sweepRules o s.rules
  (⟨s.source, swept.1⟩, swept.2)

end Stylesheet

def addFallbacks (o : Options) (css : Text) : Except StrayBrace Text :=
  (Stylesheet.parse css).map fun s => (s.sweep o).1.render

end CssFallback
