import CssFallback.Fallback
import CssFallback.Settings
import CssFallback.Stylesheet.Splice

/-!
# Sessions

A session holds options and a stylesheet, or a single list of declarations, and takes
steps on it. A step that fails changes nothing.
-/

set_option autoImplicit false

namespace CssFallback

/-!
## Steps on a list of declarations

What can be done with one list: reading it, adding to it, and adding fallbacks. A
step that fails leaves the list as it is.
-/

inductive ListStep where
  | sweep
  | provide (index : Nat)
  /-- Does what is done with the declarations of a property, wherever it is asked to. -/
  | act (property : Text) (index : Nat)
  | add (index : Nat) (value : Text)
  /-- Adds a fallback in front of every declaration. -/
  | addToEach (value : Text)
  | push (declaration : Declaration)
  | get (index : Nat)
  /-- As `get`, but there has to be a declaration. -/
  | demand (index : Nat)
  | previous (index : Nat)

inductive ListAnswer where
  | nothing
  | count (n : Nat)
  | tally (tally : Tally)
  | found (declaration : Option Declaration)
  | outOfRange

namespace ListStep

def counted (grown : Fallback.Grown) : Declarations × ListAnswer :=
  (grown.1, .count grown.2)

def apply (o : Options) (list : Declarations) : ListStep → Declarations × ListAnswer
  | .sweep =>
    let swept := Fallback.sweep o list
    (swept.1, .tally swept.2)
  | .provide index => counted (Fallback.provide o list index)
  | .act property index =>
    match Fallback.action? property with
    | none => (list, .nothing)
    | some action => counted (action o list index)
  | .add index value =>
    match list.addFallback? index value with
    | some list' => (list', .count index)
    | none => (list, .outOfRange)
  | .addToEach value =>
    let list' := list.addFallbackToEach value
    (list', .count list'.length)
  | .push declaration => (list ++ [declaration], .count (list.length + 1))
  | .get index => (list, .found list[index]?)
  | .demand index =>
    match list[index]? with
    | some d => (list, .found d)
    | none => (list, .outOfRange)
  | .previous index => (list, .found (list.previous? index))

end ListStep

/-! ## Steps on a stylesheet -/

inductive SheetStep where
  | sweep
  | configure (settings : Settings)
  /-- Writes the stylesheet and reads what has been written. -/
  | reparse
  | rules
  | count
  /-- Appends a copy of a declaration, with its place in the source, to a list. -/
  | copy (rule index target : Nat)
  | inRule (rule : Nat) (step : ListStep)
  | inEveryRule (step : ListStep)

inductive SheetAnswer where
  | nothing
  | tally (tally : Tally)
  | count (n : Nat)
  | counts (rules declarations : Nat)
  | rules (rules : List Rule)
  | ofList (answer : ListAnswer)
  | ofLists (answers : List ListAnswer)
  | noRule
  | badOptions (fault : Options.Fault)
  | badSource (error : StrayBrace)

structure SheetSession where
  options : Options
  sheet : Stylesheet

namespace SheetSession

def withRules (s : SheetSession) (rules : List Rule) : SheetSession :=
  ⟨s.options, ⟨s.sheet.source, rules⟩⟩

def setDeclarations (r : Rule) (list : Declarations) : Rule := ⟨r.selector, list, r.stop⟩

/-- The rule comes first, then the declaration, then the rule that receives it. -/
def copy (s : SheetSession) (rule index target : Nat) : SheetSession × SheetAnswer :=
  match s.sheet.rules[rule]? with
  | none => (s, .noRule)
  | some source =>
    match source.declarations[index]? with
    | none => (s, .nothing)
    | some d =>
      match s.sheet.rules[target]? with
      | none => (s, .noRule)
      | some r =>
        let list := r.declarations ++ [d]
        (s.withRules (s.sheet.rules.set target (setDeclarations r list)), .count list.length)

def inRule (s : SheetSession) (rule : Nat) (step : ListStep) : SheetSession × SheetAnswer :=
  match s.sheet.rules[rule]? with
  | none => (s, .noRule)
  | some r =>
    let (list, answer) := step.apply s.options r.declarations
    (s.withRules (s.sheet.rules.set rule (setDeclarations r list)), .ofList answer)

def inEveryRule (s : SheetSession) (step : ListStep) : SheetSession × SheetAnswer :=
  let results := s.sheet.rules.map fun r => (r, step.apply s.options r.declarations)
  (s.withRules (results.map fun x => setDeclarations x.1 x.2.1),
    .ofLists (results.map fun x => x.2.2))

def apply (s : SheetSession) : SheetStep → SheetSession × SheetAnswer
  | .sweep =>
    let swept := s.sheet.sweep s.options
    (⟨s.options, swept.1⟩, .tally swept.2)
  | .configure settings =>
    match settings.options with
    | .ok options => (⟨options, s.sheet⟩, .nothing)
    | .error fault => (s, .badOptions fault)
  | .reparse =>
    match Stylesheet.parse s.sheet.render with
    | .ok sheet => (⟨s.options, sheet⟩, .count sheet.rules.length)
    | .error error => (s, .badSource error)
  | .rules => (s, .rules s.sheet.rules)
  | .count => (s, .counts s.sheet.rules.length s.sheet.totalDeclarations)
  | .copy rule index target => s.copy rule index target
  | .inRule rule step => s.inRule rule step
  | .inEveryRule step => s.inEveryRule step

def run (s : SheetSession) : List SheetStep → List (SheetAnswer × SheetSession)
  | [] => []
  | step :: rest =>
    let (next, answer) := s.apply step
    (answer, next) :: next.run rest

end SheetSession

inductive ListSessionStep where
  | configure (settings : Settings)
  | onList (step : ListStep)

inductive ListSessionAnswer where
  | nothing
  | ofList (answer : ListAnswer)
  | badOptions (fault : Options.Fault)

structure ListSession where
  options : Options
  list : Declarations

namespace ListSession

def apply (s : ListSession) : ListSessionStep → ListSession × ListSessionAnswer
  | .configure settings =>
    match settings.options with
    | .ok options => (⟨options, s.list⟩, .nothing)
    | .error fault => (s, .badOptions fault)
  | .onList step =>
    let (list, answer) := step.apply s.options s.list
    (⟨s.options, list⟩, .ofList answer)

def run (s : ListSession) : List ListSessionStep → List (ListSessionAnswer × ListSession)
  | [] => []
  | step :: rest =>
    let (next, answer) := s.apply step
    (answer, next) :: next.run rest

end ListSession

end CssFallback
