import CssFallback.Proofs.Stylesheet.Steps

/-!
# The stack of frames

A token acts on the innermost frame: inside brackets it is pushed onto the item, a
closing brace ends the frame, and everything else is read by it.
-/

set_option autoImplicit false

namespace CssFallback

namespace Reading

def stack (r : Reading) : List Frame := r.frames ++ [.list r.sheet]

/-- All that a token can do. -/
theorem step_cases {r next : Reading} {t : Token} (h : r.step t = .ok next) :
    next.position = r.position + t.text.byteSize ∧ ∃ f outer, r.stack = f :: outer ∧
      (r.nesting ≠ [] ∧ next.nesting = r.nesting.step t ∧
          next.stack = f.pushInside t :: outer ∨
        r.nesting = [] ∧ t.kind = .closing .curly ∧ next.nesting = [] ∧
          (∃ g outer', outer = g :: outer' ∧
            next.stack = g.receive (f.rules r.position) :: outer') ∨
        r.nesting = [] ∧ (t.kind = .closing .curly → outer = []) ∧
          next.nesting = (f.read r.position t).nesting ∧
          next.stack = (f.read r.position t).entered.toList ++
            (f.read r.position t).state :: outer) := by
  obtain ⟨position, nesting, sheet, frames⟩ := r
  simp only [step] at h
  by_cases hn : nesting = []
  · rw [if_neg (by simpa using hn)] at h
    cases frames with
    | nil =>
      by_cases hc : t.kind = .closing .curly ∧ sheet.pending.isNone = true
      · simp [hc] at h
      · rw [if_neg hc] at h
        obtain rfl := Except.ok.inj h
        exact ⟨rfl, .list sheet, [], rfl, .inr (.inr ⟨hn, fun _ => rfl, rfl, rfl⟩)⟩
    | cons f outer =>
      by_cases hc : t.kind = .closing .curly
      · simp only [hc, if_true] at h
        obtain rfl := Except.ok.inj h
        cases outer with
        | nil => exact ⟨rfl, f, [.list sheet], rfl, .inr (.inl ⟨hn, hc, rfl, _, _, rfl, rfl⟩)⟩
        | cons g outer =>
          exact ⟨rfl, f, g :: outer ++ [.list sheet], rfl, .inr (.inl ⟨hn, hc, rfl, _, _, rfl, rfl⟩)⟩
      · simp only [hc, if_false] at h
        obtain rfl := Except.ok.inj h
        refine ⟨rfl, f, outer ++ [.list sheet], rfl, .inr (.inr ⟨hn, fun h => absurd h hc, rfl, ?_⟩)⟩
        simp [stack, stepFrame]
  · rw [if_pos hn] at h
    obtain rfl := Except.ok.inj h
    cases frames with
    | nil => exact ⟨rfl, .list sheet, [], rfl, .inl ⟨hn, rfl, rfl⟩⟩
    | cons f outer => exact ⟨rfl, f, outer ++ [.list sheet], rfl, .inl ⟨hn, rfl, rfl⟩⟩

theorem run_cons {r final : Reading} {t : Token} {ts : List Token} (h : r.run (t :: ts) = .ok final) :
    ∃ next, r.step t = .ok next ∧ next.run ts = .ok final := by
  rw [run] at h
  cases hs : r.step t with
  | ok next => exact ⟨next, rfl, by simpa [hs] using h⟩
  | error position => simp [hs] at h

theorem position_run {r final : Reading} {ts : List Token} (h : r.run ts = .ok final) :
    final.position = r.position + Token.sizeOf ts := by
  induction ts generalizing r with
  | nil =>
    obtain rfl := Except.ok.inj h
    rfl
  | cons t ts ih =>
    obtain ⟨next, hs, hr⟩ := run_cons h
    rw [ih hr, (step_cases hs).1, Token.size_cons, Nat.add_assoc]

end Reading

theorem RuleList.read_cases (l : RuleList) (t : Token) :
    (l.read t).state.found = l.found ∧ ((l.read t).entered = none ∨ t.kind = .opening .curly ∧
      ((l.read t).entered = some (.list .empty) ∨
        ∃ selector, (l.read t).entered = some (.block (.empty selector)))) := by
  have hframe : ∀ p, frameOf p = .list .empty ∨ ∃ selector, frameOf p = .block (.empty selector) := by
    intro p
    rw [frameOf]
    split
    · exact .inl rfl
    · exact .inr ⟨_, rfl⟩
  rw [read]
  split <;> split <;> try exact ⟨rfl, .inl rfl⟩
  · rename_i hk
    exact ⟨rfl, .inr ⟨hk, .inr ⟨[], rfl⟩⟩⟩
  · rename_i p _ _ hk
    exact ⟨rfl, .inr ⟨hk, by simpa [Step.enter] using hframe p⟩⟩

theorem Block.read_cases (b : Block) (position : Nat) (t : Token) :
    t.kind = .semicolon ∧ b.read position t = .stay b.endItem [] ∨
    (t.kind = .opening .curly ∧ b.item.isCustomValue = false) ∧ b.read position t =
      .enter ((b.withItem .none).withGap [])
        (.block (.empty (Token.textOf b.item.tokens.reverse).trim)) ∨
    b.item = .none ∧ t.isTrivia = true ∧ b.read position t = .stay (b.withGap (t :: b.gap)) [] ∨
    ((b.item = .none → t.isTrivia = false) ∧ t.kind ≠ .semicolon ∧
        (t.kind = .opening .curly → b.item.isCustomValue = true)) ∧
      b.read position t = .stay (b.withItem (b.item.push position t)) t.opens?.toList := by
  rw [read]
  split
  · rename_i h
    exact .inl ⟨h, rfl⟩
  rename_i hsemi
  split
  · rename_i h
    refine .inr (.inl ⟨?_, rfl⟩)
    simpa [opensRule] using h
  · rename_i h
    have hbrace : t.kind = .opening .curly → b.item.isCustomValue = true := by
      intro hk
      simpa [opensRule, hk] using h
    cases hi : b.item with
    | none =>
      rw [hi] at hbrace
      cases ht : t.isTrivia with
      | true => exact .inr (.inr (.inl ⟨rfl, rfl, by simp [withGap, hi]⟩))
      | false => exact .inr (.inr (.inr ⟨⟨fun _ => rfl, hsemi, hbrace⟩, rfl⟩))
    | _ =>
      rw [hi] at hbrace
      exact .inr (.inr (.inr ⟨⟨by simp, hsemi, hbrace⟩, rfl⟩))

/-!
## What surrounds a place

Around a place of a source are the brackets that are open there. What a bracket holds
depends on where it is opened: rules or declarations, if it is a block, and otherwise a
part of the text in front of a block, of a declaration, or of what is neither. All of it
is told by the tokens in front of the place.
-/

/-- What brackets, or the sheet itself, hold. -/
inductive Region where
  /-- Rules: the sheet, and the block of a grouping at-rule. -/
  | rules
  /-- Declarations: the block of any other rule. -/
  | declarations
  /-- A part of the text of a rule in front of its block. -/
  | prelude
  /-- A part of the value of a custom property. -/
  | custom
  /-- A part of any other item of a block of declarations. -/
  | item
  deriving DecidableEq, Repr

namespace Region

def isBlock : Region → Bool
  | .rules | .declarations => true
  | _ => false

theorem block_iff {r : Region} : r.isBlock = true ↔ r = .rules ∨ r = .declarations := by
  cases r <;> simp [isBlock]

end Region

/-- A region up to some place of it. -/
structure Scope where
  region : Region
  /-- The tokens of the rule or the item that has been begun, without those inside its
  brackets. -/
  lead : List Token
  deriving DecidableEq, Repr

def Token.beginsRule (t : Token) : Bool := !t.isTrivia && t.kind != .cdo && t.kind != .cdc

namespace Scope

def leadsGroup (s : Scope) : Bool := (s.lead.find? Token.beginsRule).any Token.isGrouping

/-- The declaration of a custom property has been begun, and its value may follow. -/
def leadsCustom (s : Scope) : Bool :=
  match Token.solid s.lead with
  | name :: colon :: _ =>
    name.kind == .ident && "--".toList.isPrefixOf name.text && colon.kind == .colon
  | _ => false

def opened (s : Scope) (t : Token) : Region :=
  match s.region with
  | .rules =>
    if t.kind = .opening .curly then if s.leadsGroup then .rules else .declarations
    else .prelude
  | .declarations =>
    if s.leadsCustom then .custom
    else if t.kind = .opening .curly then .declarations
    else .item
  | region => region

theorem opened_enclosed {s : Scope} (h : s.region.isBlock = false) (t : Token) :
    s.opened t = s.region := by
  rw [opened]
  split
  · rename_i hr
    simp [hr, Region.isBlock] at h
  · rename_i hr
    simp [hr, Region.isBlock] at h
  · rfl

def read (s : Scope) (t : Token) : Scope :=
  ⟨s.region, if t.kind = .semicolon then [] else s.lead ++ [t]⟩

/-- The scope behind the brackets that a token opens. A block ends what has been begun. -/
def enter (s : Scope) (t : Token) : Scope :=
  ⟨s.region, if (s.opened t).isBlock then [] else s.lead ++ [t]⟩

end Scope

structure Surroundings where
  /-- The innermost region. -/
  inside : Scope
  /-- The open brackets, innermost first, each with the scope that it stands in. -/
  outer : List (Bracket × Scope)
  deriving DecidableEq, Repr

namespace Surroundings

def start : Surroundings := ⟨⟨.rules, []⟩, []⟩

def step (w : Surroundings) (t : Token) : Surroundings :=
  match t.opens?, w.outer with
  | some b, outer => ⟨⟨w.inside.opened t, []⟩, (b, w.inside.enter t) :: outer⟩
  | none, [] => ⟨w.inside.read t, []⟩
  | none, (b, s) :: outer =>
    if t.closes? = some b then ⟨s, outer⟩ else ⟨w.inside.read t, (b, s) :: outer⟩

theorem step_opens (w : Surroundings) {t : Token} {b : Bracket} (h : t.opens? = some b) :
    w.step t = ⟨⟨w.inside.opened t, []⟩, (b, w.inside.enter t) :: w.outer⟩ := by
  rw [step, h]

def after (w : Surroundings) (ts : List Token) : Surroundings := ts.foldl step w

def brackets (w : Surroundings) : Nesting := w.outer.map Prod.fst

def regions (w : Surroundings) : List Region := w.inside.region :: w.outer.map fun x => x.2.region

theorem brackets_step (w : Surroundings) (t : Token) : (w.step t).brackets = w.brackets.step t := by
  obtain ⟨inside, outer⟩ := w
  cases ho : t.opens? with
  | some b => simp [step, brackets, Nesting.step, ho]
  | none =>
    cases outer with
    | nil => cases hc : t.closes? <;> simp [step, brackets, Nesting.step, Nesting.close, ho, hc]
    | cons x outer =>
      cases hc : t.closes? with
      | none => simp [step, brackets, Nesting.step, ho, hc]
      | some b =>
        by_cases hb : x.1 = b
        · simp [step, brackets, Nesting.step, Nesting.close, ho, hc, hb]
        · simp [step, brackets, Nesting.step, Nesting.close, ho, hc, hb, Ne.symm hb]

theorem brackets_after (w : Surroundings) (ts : List Token) :
    (w.after ts).brackets = w.brackets.after ts := by
  induction ts generalizing w with
  | nil => rfl
  | cons t ts ih =>
    rw [after, List.foldl_cons, ← after, ih, brackets_step]
    rfl

/-- In an array in the value of a custom property, braces open no block. -/
example : (start.after (lex "@media all\x7ba\x7b--b:[\x7bc:".toList)).regions =
    [.custom, .custom, .declarations, .rules, .rules] := by decide

end Surroundings

end CssFallback
