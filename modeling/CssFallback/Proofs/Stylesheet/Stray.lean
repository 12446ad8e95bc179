import CssFallback.Proofs.Stylesheet.Mirror
import CssFallback.Proofs.Token.Shape

/-!
# Stray braces

A closing brace is stray if no bracket is open in front of it. It is an error unless a
rule has been begun there: then it is taken for a part of the text in front of a block.
All that matters for an error stands in front of the brace.
-/

set_option autoImplicit false

namespace CssFallback

namespace Token

/-- A closing brace at top level, behind other tokens. -/
def IsStray (front : List Token) (t : Token) : Prop :=
  t.kind = .closing .curly ∧ Nesting.after [] front = []

instance (front : List Token) (t : Token) : Decidable (t.IsStray front) :=
  inferInstanceAs (Decidable (_ ∧ _))

def leadRule (front : List Token) : Bool :=
  (Surroundings.start.after front).inside.lead.any beginsRule

/-- A closing brace where a rule of the sheet itself might start. -/
def IsReported (front : List Token) (t : Token) : Prop := t.IsStray front ∧ leadRule front = false

end Token

/-! ## Steps -/

theorem Mirrors.brackets_nil {nesting : Nesting} {stack : List Frame} {w : Surroundings}
    (h : Mirrors nesting stack w) : w.brackets = [] ↔ nesting = [] ∧ ∃ f, stack = [f] := by
  cases h with
  | sheet hf => simp [Surroundings.brackets]
  | block hf h => cases h <;> simp [Surroundings.brackets]
  | enclosed hs hf h => simp [Surroundings.brackets]

namespace Reading

theorem step_error_iff {r : Reading} {t : Token} {p : Nat} : r.step t = .error p ↔
    (t.kind = .closing .curly ∧ r.nesting = [] ∧ r.frames = []) ∧ r.sheet.pending = none ∧
      p = r.position := by
  obtain ⟨position, nesting, sheet, frames⟩ := r
  by_cases hn : nesting = []
  · cases frames with
    | nil =>
      by_cases hc : t.kind = .closing .curly ∧ sheet.pending = none
      · simp [step, hn, hc, eq_comm]
      · have hc' : ¬ (t.kind = .closing .curly ∧ sheet.pending.isNone = true) := by
          simpa only [Option.isNone_iff_eq_none] using hc
        simp only [step, hn, ne_eq, not_true, if_false, if_neg hc', reduceCtorEq, false_iff]
        exact fun h => hc ⟨h.1.1, h.2.1⟩
    | cons f outer => by_cases hc : t.kind = .closing .curly <;> simp [step, hn, hc]
  · simp [step, hn]

/-- In the sheet itself it is known whether a rule has been begun. -/
theorem pending_iff {front : List Token} {r : Reading} (h : start.run front = .ok r)
    (hn : r.nesting = []) (hf : r.frames = []) :
    r.sheet.pending = none ↔ Token.leadRule front = false := by
  have hin := in_run in_start h
  rw [In, hn, stack, hf] at hin
  obtain ⟨-, hlead⟩ := hin.shows
  have hfind : r.sheet.pending = none ↔
      (Surroundings.start.after front).inside.lead.find? Token.beginsRule = none := by
    rw [← Option.map_eq_none_iff (f := Prelude.grouping), ← hlead, Option.map_eq_none_iff]
  rw [hfind, List.find?_eq_none, Token.leadRule, List.any_eq_false]

theorem top_iff {front : List Token} {r : Reading} (h : start.run front = .ok r) :
    r.nesting = [] ∧ r.frames = [] ↔ Nesting.after [] front = [] := by
  have hbrackets := (in_run in_start h).brackets_nil
  rw [Surroundings.brackets_after] at hbrackets
  have hframes : (∃ f, r.stack = [f]) ↔ r.frames = [] := by cases h : r.frames <;> simp [stack, h]
  rw [← hframes]
  exact hbrackets.symm

theorem step_reported_iff {front : List Token} {r : Reading} (h : start.run front = .ok r) {t : Token}
    {p : Nat} : r.step t = .error p ↔ t.IsReported front ∧ p = Token.sizeOf front := by
  have hposition : r.position = Token.sizeOf front := by
    rw [position_run h, start, Nat.zero_add]
  rw [step_error_iff, hposition, ← and_assoc, top_iff h]
  refine and_congr_left fun _ => and_congr_right fun htop => ?_
  obtain ⟨hn, hf⟩ := (top_iff h).mpr htop.2
  exact pending_iff h hn hf

/-! ## Runs -/

theorem run_error {r : Reading} {ts : List Token} {p : Nat} (h : r.run ts = .error p) :
    ∃ front t back middle, ts = front ++ t :: back ∧ r.run front = .ok middle ∧
      middle.step t = .error p := by
  induction ts generalizing r with
  | nil => cases h
  | cons t ts ih =>
    rw [run] at h
    cases hs : r.step t with
    | error q =>
      rw [hs] at h
      obtain rfl := Except.error.inj h
      exact ⟨[], t, ts, r, rfl, rfl, hs⟩
    | ok next =>
      rw [hs] at h
      obtain ⟨front, u, back, middle, rfl, hfront, hu⟩ := ih h
      exact ⟨t :: front, u, back, middle, rfl, by rw [run, hs]; exact hfront, hu⟩

theorem run_error_of_step {r middle : Reading} {front : List Token} {t : Token} {p : Nat}
    (h : r.run front = .ok middle) (ht : middle.step t = .error p) (back : List Token) :
    r.run (front ++ t :: back) = .error p := by
  rw [run_of_run _ h, run, ht]

theorem run_ok_iff (ts : List Token) : (∃ r, start.run ts = .ok r) ↔
    ∀ front t back, ts = front ++ t :: back → ¬ t.IsReported front := by
  constructor
  · rintro ⟨r, hr⟩ front t back rfl hreported
    obtain ⟨middle, hfront, -⟩ := run_parts hr
    have hstep := (step_reported_iff hfront).mpr ⟨hreported, rfl⟩
    rw [run_error_of_step hfront hstep] at hr
    cases hr
  · intro h
    cases hr : start.run ts with
    | ok r => exact ⟨r, rfl⟩
    | error p =>
      obtain ⟨front, t, back, middle, hts, hfront, hstep⟩ := run_error hr
      exact absurd ((step_reported_iff hfront).mp hstep).1 (h front t back hts)

theorem run_error_iff (ts : List Token) (p : Nat) : start.run ts = .error p ↔
    ∃ front t back, ts = front ++ t :: back ∧ t.IsReported front ∧ p = Token.sizeOf front ∧
      ∃ middle, start.run front = .ok middle := by
  constructor
  · intro h
    obtain ⟨front, t, back, middle, hts, hfront, hstep⟩ := run_error h
    obtain ⟨hreported, hp⟩ := (step_reported_iff hfront).mp hstep
    exact ⟨front, t, back, hts, hreported, hp, middle, hfront⟩
  · rintro ⟨front, t, back, rfl, hreported, hp, middle, hfront⟩
    exact run_error_of_step hfront ((step_reported_iff hfront).mpr ⟨hreported, hp⟩) back

end Reading

/-! ## Sources -/

/-- Tokens up to a closing brace are the same in front of any text. -/
theorem lex_brace {css : Text} {front back : List Token} {t : Token} (h : lex css = front ++ t :: back)
    (ht : t.kind = .closing .curly) :
    t = ⟨.closing .curly, ['\x7d']⟩ ∧ lex (Token.textOf front) = front ∧
      (∀ rest, lex (Token.textOf front ++ '\x7d' :: rest) = front ++ t :: lex rest) ∧
      css = Token.textOf front ++ '\x7d' :: Token.textOf back := by
  have htext : t.text = ['\x7d'] := lex_mark (lex_suffix h) (by rw [ht]; rfl)
  have hbrace : t = ⟨.closing .curly, ['\x7d']⟩ := by rw [← ht, ← htext]
  have hcss : css = Token.textOf front ++ '\x7d' :: Token.textOf back := by
    rw [← text_of_lex css, h, Token.text_of_append, Token.text_of_cons, htext]
    rfl
  rw [hcss] at h
  refine ⟨hbrace, lex_front rfl h rfl, fun rest => ?_, hcss⟩
  have hfront : lex (Token.textOf front ++ '\x7d' :: Token.textOf back) = (front ++ [t]) ++ back := by
    rw [h, List.append_assoc]
    rfl
  have htext : Token.textOf (front ++ [t]) = Token.textOf front ++ ['\x7d'] := by
    rw [Token.text_of_append, hbrace]
    rfl
  have hlast : (front ++ [t]).getLast? = some ⟨.closing .curly, ['\x7d']⟩ := by
    rw [hbrace, List.getLast?_concat]
  simpa [Splits] using splits_cut rfl rest hfront htext hlast

namespace Stylesheet

theorem parse_ok_iff (css : Text) :
    (∃ s, parse css = .ok s) ↔ ∃ r, Reading.start.run (lex css) = .ok r := by
  rw [parse]
  cases Reading.start.run (lex css) <;> simp

theorem before_token {css : Text} {front back : List Token} (h : lex css = front ++ back) :
    css.before (Token.sizeOf front) = Token.textOf front := by
  rw [← text_of_lex css, h, Token.text_of_append, Token.sizeOf, Text.before_byte_size]

theorem parse_error_at {css : Text} {e : StrayBrace} : parse css = .error e ↔
    ∃ p, Reading.start.run (lex css) = .error p ∧ e.line = (css.before p).line := by
  obtain ⟨line⟩ := e
  rw [parse]
  cases Reading.start.run (lex css) <;> simp [eq_comm]

theorem parse_error_iff (css : Text) (e : StrayBrace) : parse css = .error e ↔
    ∃ front t back, lex css = front ++ t :: back ∧ t.IsReported front ∧
      e.line = (Token.textOf front).line ∧ ∃ middle, Reading.start.run front = .ok middle := by
  rw [parse_error_at]
  simp only [Reading.run_error_iff]
  constructor
  · rintro ⟨p, ⟨front, t, back, hlex, hreported, rfl, hmiddle⟩, hline⟩
    exact ⟨front, t, back, hlex, hreported, by rw [hline, before_token hlex], hmiddle⟩
  · rintro ⟨front, t, back, hlex, hreported, hline, hmiddle⟩
    exact ⟨_, ⟨front, t, back, hlex, hreported, rfl, hmiddle⟩, by rw [before_token hlex]; exact hline⟩

/-- The first closing brace at top level in front of which no rule has been begun is
reported, with its line, and nothing else is. -/
theorem stray_brace_reported (css : Text) (e : StrayBrace) : parse css = .error e ↔
    ∃ front brace back, lex css = front ++ brace :: back ∧ brace.IsStray front ∧
      Token.leadRule front = false ∧ e.line = (Token.textOf front).line ∧
      ∀ before t between, front = before ++ t :: between → t.IsStray before →
        Token.leadRule before = true := by
  rw [parse_error_iff]
  simp only [Reading.run_ok_iff]
  refine exists_congr fun front => exists_congr fun brace => exists_congr fun back =>
    and_congr_right fun _ => ?_
  simp only [Token.IsReported, not_and, Bool.not_eq_false, and_assoc]

/-- A rule that has been begun takes the brace into its selector. -/
theorem stray_brace_swallowed : lex "a\x7db\x7b\x7d".toList =
      [⟨.ident, ['a']⟩] ++ ⟨.closing .curly, ['\x7d']⟩ :: lex "b\x7b\x7d".toList ∧
    Token.IsStray [⟨.ident, ['a']⟩] ⟨.closing .curly, ['\x7d']⟩ ∧
    parse "a\x7db\x7b\x7d".toList = .ok ⟨"a\x7db\x7b\x7d".toList, [⟨"a\x7db".toList, [], 4⟩]⟩ :=
  ⟨rfl, ⟨rfl, rfl⟩, rfl⟩

/-- An error stands at a closing brace that no bracket is open in front of. What follows
the brace, and what is put behind the source, makes no difference. -/
theorem errors_located (css : Text) :
    (∀ e, parse css = .error e → ∃ p front back,
      lex css = front ++ ⟨.closing .curly, ['\x7d']⟩ :: back ∧ Token.sizeOf front = p ∧
      Nesting.after [] front = [] ∧ (∃ s, parse (css.before p) = .ok s) ∧
      e.line = 1 + (css.before p).newlines ∧
      ∀ t, parse (css ++ t) = .error e ∧ parse (css.before p ++ '\x7d' :: t) = .error e) ∧
    ((∀ front brace back, lex css = front ++ brace :: back → brace.kind = .closing .curly →
      (Nesting.after [] front).head? = some .curly) → ∃ s, parse css = .ok s) := by
  have hlocated : ∀ e, parse css = .error e → ∃ front brace back, lex css = front ++ brace :: back ∧
      brace.IsReported front ∧ e.line = (Token.textOf front).line ∧
      ∃ middle, Reading.start.run front = .ok middle := fun e => (parse_error_iff css e).mp
  constructor
  · intro e he
    obtain ⟨front, brace, back, hlex, hreported, hline, hmiddle⟩ := hlocated e he
    obtain ⟨rfl, hfront, hrest, hcss⟩ := lex_brace hlex hreported.1.1
    have hbefore := before_token hlex
    have hany : ∀ rest, parse (Token.textOf front ++ '\x7d' :: rest) = .error e := fun rest =>
      (parse_error_iff _ e).mpr ⟨front, _, lex rest, hrest rest, hreported, hline, hmiddle⟩
    refine ⟨_, front, back, hlex, rfl, hreported.1.2, ?_⟩
    rw [hbefore, parse_ok_iff, hfront]
    refine ⟨hmiddle, hline, fun t => ⟨?_, hany t⟩⟩
    rw [hcss, List.append_assoc]
    exact hany _
  · intro hclosed
    cases hp : parse css with
    | ok s => exact ⟨s, rfl⟩
    | error e =>
      obtain ⟨front, brace, back, hlex, ⟨⟨hbrace, htop⟩, -⟩, -⟩ := hlocated e hp
      have := hclosed front brace back hlex hbrace
      simp [htop] at this

/-- The line is counted through a comment and a carriage return with its line feed. -/
theorem errors_located_comment :
    parse "a\x7b\x7d/*\n*/\r\n\x7d".toList = .error ⟨3⟩ ∧
    (∀ t, parse ("a\x7b\x7d/*\n*/\r\n\x7d".toList ++ t) = .error ⟨3⟩) ∧
    ∃ s, parse "\x7b\x7d".toList = .ok s := by
  have herror : parse "a\x7b\x7d/*\n*/\r\n\x7d".toList = .error ⟨3⟩ := rfl
  obtain ⟨_, _, _, -, -, -, -, -, hstable⟩ := (errors_located _).1 _ herror
  refine ⟨herror, fun t => (hstable t).1, (errors_located _).2 fun front brace back h hk => ?_⟩
  have hlex : lex "\x7b\x7d".toList = [⟨.opening .curly, ['\x7b']⟩, ⟨.closing .curly, ['\x7d']⟩] := rfl
  rw [hlex] at h
  rcases front with _ | ⟨first, _ | ⟨second, front⟩⟩
  · obtain ⟨rfl, -⟩ := List.cons.inj h
    cases hk
  · obtain ⟨rfl, -⟩ := List.cons.inj h
    rfl
  · simp at h

end Stylesheet
end CssFallback
