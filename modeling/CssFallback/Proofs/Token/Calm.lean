import CssFallback.Proofs.Token.Shape

/-!
# Calm texts

Selectors and plain values are written in letters, digits and a few marks. No such
character begins a string, a comment, an escape or a block, so that a calm text whose
parentheses close is split in front of anything that ends a token. An unquoted url takes
in all up to its first closing parenthesis; the parentheses that close later then have
nothing to close.
-/

set_option autoImplicit false

namespace CssFallback

def isCalm (c : Char) : Bool := c.isAlpha || c.isDigit || ".#&*>:,- ()".toList.contains c

/-- A character that no token of calm characters goes on with, white space apart. -/
def isStop (c : Char) : Bool := isSpace c || "/!;\x7b\x7d".toList.contains c

def goesOn (c : Char) : Bool := !isStop c

theorem calm_cases {c : Char} (h : isCalm c = true) : c.isAlpha = true ∨ c.isDigit = true ∨
    c = '.' ∨ c = '#' ∨ c = '&' ∨ c = '*' ∨ c = '>' ∨ c = ':' ∨ c = ',' ∨ c = '-' ∨ c = ' ' ∨
      c = '(' ∨ c = ')' := by
  simpa [isCalm, or_assoc] using h

theorem stop_cases {c : Char} (h : isStop c = true) : c = ' ' ∨ c = '\t' ∨ c = '\n' ∨ c = '\r' ∨
    c = '\x0c' ∨ c = '/' ∨ c = '!' ∨ c = ';' ∨ c = '\x7b' ∨ c = '\x7d' := by
  simpa [isStop, isSpace, isNewline, or_assoc] using h

theorem extends_of_stop {c : Char} (h : isStop c = true) : extendsName c = false := by
  rcases stop_cases h with rfl | rfl | rfl | rfl | rfl | rfl | rfl | rfl | rfl | rfl <;> decide

theorem name_ends {rest : Text} (hr : rest.StartsOff goesOn) : rest.StartsOff extendsName := by
  apply hr.mono
  intro c hc
  exact extends_of_stop (by simpa [goesOn] using hc)

theorem space_of_digit {c : Char} (h : c.isDigit = true) : isSpace c = false := by
  simp [isSpace, isNewline, ne_of_class h]

theorem Lexeme.start_digit {c : Char} (rest : Text) (h : c.isDigit = true) :
    start c rest = .number .whole := by
  simp [start, space_of_digit h, Text.startsNumber, Text.startsUnsigned, h, ne_of_class h]

theorem calm_space {c : Char} (h : isCalm c = true) (hs : isSpace c = true) : c = ' ' := by
  simp only [isSpace, isNewline, Bool.or_eq_true, beq_iff_eq] at hs
  rcases hs with (rfl | rfl) | (rfl | rfl) | rfl
  · rfl
  all_goals cases h

theorem space_off_calm {c : Char} (hc : isCalm c = true) (hs : c ≠ ' ') : isSpace c = false := by
  cases h : isSpace c with
  | false => rfl
  | true => exact absurd (calm_space hc h) hs

theorem head_of_calm {p : Char → Bool} {u rest : Text} (hr : rest.StartsOff goesOn)
    (hp : ∀ c, isStop c = true → p c = false) (h : (u ++ rest).head?.any p = true) :
    ∃ c t, u = c :: t ∧ p c = true := by
  cases u with
  | nil =>
    cases rest with
    | nil => simp at h
    | cons c rest =>
      have hc := hr c rfl
      simp only [goesOn, Bool.not_eq_false'] at hc
      simp [hp c hc] at h
  | cons c u => exact ⟨c, u, rfl, by simpa using h⟩

theorem Text.last_cons {c : Char} {u : Text} (h : (c :: u).getLast? ≠ some ' ') :
    (c = ' ' → u ≠ []) ∧ u.getLast? ≠ some ' ' := by
  cases u with
  | nil => simpa using h
  | cons a u => exact ⟨by simp, by simpa [List.getLast?_cons] using h⟩

/-! ## Parentheses -/

namespace Text

/-- All parentheses close, where `d` of them are open in front. -/
def closes : Nat → Text → Bool
  | d, [] => d == 0
  | d, c :: t =>
    if c = '(' then closes (d + 1) t else if c = ')' then 0 < d && closes (d - 1) t else closes d t

end Text

def DepthStep (d : Nat) (c : Char) (d' : Nat) : Prop :=
  c = '(' ∧ d' = d + 1 ∨ c = ')' ∧ d = d' + 1 ∨ c ≠ '(' ∧ c ≠ ')' ∧ d' = d

theorem Text.closes_cons {d : Nat} {c : Char} {t : Text} (h : closes d (c :: t) = true) :
    ∃ d', DepthStep d c d' ∧ closes d' t = true := by
  rw [closes] at h
  by_cases ho : c = '('
  · rw [if_pos ho] at h
    exact ⟨d + 1, .inl ⟨ho, rfl⟩, h⟩
  rw [if_neg ho] at h
  by_cases hc : c = ')'
  · rw [if_pos hc, Bool.and_eq_true, decide_eq_true_eq] at h
    exact ⟨d - 1, .inr (.inl ⟨hc, by omega⟩), h.2⟩
  · rw [if_neg hc] at h
    exact ⟨d, .inr (.inr ⟨ho, hc, rfl⟩), h⟩

theorem Text.closes_plain {u : Text} (ho : '(' ∉ u) (hc : ')' ∉ u) : u.closes 0 = true := by
  induction u with
  | nil => rfl
  | cons c u ih =>
    have hoc : c ≠ '(' := by
      rintro rfl
      simp at ho
    have hcc : c ≠ ')' := by
      rintro rfl
      simp at hc
    rw [closes, if_neg hoc, if_neg hcc]
    exact ih (fun h => ho (by simp [h])) fun h => hc (by simp [h])

theorem DepthStep.same {d d' : Nat} {c : Char} (h : DepthStep d c d') (ho : c ≠ '(') (hc : c ≠ ')') :
    d' = d := by
  rcases h with ⟨h, -⟩ | ⟨h, -⟩ | ⟨-, -, h⟩
  · exact absurd h ho
  · exact absurd h hc
  · exact h

theorem DepthStep.opened {d d' : Nat} (h : DepthStep d '(' d') : d' = d + 1 := by
  rcases h with ⟨-, h⟩ | ⟨h, -⟩ | ⟨h, -⟩
  · exact h
  · cases h
  · exact absurd rfl h

theorem DepthStep.closed {d d' : Nat} (h : DepthStep d ')' d') : d = d' + 1 := by
  rcases h with ⟨h, -⟩ | ⟨-, h⟩ | ⟨-, h, -⟩
  · cases h
  · exact h
  · exact absurd rfl h

theorem DepthStep.le {d d' : Nat} {c : Char} (h : DepthStep d c d') (hc : c ≠ ')') : d ≤ d' := by
  rcases h with ⟨-, h⟩ | ⟨h, -⟩ | ⟨-, -, h⟩
  · omega
  · exact absurd h hc
  · omega

/-! ## Kinds -/

namespace Token.Kind

def isCalm : Token.Kind → Bool
  | .space | .ident | .function | .hash | .url | .number | .cdc | .colon | .comma | .delim => true
  | .opening .paren | .closing .paren => true
  | _ => false

def depth (k : Nat) : Token.Kind → Nat
  | .function | .opening .paren => k + 1
  | .closing .paren => k - 1
  | _ => k

end Token.Kind

def Token.depthAfter (k : Nat) (ts : List Token) : Nat := ts.foldl (fun k t => t.kind.depth k) k

/-! ## States -/

def UrlPart.IsCalm (part : UrlPart) : Prop :=
  part = .lead ∨ part = .body .none ∨ part = .trail ∨ part = .bad

namespace Lexeme

/-- The states of the lexer within calm characters `u`, where `k` parentheses are open in
front of the token and `d` of them in the text. -/
def Calm (k d : Nat) (u : Text) : Lexeme → Prop
  | .space => k ≤ d ∧ u ≠ []
  | .name use e => k ≤ d ∧ use ≠ .atKeyword ∧ e = .none
  | .number .mark => k ≤ d ∧ ∃ c t, u = c :: t ∧ (c.isDigit = true ∨ c = '-')
  | .number _ => k ≤ d
  | .url part => k + 1 ≤ d ∧ part.IsCalm
  | .ending 0 kind => kind.depth k ≤ d ∧ kind.isCalm = true
  | .ending 1 kind => k ≤ d ∧ kind = .cdc ∧ ∃ t, u = '>' :: t
  | .ending 2 kind => k ≤ d ∧ kind = .cdc ∧ ∃ t, u = '-' :: '>' :: t
  | _ => False

section
variable {k d d' : Nat} {c : Char} {u rest : Text} (hr : rest.StartsOff goesOn)
  (hu : u.all isCalm = true)
include hr hu

theorem no_match : ((u ++ rest).head? == some '=') = false := by
  cases h : (u ++ rest).head? with
  | none => rfl
  | some a =>
    by_cases ha : a = '='
    · obtain ⟨c, t, rfl, hc⟩ := head_of_calm (u := u) (p := (· == '=')) hr
        (fun c hc => by simpa using ne_of_class hc (by decide)) (by simp [h, ha])
      obtain rfl : c = '=' := by simpa using hc
      simp [isCalm] at hu
    · simpa using ha

omit hu in
theorem dashes_calm (h : "->".toList.isPrefixOf (u ++ rest) = true) : ∃ t, u = '-' :: '>' :: t := by
  have hstop : ∀ c t, rest = c :: t → isStop c = true := fun c t h => by
    simpa [goesOn] using hr c (by simp [h])
  rcases u with _ | ⟨a, _ | ⟨b, u⟩⟩
  · cases rest with
    | nil => simp at h
    | cons c rest =>
      have hc : '-' ≠ c := (ne_of_class (hstop c rest rfl) (by decide)).symm
      simp [hc] at h
  · cases rest with
    | nil => simp at h
    | cons c rest =>
      have hc : '>' ≠ c := (ne_of_class (hstop c rest rfl) (by decide)).symm
      simp [hc] at h
  · obtain ⟨rfl, rfl⟩ : '-' = a ∧ '>' = b := by simpa using h
    exact ⟨u, rfl⟩

theorem start_calm (hc : isCalm c = true) (hk : k ≤ d) (hd : DepthStep d c d')
    (hl : c = ' ' → u ≠ []) : (start c (u ++ rest)).Calm k d' u := by
  have hsame : c ≠ '(' → c ≠ ')' → k ≤ d' := fun ho hc => (hd.same ho hc) ▸ hk
  have hdelim : k ≤ d' → (ending 0 Token.Kind.delim).Calm k d' u := fun h => ⟨h, rfl⟩
  rcases calm_cases hc with h | h | h | h | h | h | h | h | h | h | h | h | h
  · rw [start_alpha _ h]
    exact ⟨hsame (ne_of_class h rfl) (ne_of_class h rfl), by decide, rfl⟩
  · rw [start_digit _ h]
    exact hsame (ne_of_class h rfl) (ne_of_class h rfl)
  all_goals subst h
  · cases hdigit : (u ++ rest).startsDigit with
    | true =>
      rw [show start '.' (u ++ rest) = .number .fraction by
        simp [start, isSpace, isNewline, Text.startsNumber, Text.startsUnsigned, hdigit]]
      exact hsame (by decide) (by decide)
    | false =>
      rw [show start '.' (u ++ rest) = .ending 0 .delim by
        simp [start, isSpace, isNewline, Text.startsNumber, Text.startsUnsigned, hdigit,
          Text.startsName, isNameStart, startMark]]
      exact hdelim (hsame (by decide) (by decide))
  · rw [show start '#' (u ++ rest) = if (u ++ rest).startsName || (u ++ rest).startsDigit ||
      (u ++ rest).head? == some '-' then .name .hash .none else .ending 0 .delim from rfl]
    split
    · exact ⟨hsame (by decide) (by decide), by decide, rfl⟩
    · exact hdelim (hsame (by decide) (by decide))
  · exact hdelim (hsame (by decide) (by decide))
  · rw [show start '*' (u ++ rest) = if (u ++ rest).head? == some '=' then .ending 1 .matcher else
      .ending 0 .delim from rfl, no_match hr hu]
    exact hdelim (hsame (by decide) (by decide))
  · exact hdelim (hsame (by decide) (by decide))
  · exact ⟨hsame (by decide) (by decide), rfl⟩
  · exact ⟨hsame (by decide) (by decide), rfl⟩
  · have hk' : k ≤ d' := hsame (by decide) (by decide)
    rw [start, if_neg (by decide)]
    split
    · exact hk'
    split
    · rename_i h
      exact ⟨hk', rfl, dashes_calm hr h.2⟩
    split
    · exact ⟨hk', by decide, rfl⟩
    · exact hdelim hk'
  · exact ⟨hsame (by decide) (by decide), hl rfl⟩
  · rw [hd.opened]
    exact ⟨Nat.succ_le_succ hk, rfl⟩
  · rw [hd.closed] at hk
    exact ⟨Nat.sub_le_of_le_add hk, rfl⟩

theorem exponent_calm (h : (u ++ rest).startsExponent = true) :
    ∃ c t, u = c :: t ∧ (c.isDigit = true ∨ c = '-') := by
  cases u with
  | nil =>
    cases rest with
    | nil => cases h
    | cons c rest =>
      have hc : isStop c = true := by simpa [goesOn] using hr c rfl
      rcases stop_cases hc with rfl | rfl | rfl | rfl | rfl | rfl | rfl | rfl | rfl | rfl <;> cases h
  | cons c u =>
    refine ⟨c, u, rfl, ?_⟩
    have hplus : c ≠ '+' := ne_of_class (List.all_eq_true.mp hu c (by simp)) rfl
    simp only [List.cons_append, Text.startsExponent, Bool.or_eq_true, Bool.and_eq_true, beq_iff_eq,
      hplus, false_or] at h
    exact h.imp_right And.left

omit hr hu in
theorem url_step_calm {part : UrlPart} {t : Text} (hp : part.IsCalm) (hc : c ≠ '\\') :
    c = ')' ∧ urlStep part c t = .ending 0 .url ∨
      c ≠ ')' ∧ ∃ next, urlStep part c t = .url next ∧ next.IsCalm := by
  by_cases hclose : c = ')'
  · subst hclose
    refine .inl ⟨rfl, ?_⟩
    rcases hp with rfl | rfl | rfl | rfl <;> rfl
  · refine .inr ⟨hclose, ?_⟩
    have hchar : ∃ next, urlCharacter c t = .url next ∧ next.IsCalm := by
      simp only [urlCharacter, hclose, hc, if_false]
      split
      · exact ⟨.trail, rfl, by simp [UrlPart.IsCalm]⟩
      split
      · exact ⟨.bad, rfl, by simp [UrlPart.IsCalm]⟩
      · exact ⟨.body .none, rfl, by simp [UrlPart.IsCalm]⟩
    rcases hp with rfl | rfl | rfl | rfl
    · by_cases hs : isSpace c = true
      · exact ⟨.lead, by simp [urlStep, hs], by simp [UrlPart.IsCalm]⟩
      · simpa [urlStep, hs] using hchar
    · simpa [urlStep, Escape.step] using hchar
    · by_cases hs : isSpace c = true
      · exact ⟨.trail, by simp [urlStep, hs], by simp [UrlPart.IsCalm]⟩
      · exact ⟨.bad, by simp [urlStep, hs, hclose], by simp [UrlPart.IsCalm]⟩
    · exact ⟨.bad, by simp [urlStep, hclose, hc], by simp [UrlPart.IsCalm]⟩

theorem number_step_calm {part : NumberPart} {next : Lexeme} (hl : (number part).Calm k d (c :: u))
    (hc : isCalm c = true) (h : numberStep part c (u ++ rest) = some next) :
    k ≤ d ∧ c ≠ '(' ∧ c ≠ ')' ∧ ∀ d', k ≤ d' → next.Calm k d' u := by
  have hk : k ≤ d := by cases part <;> first | exact hl | exact hl.1
  have hdigit : c.isDigit = true → c ≠ '(' ∧ c ≠ ')' := fun hc =>
    ⟨ne_of_class hc rfl, ne_of_class hc rfl⟩
  rw [numberStep] at h
  split at h
  · rename_i hp
    subst hp
    obtain rfl := Option.some.inj h
    obtain ⟨-, a, t, ht, ha⟩ := hl
    obtain ⟨rfl, rfl⟩ := List.cons.inj ht
    have hne : c ≠ '(' ∧ c ≠ ')' := ha.elim hdigit fun h => by subst h; decide
    exact ⟨hk, hne.1, hne.2, fun _ h => h⟩
  rename_i hp
  split at h
  · rename_i hd
    obtain rfl := Option.some.inj h
    refine ⟨hk, (hdigit hd).1, (hdigit hd).2, fun d' hk' => ?_⟩
    cases part with
    | mark => exact absurd rfl hp
    | _ => exact hk'
  split at h
  · rename_i hpoint
    obtain rfl := Option.some.inj h
    obtain rfl := hpoint.2.1
    exact ⟨hk, by decide, by decide, fun _ h => h⟩
  split at h
  · rename_i hexp
    obtain rfl := Option.some.inj h
    have hne : c ≠ '(' ∧ c ≠ ')' := hexp.2.1.elim (fun h => by subst h; decide) fun h => by subst h; decide
    exact ⟨hk, hne.1, hne.2, fun _ h => ⟨h, exponent_calm hr hu hexp.2.2⟩⟩
  split at h
  · rename_i hpercent
    subst hpercent
    cases hc
  split at h
  · rename_i hname
    obtain rfl := Option.some.inj h
    have ho : c ≠ '(' := by
      rintro rfl
      cases hname
    have hcl : c ≠ ')' := by
      rintro rfl
      cases hname
    exact ⟨hk, ho, hcl, fun _ h => ⟨h, by decide, if_neg (ne_of_class hc rfl)⟩⟩
  · cases h

theorem step_calm {l next : Lexeme} {read : Text} (hl : l.Calm k d (c :: u)) (hc : isCalm c = true)
    (hd : DepthStep d c d') (hlast : c = ' ' → u ≠ [])
    (h : l.step read c (u ++ rest) = some next) : next.Calm k d' u := by
  have hsame : c ≠ '(' → c ≠ ')' → d' = d := hd.same
  have hesc : c ≠ '\\' := ne_of_class hc rfl
  cases l with
  | space =>
    simp only [step] at h
    split at h
    · rename_i hs
      obtain rfl := Option.some.inj h
      have hspace := calm_space hc hs
      subst hspace
      exact ⟨hsame (by decide) (by decide) ▸ hl.1, hlast rfl⟩
    · cases h
  | name use e =>
    obtain ⟨hk, hat, rfl⟩ := hl
    simp only [step, Escape.step, hesc, false_and, if_false] at h
    split at h
    · rename_i hname
      obtain rfl := Option.some.inj h
      exact ⟨hsame (ne_of_class hname rfl) (ne_of_class hname rfl) ▸ hk, hat, rfl⟩
    split at h
    · rename_i hopen
      obtain rfl := Option.some.inj h
      obtain ⟨-, rfl⟩ := hopen
      rw [parenthesis, hd.opened]
      split
      · exact ⟨Nat.succ_le_succ hk, .inl rfl⟩
      · exact ⟨Nat.succ_le_succ hk, rfl⟩
    · cases h
  | number part =>
    obtain ⟨hk, ho, hcl, hnext⟩ := number_step_calm hr hu hl hc h
    exact hnext d' (hsame ho hcl ▸ hk)
  | url part =>
    obtain rfl := Option.some.inj h
    rcases url_step_calm (t := u ++ rest) hl.2 hesc with ⟨rfl, hs⟩ | ⟨hcl, next, hs, hnext⟩
    · rw [hs]
      have hk := hl.1
      rw [hd.closed] at hk
      exact ⟨Nat.le_of_succ_le_succ hk, rfl⟩
    · rw [hs]
      exact ⟨Nat.le_trans hl.1 (hd.le hcl), hnext⟩
  | ending left kind =>
    rcases left with _ | _ | _ | left
    · cases h
    · obtain ⟨hk, rfl, t, ht⟩ := hl
      obtain ⟨rfl, rfl⟩ := List.cons.inj ht
      obtain rfl := Option.some.inj h
      exact ⟨hsame (by decide) (by decide) ▸ hk, rfl⟩
    · obtain ⟨hk, rfl, t, ht⟩ := hl
      obtain ⟨rfl, rfl⟩ := List.cons.inj ht
      obtain rfl := Option.some.inj h
      exact ⟨hsame (by decide) (by decide) ▸ hk, rfl, t, rfl⟩
    · exact hl.elim
  | _ => exact hl.elim

omit hr hu in
theorem end_calm {l : Lexeme} {read t : Text} (hl : l.Calm k d (c :: u))
    (h : l.step read c t = none) : l.kind.depth k ≤ d ∧ l.kind.isCalm = true := by
  cases l with
  | space => exact ⟨hl.1, rfl⟩
  | name use e =>
    cases use with
    | atKeyword => exact absurd rfl hl.2.1
    | _ => exact ⟨hl.1, rfl⟩
  | number part => cases part <;> first | exact ⟨hl, rfl⟩ | exact ⟨hl.1, rfl⟩
  | url part => simp [step] at h
  | ending left kind =>
    cases left with
    | zero => exact hl
    | succ left => simp [step] at h
  | _ => exact hl.elim

omit hu in
theorem stop_calm {l : Lexeme} (read : Text) (hl : l.Calm k 0 []) :
    l.EndsAt read rest ∧ l.kind.depth k ≤ 0 ∧ l.kind.isCalm = true := by
  have hstop : ∀ c t, rest = c :: t → isStop c = true := fun c t h => by
    simpa [goesOn] using hr c (by simp [h])
  cases l with
  | space => exact absurd rfl hl.2
  | name use e =>
    obtain ⟨hk, hat, rfl⟩ := hl
    refine ⟨fun c t hc => ?_, by cases use <;> exact hk, ?_⟩
    · rcases stop_cases (hstop c t hc) with rfl | rfl | rfl | rfl | rfl | rfl | rfl | rfl | rfl | rfl <;>
        cases use <;> rfl
    · cases use <;> first | rfl | exact absurd rfl hat
  | number part =>
    cases part with
    | mark =>
      obtain ⟨-, c, t, h, -⟩ := hl
      cases h
    | _ =>
      refine ⟨fun c t hc => ?_, hl, rfl⟩
      rcases stop_cases (hstop c t hc) with rfl | rfl | rfl | rfl | rfl | rfl | rfl | rfl | rfl | rfl <;>
        rfl
  | url part => exact absurd hl.1 (by omega)
  | ending left kind =>
    rcases left with _ | _ | _ | left
    · exact ⟨fun _ _ _ => rfl, hl⟩
    · obtain ⟨-, -, t, ht⟩ := hl
      cases ht
    · obtain ⟨-, -, t, ht⟩ := hl
      cases ht
    · exact hl.elim
  | _ => exact hl.elim
end

theorem tokens_calm {l : Lexeme} (read : Text) {u rest : Text} {k d : Nat} (hl : l.Calm k d u)
    (hu : u.all isCalm = true) (hd : u.closes d = true) (hlast : u.getLast? ≠ some ' ')
    (hr : rest.StartsOff goesOn) :
    ∃ ts, l.tokens read (u ++ rest) = ts ++ lex rest ∧ (∀ t ∈ ts, t.kind.isCalm = true) ∧
      Token.depthAfter k ts = 0 := by
  induction u generalizing l read k d with
  | nil =>
    obtain rfl : d = 0 := by simpa [Text.closes] using hd
    obtain ⟨hend, hk, hcalm⟩ := stop_calm hr read hl
    exact ⟨[⟨l.kind, read.reverse⟩], tokens_end hend, by simpa using hcalm, Nat.le_zero.mp hk⟩
  | cons c u ih =>
    obtain ⟨d', hstep, hd'⟩ := Text.closes_cons hd
    simp only [List.all_cons, Bool.and_eq_true] at hu
    obtain ⟨hspace, hlast'⟩ := Text.last_cons hlast
    cases hs : l.step read c (u ++ rest) with
    | some next =>
      rw [List.cons_append, tokens_step next hs]
      exact ih _ (step_calm hr hu.2 hl hu.1 hstep hspace hs) hu.2 hd' hlast'
    | none =>
      obtain ⟨hk, hcalm⟩ := end_calm hl hs
      obtain ⟨ts, hts, hall, hdepth⟩ := ih [c] (start_calm hr hu.2 hu.1 hk hstep hspace)
        hu.2 hd' hlast'
      refine ⟨⟨l.kind, read.reverse⟩ :: ts, ?_, by simpa [hcalm] using hall, hdepth⟩
      rw [List.cons_append, tokens, hs]
      simp [hts]

end Lexeme

/-- A calm text whose parentheses close is split as if it stood alone. -/
theorem splits_calm {u rest : Text} (hu : u.all isCalm = true) (hd : u.closes 0 = true)
    (hlast : u.getLast? ≠ some ' ') (hr : rest.StartsOff goesOn) :
    ∃ ts, Splits u ts rest ∧ (∀ t ∈ ts, t.kind.isCalm = true) ∧ Token.depthAfter 0 ts = 0 := by
  cases u with
  | nil => exact ⟨[], Splits.nil rest, by simp, rfl⟩
  | cons c u =>
    obtain ⟨d, hstep, hd'⟩ := Text.closes_cons hd
    simp only [List.all_cons, Bool.and_eq_true] at hu
    obtain ⟨hspace, hlast'⟩ := Text.last_cons hlast
    exact Lexeme.tokens_calm [c] (Lexeme.start_calm hr hu.2 hu.1 (Nat.le_refl 0) hstep hspace) hu.2 hd'
      hlast' hr

end CssFallback
