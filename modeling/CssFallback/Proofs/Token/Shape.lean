import CssFallback.Proofs.Token.Cut

/-!
# The shape of tokens

What a token of a known kind looks like. White space is a longest run, and a comment
that something follows is closed, so that white space and comments are split in the same
way in front of any text that does not go on with white space. A token that opens a
bracket holds its mark.
-/

set_option autoImplicit false

namespace CssFallback

namespace Lexeme

theorem tokens_tail {l : Lexeme} {read t : Text} {x : Token} {xs : List Token}
    (h : l.tokens read t = x :: xs) : lex (Token.textOf xs) = xs := by
  induction t generalizing l read with
  | nil =>
    obtain ⟨-, rfl⟩ := List.cons.inj h
    rfl
  | cons c t ih =>
    rw [tokens] at h
    split at h
    · exact ih h
    · obtain ⟨-, rfl⟩ := List.cons.inj h
      rw [text_of_tokens]
      rfl

end Lexeme

theorem lex_tail {s : Text} {x : Token} {xs : List Token} (h : lex s = x :: xs) :
    lex (Token.textOf xs) = xs := by
  cases s with
  | nil => cases h
  | cons c s => exact Lexeme.tokens_tail h

theorem lex_suffix {s : Text} {ps qs : List Token} (h : lex s = ps ++ qs) :
    lex (Token.textOf qs) = qs := by
  induction ps generalizing s with
  | nil =>
    have ht := text_of_lex s
    rw [h] at ht
    rw [List.nil_append] at h ht
    rw [ht, h]
  | cons p ps ih => exact ih (lex_tail h)

/-! ## Kinds -/

namespace Lexeme

theorem step_kind {l next : Lexeme} {read : Text} {c : Char} {rest : Text}
    (h : l.step read c rest = some next) :
    next.kind = l.kind ∨ next.kind = .function ∨ next.kind = .url := by
  cases l with
  | url part =>
    obtain rfl : urlStep part c rest = next := by simpa [step] using h
    cases part <;> simp only [urlStep, urlCharacter] <;> (repeat' split) <;> simp [Lexeme.kind]
  | number part =>
    simp only [step, numberStep] at h
    (repeat' split at h) <;> cases h <;> simp [Lexeme.kind, nameFrom]
  | ending left kind =>
    cases left <;> simp [step] at h
    subst h
    simp [Lexeme.kind]
  | name use e =>
    simp only [step, parenthesis] at h
    (repeat' split at h) <;> cases h <;> cases use <;> simp_all [Lexeme.kind]
  | _ => simp only [step] at h
         (repeat' split at h) <;> cases h <;> simp [Lexeme.kind]

theorem head_kind {l : Lexeme} {read t : Text} {x : Token} {xs : List Token}
    (h : l.tokens read t = x :: xs) : x.kind = l.kind ∨ x.kind = .function ∨ x.kind = .url := by
  induction t generalizing l read with
  | nil =>
    obtain ⟨rfl, -⟩ := List.cons.inj h
    exact .inl rfl
  | cons c t ih =>
    rw [tokens] at h
    split at h
    · rename_i hstep
      rcases ih h with hx | hx
      · rw [hx]
        exact step_kind hstep
      · exact .inr hx
    · obtain ⟨rfl, -⟩ := List.cons.inj h
      exact .inl rfl

theorem start_kind {c : Char} {s : Text} {x : Token} {xs : List Token}
    (h : lex (c :: s) = x :: xs) (hf : x.kind ≠ .function) (hu : x.kind ≠ .url) :
    (start c s).kind = x.kind :=
  ((head_kind h).resolve_right (by simp [hf, hu])).symm

theorem start_space {c : Char} {rest : Text} (h : (start c rest).kind = .space) :
    isSpace c = true := by
  simp only [start, nameFrom, startMark] at h
  by_cases hc : isSpace c
  · exact hc
  rw [if_neg hc] at h
  (repeat' split at h) <;> simp [Lexeme.kind] at h

theorem start_comment {c : Char} {rest : Text} (h : (start c rest).kind = .comment) :
    c = '/' ∧ ∃ t, rest = '*' :: t := by
  simp only [start, nameFrom, startMark] at h
  (repeat' split at h) <;> simp [Lexeme.kind] at h
  rename_i hr
  exact ⟨rfl, List.head?_eq_some_iff.mp hr⟩

theorem start_cdc {c : Char} {rest : Text} (h : (start c rest).kind = .cdc) : c = '-' := by
  simp only [start, nameFrom, startMark] at h
  (repeat' split at h) <;> simp [Lexeme.kind] at h
  rename_i hc
  exact hc.1

theorem space_shape {read t : Text} {x : Token} {xs : List Token}
    (h : space.tokens read t = x :: xs) : x.kind = .space ∧ ∃ sp, sp.all isSpace = true ∧
      x.text = read.reverse ++ sp ∧ (Token.textOf xs).StartsOff isSpace := by
  induction t generalizing read with
  | nil =>
    obtain ⟨rfl, rfl⟩ := List.cons.inj h
    exact ⟨rfl, [], rfl, by simp, Text.starts_off_nil _⟩
  | cons c t ih =>
    rw [tokens] at h
    by_cases hc : isSpace c = true
    · simp only [step, hc, if_true] at h
      obtain ⟨hkind, sp, hsp, hx, hxs⟩ := ih h
      exact ⟨hkind, c :: sp, by simp [hc, hsp], by simp [hx], hxs⟩
    · simp only [step, hc, Bool.false_eq_true, if_false] at h
      obtain ⟨rfl, rfl⟩ := List.cons.inj h
      refine ⟨rfl, [], rfl, by simp, ?_⟩
      rw [text_of_tokens]
      exact Text.starts_off_cons t (by simpa using hc)

theorem comment_shape {read t : Text} {x : Token} {xs : List Token}
    (h : comment.tokens read t = x :: xs) (hxs : xs ≠ []) : ∃ body : Text,
      body.isCommentBody = true ∧ x.text = read.reverse ++ body ++ ['*', '/'] := by
  induction t generalizing read with
  | nil =>
    obtain ⟨-, rfl⟩ := List.cons.inj h
    exact absurd rfl hxs
  | cons c t ih =>
    by_cases hc : c = '*' ∧ t.head? = some '/'
    · obtain ⟨rfl, ht⟩ := hc
      obtain ⟨t, rfl⟩ := List.head?_eq_some_iff.mp ht
      rw [tokens_step (ending 1 .comment) (by simp [step]),
        tokens_step (ending 0 .comment) (by simp [step]), tokens_ending] at h
      obtain ⟨rfl, -⟩ := List.cons.inj h
      exact ⟨[], rfl, by simp⟩
    · rw [tokens_step comment (by simp only [step, if_neg hc])] at h
      obtain ⟨body, hb, hx⟩ := ih h
      have ht : body ++ ['*', '/'] ++ Token.textOf xs = t := by
        have := text_of_tokens comment (c :: read) t
        rw [h] at this
        simpa [Token.textOf, hx] using this
      refine ⟨c :: body, Text.comment_body_cons.mpr ⟨hb, fun hs => hc ⟨hs.1, ?_⟩⟩, by simp [hx]⟩
      rw [← ht]
      cases body with
      | nil => simp at hs
      | cons d body => simpa using hs.2

end Lexeme

theorem lex_space {s : Text} {x : Token} {xs : List Token} (h : lex s = x :: xs)
    (hx : x.kind = .space) :
    x.text.all isSpace = true ∧ (Token.textOf xs).StartsOff isSpace := by
  cases s with
  | nil => cases h
  | cons c s =>
    have hk := Lexeme.start_kind h (by simp [hx]) (by simp [hx])
    have hc := Lexeme.start_space (hk.trans hx)
    rw [lex, show Lexeme.start c s = .space by simp [Lexeme.start, hc]] at h
    obtain ⟨-, sp, hsp, ht, hxs⟩ := Lexeme.space_shape h
    exact ⟨by simp [ht, hc, hsp], hxs⟩

theorem lex_off_space {s : Text} {x : Token} {xs : List Token} (h : lex s = x :: xs)
    (hx : x.kind ≠ .space) : s.StartsOff isSpace := by
  cases s with
  | nil => cases h
  | cons c s =>
    refine Text.starts_off_cons s (Bool.eq_false_iff.mpr fun hc => hx ?_)
    rw [lex, show Lexeme.start c s = .space by simp [Lexeme.start, hc]] at h
    exact (Lexeme.space_shape h).1

theorem lex_comment {s : Text} {x : Token} {xs : List Token} (h : lex s = x :: xs)
    (hx : x.kind = .comment) (hxs : xs ≠ []) :
    ∃ body : Text, body.isCommentBody = true ∧ x.text = commentText body := by
  cases s with
  | nil => cases h
  | cons c s =>
    have hk := Lexeme.start_kind h (by simp [hx]) (by simp [hx])
    obtain ⟨rfl, t, rfl⟩ := Lexeme.start_comment (hk.trans hx)
    have hstart : Lexeme.start '/' ('*' :: t) = .slash := rfl
    rw [lex, hstart, Lexeme.tokens_step .comment (by simp [Lexeme.step])] at h
    obtain ⟨body, hb, ht⟩ := Lexeme.comment_shape h hxs
    exact ⟨body, hb, by simp [ht, commentText]⟩

def Token.Kind.mark? : Token.Kind → Option Char
  | .colon => some ':'
  | .semicolon => some ';'
  | .opening .curly => some '\x7b'
  | .closing .curly => some '\x7d'
  | _ => none

theorem Lexeme.start_mark {c mark : Char} {rest : Text} (h : (start c rest).kind.mark? = some mark) :
    c = mark ∧ start c rest = .ending 0 (start c rest).kind := by
  simp only [start, nameFrom, startMark] at h ⊢
  (repeat' split at h) <;> simp_all [Lexeme.kind, Token.Kind.mark?] <;> exact h

theorem lex_mark {s : Text} {x : Token} {xs : List Token} {mark : Char} (h : lex s = x :: xs)
    (hx : x.kind.mark? = some mark) : x.text = [mark] := by
  cases s with
  | nil => cases h
  | cons c s =>
    have hk := Lexeme.start_kind h (by rintro hf; simp [hf, Token.Kind.mark?] at hx)
      (by rintro hf; simp [hf, Token.Kind.mark?] at hx)
    obtain ⟨rfl, hstart⟩ := Lexeme.start_mark (by rwa [hk])
    rw [lex, hstart, Lexeme.tokens_ending] at h
    obtain ⟨rfl, -⟩ := List.cons.inj h
    rfl

theorem trivia_cases {t : Token} (h : t.isTrivia = true) : t.kind = .space ∨ t.kind = .comment := by
  simpa [Token.isTrivia] using h

/-- White space and comments are split in the same way in front of anything that does
not go on with white space. -/
theorem splits_trivia {gap qs : List Token} (hg : ∀ t ∈ gap, t.isTrivia = true) (hq : qs ≠ [])
    (h : lex (Token.textOf (gap ++ qs)) = gap ++ qs) {rest : Text} (hr : rest.StartsOff isSpace) :
    Splits (Token.textOf gap) gap rest := by
  induction gap with
  | nil => exact Splits.nil rest
  | cons g gap ih =>
    have hgap : ∀ t ∈ gap, t.isTrivia = true := fun t ht => hg t (by simp [ht])
    have hne : gap ++ qs ≠ [] := by simp [hq]
    have htail := ih hgap (lex_tail h)
    suffices hfirst : Splits g.text [g] (Token.textOf gap ++ rest) from hfirst.append htail
    rcases trivia_cases (hg g (by simp)) with hk | hk
    · obtain ⟨hs, hoff⟩ := lex_space h hk
      have hg' : g = ⟨.space, g.text⟩ := by rw [← hk]
      rw [hg']
      refine Splits.space ?_ hs ?_
      · exact text_ne_nil_of_mem_lex _ g (by rw [h]; simp)
      · cases gap with
        | nil => exact hr
        | cons g' gap =>
          have hg' : g'.text ≠ [] := text_ne_nil_of_mem_lex _ g' (by rw [h]; simp)
          have hoff : (Token.textOf (g' :: (gap ++ qs))).StartsOff isSpace := hoff
          rw [Token.text_of_cons, Text.starts_off_append _ hg'] at hoff
          rw [Token.text_of_cons, List.append_assoc, Text.starts_off_append _ hg']
          exact hoff
    · obtain ⟨body, hb, ht⟩ := lex_comment h hk hne
      have hg' : g = ⟨.comment, g.text⟩ := by rw [← hk]
      rw [hg', ht]
      exact Splits.comment _ hb

/-! ## Ends of a piece -/

theorem Splits.head_solid {c : Char} {u rest : Text} {ts : List Token} (h : Splits (c :: u) ts rest)
    (hs : isSpace c = false) (hc : c ≠ '/') : ∀ t, ts.head? = some t → t.isTrivia = false := by
  intro t ht
  obtain ⟨more, rfl⟩ := List.head?_eq_some_iff.mp ht
  cases hk : t.isTrivia with
  | false => rfl
  | true =>
    rcases trivia_cases hk with hk | hk
    · have hstart := Lexeme.start_kind h (by simp [hk]) (by simp [hk])
      simp [Lexeme.start_space (hstart.trans hk)] at hs
    · have hstart := Lexeme.start_kind h (by simp [hk]) (by simp [hk])
      exact absurd (Lexeme.start_comment (hstart.trans hk)).1 hc

theorem Splits.last_solid {u rest : Text} {ts : List Token} (h : Splits u ts rest)
    (hk : ∀ t ∈ ts, t.kind ≠ .comment) (hu : ∀ c, u.getLast? = some c → isSpace c = false) :
    ∀ t, ts.getLast? = some t → t.isTrivia = false := by
  intro t ht
  obtain ⟨front, rfl⟩ := List.getLast?_eq_some_iff.mp ht
  cases htriv : t.isTrivia with
  | false => rfl
  | true =>
    have hspace : t.kind = .space := (trivia_cases htriv).resolve_right (hk t (by simp))
    have htext := h.text_of
    rw [Splits, List.append_assoc] at h
    have hall := (lex_space (lex_suffix h) hspace).1
    have hne : t.text ≠ [] := text_ne_nil_of_mem_lex _ t (by rw [h]; simp)
    have hlast : t.text.getLast hne ∈ t.text := List.getLast_mem hne
    have := hu (t.text.getLast hne) (by
      rw [← htext, Token.text_of_append, Token.text_of_cons]
      simp [Token.textOf, List.getLast?_append, List.getLast?_eq_some_getLast hne])
    simp [List.all_eq_true.mp hall _ hlast] at this

/-! ## Opening brackets -/

def Bracket.mark : Bracket → Char
  | .paren => '('
  | .square => '['
  | .curly => '\x7b'

namespace Lexeme

theorem step_function {l next : Lexeme} {read : Text} {c : Char} {rest : Text}
    (h : l.step read c rest = some next) (hf : next.kind = .function) :
    l.kind = .function ∨ c = '(' := by
  cases l with
  | url part =>
    obtain rfl : urlStep part c rest = next := by simpa [step] using h
    cases part <;> simp only [urlStep, urlCharacter] at hf <;> (repeat' split at hf) <;>
      simp [Lexeme.kind] at hf
  | number part =>
    simp only [step, numberStep] at h
    (repeat' split at h) <;> cases h <;> simp [Lexeme.kind, nameFrom] at hf
  | ending left kind =>
    cases left <;> simp [step] at h
    subst h
    exact .inl hf
  | name use e =>
    simp only [step] at h
    (repeat' split at h) <;> cases h <;> first | (cases use <;> cases hf) | exact .inr ‹_ ∧ _›.2
  | _ => simp only [step] at h
         (repeat' split at h) <;> cases h <;> cases hf

/-- Whatever opens a bracket holds its mark. -/
def Holds (kind : Token.Kind) (u : Text) : Prop :=
  ∀ b, (⟨kind, u⟩ : Token).opens? = some b → b.mark ∈ u

theorem start_holds (c : Char) (rest : Text) : Holds (start c rest).kind [c] := by
  intro b hb
  simp only [start, nameFrom, startMark] at hb
  (repeat' split at hb) <;> simp [Lexeme.kind, Token.opens?] at hb <;> subst hb <;>
    exact List.mem_singleton.mpr rfl

theorem step_holds {l next : Lexeme} {read : Text} {c : Char} {rest : Text}
    (h : l.step read c rest = some next) (hl : Holds l.kind read.reverse) :
    Holds next.kind (c :: read).reverse := by
  have hold : next.kind = l.kind → Holds next.kind (c :: read).reverse := by
    intro hk b hb
    have := hl b (by rw [← hk]; exact hb)
    rw [List.reverse_cons]
    exact List.mem_append_left _ this
  rcases step_kind h with hk | hk | hk
  · exact hold hk
  · rcases step_function h hk with hl' | rfl
    · exact hold (hk.trans hl'.symm)
    · intro b hb
      obtain rfl : b = .paren := by simpa [hk, Token.opens?, eq_comm] using hb
      simp [Bracket.mark]
  · intro b hb
    simp [hk, Token.opens?] at hb

theorem tokens_hold {l : Lexeme} {read : Text} (t : Text) (hl : Holds l.kind read.reverse) :
    ∀ x ∈ l.tokens read t, Holds x.kind x.text := by
  induction t generalizing l read with
  | nil => simpa [tokens] using hl
  | cons c t ih =>
    rw [tokens]
    cases hs : l.step read c t with
    | some next => exact ih (step_holds hs hl)
    | none =>
      intro x hx
      rcases List.mem_cons.mp hx with rfl | hx
      · exact hl
      · exact ih (start_holds c t) x hx

end Lexeme

theorem mark_of_opens {s : Text} {t : Token} {b : Bracket} (ht : t ∈ lex s) (hb : t.opens? = some b) :
    b.mark ∈ t.text := by
  cases s with
  | nil => cases ht
  | cons c s => exact Lexeme.tokens_hold s (Lexeme.start_holds c s) t ht b hb

end CssFallback
