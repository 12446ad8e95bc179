import CssFallback.Proofs.Token.Ahead

/-!
# Characters that cut a text

A semicolon or a brace that is a token of its own cuts a text: what stands in front of it
is split as if the text ended there, and what follows it is split as if it stood alone.
-/

set_option autoImplicit false

namespace CssFallback

def isCut (c : Char) : Bool := c == ';' || c == '\x7b' || c == '\x7d'

theorem cut_cases {c : Char} (h : isCut c = true) : c = ';' ∨ c = '\x7b' ∨ c = '\x7d' := by
  simpa [isCut, or_assoc] using h

/-- Every decision that looks ahead is the same in front of a character that cuts and at the
end of a text. -/
theorem LooksLike.cut {c : Char} (hc : isCut c = true) (s : Text) : LooksLike (c :: s) [] := by
  rcases cut_cases hc with rfl | rfl | rfl <;>
    exact ⟨Text.starts_off_cons s rfl, Text.starts_off_nil _, rfl⟩

namespace Lexeme
section
variable {c : Char} (hc : isCut c = true) (w s : Text)
include hc

theorem step_end (l : Lexeme) (read : Text) (a : Char) :
    l.step read a (w ++ c :: s) = l.step read a w := by
  rw [(LooksLike.cut hc s).step w, List.append_nil]

theorem start_end (a : Char) : start a (w ++ c :: s) = start a w := by
  rw [(LooksLike.cut hc s).start w, List.append_nil]

variable (t : Text)

theorem step_cut (l : Lexeme) (read : Text) (a : Char) :
    l.step read a (w ++ c :: s) = l.step read a (w ++ c :: t) :=
  (step_end hc w s l read a).trans (step_end hc w t l read a).symm

theorem start_cut (a : Char) : start a (w ++ c :: s) = start a (w ++ c :: t) :=
  (start_end hc w s a).trans (start_end hc w t a).symm

theorem step_at_cut (l : Lexeme) (read : Text) : l.step read c s = l.step read c t := by
  cases l with
  | name use e =>
    rcases cut_cases hc with rfl | rfl | rfl <;> cases use <;> cases e <;> rfl
  | number part => rcases cut_cases hc with rfl | rfl | rfl <;> cases part <;> rfl
  | quoted quote e => rcases cut_cases hc with rfl | rfl | rfl <;> cases e <;> rfl
  | url part =>
    cases part with
    | body e => rcases cut_cases hc with rfl | rfl | rfl <;> cases e <;> rfl
    | _ => rcases cut_cases hc with rfl | rfl | rfl <;> rfl
  | ending left kind => cases left <;> rfl
  | _ => rcases cut_cases hc with rfl | rfl | rfl <;> rfl

theorem start_at_cut : ∃ kind, ∀ s, start c s = .ending 0 kind := by
  rcases cut_cases hc with rfl | rfl | rfl
  · exact ⟨.semicolon, fun _ => rfl⟩
  · exact ⟨.opening .curly, fun _ => rfl⟩
  · exact ⟨.closing .curly, fun _ => rfl⟩

end
end Lexeme

/-! ## Cutting -/

/-- Tokens of the same text are the same tokens. -/
theorem split_unique {ps ps' : List Token} (qs qs' : List Token) (hne : ∀ t ∈ ps ++ qs, t.text ≠ [])
    (h : ps ++ qs = ps' ++ qs') (ht : Token.textOf ps = Token.textOf ps') : ps = ps' := by
  have hnil : ∀ ts : List Token, (∀ t ∈ ts, t.text ≠ []) → Token.textOf ts = [] → ts = [] := by
    intro ts hts he
    cases ts with
    | nil => rfl
    | cons t ts => exact absurd (List.append_eq_nil_iff.mp he).1 (hts t (by simp))
  rcases List.append_eq_append_iff.mp h with ⟨as, rfl, rfl⟩ | ⟨as, rfl, rfl⟩
  · have : as = [] := hnil as (fun t h => hne t (by simp [h])) (by
      simpa [Token.text_of_append] using ht)
    simp [this]
  · have : as = [] := hnil as (fun t h => hne t (by simp [h])) (by
      simpa [Token.text_of_append] using ht)
    simp [this]

namespace Lexeme

theorem head_text {l : Lexeme} {read t : Text} {x : Token} {xs : List Token}
    (h : l.tokens read t = x :: xs) : ∃ more, x.text = read.reverse ++ more := by
  induction t generalizing l read with
  | nil =>
    obtain ⟨rfl, -⟩ := List.cons.inj h
    exact ⟨[], by simp⟩
  | cons c t ih =>
    rw [tokens] at h
    split at h
    · obtain ⟨more, hm⟩ := ih h
      exact ⟨c :: more, by simp [hm]⟩
    · obtain ⟨rfl, -⟩ := List.cons.inj h
      exact ⟨[], by simp⟩

theorem ends_at_mark {c : Char} {l : Lexeme} {read s : Text} {ps qs : List Token}
    {kind : Token.Kind} (hr : read ≠ []) (h : l.tokens read (c :: s) = ps ++ qs)
    (ht : Token.textOf ps = read.reverse ++ [c]) (hl : ps.getLast? = some ⟨kind, [c]⟩) :
    l.step read c s = none := by
  cases hstep : l.step read c s with
  | none => rfl
  | some next =>
    exfalso
    have hne := text_ne_nil_of_mem_tokens l read (c :: s) hr
    rw [h] at hne
    rw [tokens, hstep] at h
    cases ps with
    | nil => simp at hl
    | cons p ps =>
      -- the first token holds the character, so that it is the only one
      obtain ⟨more, hp⟩ := head_text h
      have htail : more ++ Token.textOf ps = [] := by
        rw [Token.text_of_cons, hp] at ht
        simpa using ht
      cases ps with
      | nil =>
        obtain rfl : p = ⟨kind, [c]⟩ := by simpa using hl
        have : read = [] := by simpa [Token.textOf] using ht
        exact hr this
      | cons q ps =>
        have hq := hne q (by simp)
        simp [Token.textOf, hq] at htail

theorem tokens_cut {c : Char} (hc : isCut c = true) {l : Lexeme} {read w s : Text} (t : Text)
    {ps qs : List Token} {kind : Token.Kind} (hr : read ≠ [])
    (h : l.tokens read (w ++ c :: s) = ps ++ qs)
    (ht : Token.textOf ps = read.reverse ++ w ++ [c])
    (hl : ps.getLast? = some ⟨kind, [c]⟩) :
    l.tokens read (w ++ c :: t) = ps ++ lex t := by
  induction w generalizing l read ps with
  | nil =>
    rw [List.nil_append] at h ⊢
    rw [List.append_nil] at ht
    have hstep := ends_at_mark hr h ht hl
    obtain ⟨k, hk⟩ := start_at_cut hc
    have hne := text_ne_nil_of_mem_tokens l read (c :: s) hr
    rw [tokens, hstep] at h hne
    simp only [hk, tokens_ending] at h hne
    have hps : [⟨l.kind, read.reverse⟩, ⟨k, [c]⟩] = ps := by
      apply split_unique (lex s) qs hne h
      rw [ht]
      simp [Token.textOf]
    rw [tokens, ← step_at_cut hc s t, hstep]
    simp only [hk, tokens_ending, ← hps]
    rfl
  | cons a w ih =>
    rw [List.cons_append, tokens] at h ⊢
    rw [step_cut hc w t s]
    cases hstep : l.step read a (w ++ c :: s) with
    | some next =>
      rw [hstep] at h
      exact ih (by simp) h (by simpa using ht) hl
    | none =>
      rw [hstep] at h
      rw [start_cut hc w t s]
      cases ps with
      | nil => simp at hl
      | cons p ps =>
        obtain ⟨rfl, hrest⟩ := List.cons.inj h
        have htail : Token.textOf ps = [a] ++ w ++ [c] := by
          simpa [Token.textOf] using ht
        have hps : ps ≠ [] := by
          rintro rfl
          simp [Token.textOf] at htail
        rw [List.getLast?_cons_of_ne_nil hps] at hl
        simp only [ih (by simp) hrest htail hl, List.cons_append]

theorem tokens_front {c : Char} (hc : isCut c = true) {l : Lexeme} {read w s : Text}
    {ps qs : List Token} (hr : read ≠ []) (h : l.tokens read (w ++ c :: s) = ps ++ qs)
    (ht : Token.textOf ps = read.reverse ++ w) : l.tokens read w = ps := by
  have hne := text_ne_nil_of_mem_tokens l read (w ++ c :: s) hr
  rw [h] at hne
  induction w generalizing l read ps with
  | nil =>
    rw [List.nil_append, tokens] at h
    rw [List.append_nil] at ht
    cases hstep : l.step read c s with
    | none =>
      rw [hstep] at h
      rw [← h] at hne
      have hsplit : l.tokens read [] ++ tokens (start c s) [c] s = ps ++ qs := h
      exact split_unique _ qs hne hsplit (by rw [ht, text_of_tokens, List.append_nil])
    | some next =>
      -- the first token would go on behind the text
      exfalso
      rw [hstep] at h
      cases ps with
      | nil => exact hr (by simpa [Token.textOf] using ht.symm)
      | cons p ps =>
        obtain ⟨more, hp⟩ := head_text h
        simp [Token.text_of_cons, hp] at ht
  | cons a w ih =>
    rw [List.cons_append, tokens, step_end hc w s] at h
    rw [tokens]
    cases hstep : l.step read a w with
    | some next =>
      rw [hstep] at h
      exact ih (by simp) h (by simpa using ht) hne
    | none =>
      rw [hstep, start_end hc w s] at h
      cases ps with
      | nil => simp [Token.textOf] at ht
      | cons p ps =>
        obtain ⟨rfl, hrest⟩ := List.cons.inj h
        have htail : Token.textOf ps = [a].reverse ++ w := by simpa [Token.textOf] using ht
        simp only [ih (by simp) hrest htail fun x hx => hne x (List.mem_cons_of_mem _ hx)]

end Lexeme

theorem lex_front {c : Char} (hc : isCut c = true) {u s : Text} {ps qs : List Token}
    (h : lex (u ++ c :: s) = ps ++ qs) (ht : Token.textOf ps = u) : lex u = ps := by
  cases u with
  | nil =>
    cases ps with
    | nil => rfl
    | cons p ps =>
      have hp : p.text ≠ [] := text_ne_nil_of_mem_lex _ p (by rw [h]; simp)
      exact absurd (List.append_eq_nil_iff.mp ht).1 hp
  | cons a u =>
    rw [List.cons_append, lex, Lexeme.start_end hc u s] at h
    exact Lexeme.tokens_front hc (by simp) h (by simpa using ht)

theorem splits_cut {c : Char} (hc : isCut c = true) {u s : Text} (t : Text) {ps qs : List Token}
    {kind : Token.Kind} (h : lex (u ++ c :: s) = ps ++ qs) (ht : Token.textOf ps = u ++ [c])
    (hl : ps.getLast? = some ⟨kind, [c]⟩) : Splits (u ++ [c]) ps t := by
  rw [Splits, List.append_assoc, List.singleton_append]
  cases u with
  | nil =>
    obtain ⟨k, hk⟩ := Lexeme.start_at_cut hc
    have hlex : ∀ r, lex (c :: r) = [⟨k, [c]⟩] ++ lex r := fun r =>
      Splits.of_start (hk r)
    have hps : [⟨k, [c]⟩] = ps := by
      refine split_unique (lex s) qs ?_ (by rw [← hlex]; exact h) ?_
      · rw [← hlex]
        exact text_ne_nil_of_mem_lex _
      · rw [ht]
        rfl
    rw [List.nil_append, hlex, hps]
  | cons a u =>
    rw [List.cons_append, lex] at h ⊢
    rw [Lexeme.start_cut hc u t s]
    exact Lexeme.tokens_cut hc t (by simp) h (by simpa using ht) hl

/-- What follows the end of an item or a block makes no difference in front of it. -/
theorem Splits.cut {c : Char} (hc : isCut c = true) {u : Text} {ts : List Token} (h : Splits u ts [c])
    (rest : Text) : Splits u ts (c :: rest) := by
  obtain ⟨kind, hk⟩ := Lexeme.start_at_cut hc
  have hlex : ∀ t, lex (c :: t) = ⟨kind, [c]⟩ :: lex t := fun t => Splits.of_start (hk t)
  have hu : lex (u ++ [c]) = (ts ++ [⟨kind, [c]⟩]) ++ [] := by
    rw [List.append_nil, h, hlex]
    rfl
  have htext : Token.textOf (ts ++ [⟨kind, [c]⟩]) = u ++ [c] := by
    rw [Token.text_of_append, h.text_of]
    rfl
  have hall : Splits (u ++ [c]) (ts ++ [⟨kind, [c]⟩]) rest :=
    splits_cut hc rest hu htext List.getLast?_concat
  rw [Splits, hlex, ← List.singleton_append, ← List.append_assoc, hall, List.append_assoc]
  rfl

end CssFallback
