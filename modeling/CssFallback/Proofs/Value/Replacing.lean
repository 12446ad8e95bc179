import CssFallback.Overflow
import CssFallback.Proofs.Token.Exchange
import CssFallback.Value

/-!
# Replacing keywords in a value

A part that is a word is a single token, and a keyword is a word of letters. So the parts
in which keywords have been replaced, however often, are those of their text: no keyword
runs into what stands next to it or becomes something else there.
-/

set_option autoImplicit false

namespace CssFallback

namespace Keyword

theorem letters (k : Keyword) : IsLetters k.text := by
  cases k <;> exact ⟨by decide, by decide⟩

theorem text_injective {k j : Keyword} (h : k.text = j.text) : k = j :=
  Option.some.inj (by rw [← of_own_text, h, of_own_text])

def replaced (pairs : List (Keyword × Keyword)) (k : Keyword) : Keyword :=
  pairs.foldl (fun k pair => if k = pair.1 then pair.2 else k) k

end Keyword

namespace ValuePart

/-- The parts after replacements, one after the other. -/
def replaceKeywords (pairs : List (Keyword × Keyword)) (ps : List ValuePart) : List ValuePart :=
  pairs.foldl (fun ps pair => replaceWord pair.1.text pair.2.text ps) ps

def replaced (pairs : List (Keyword × Keyword)) (p : ValuePart) : ValuePart :=
  if p.kind = .word then
    match Keyword.ofText? p.text with
    | some k => ⟨.word, (k.replaced pairs).text⟩
    | none => p
  else p

/-! ## One replacement for many -/

theorem replaced_keyword (pairs : List (Keyword × Keyword)) (k : Keyword) :
    replaced pairs ⟨.word, k.text⟩ = ⟨.word, (k.replaced pairs).text⟩ := by
  simp [replaced, Keyword.of_own_text]

theorem replaced_other (pairs : List (Keyword × Keyword)) {p : ValuePart}
    (h : ∀ k : Keyword, p ≠ ⟨.word, k.text⟩) : replaced pairs p = p := by
  rw [replaced]
  split
  · rename_i hword
    split
    · rename_i k hk
      exact absurd (by rw [Keyword.text_of_found hk, ← hword]) (h k)
    · rfl
  · rfl

theorem replaced_nil (p : ValuePart) : replaced [] p = p := by
  by_cases hp : ∃ k : Keyword, p = ⟨.word, k.text⟩
  · obtain ⟨k, rfl⟩ := hp
    exact replaced_keyword [] k
  · exact replaced_other [] fun k hk => hp ⟨k, hk⟩

theorem replaced_cons (pair : Keyword × Keyword) (pairs : List (Keyword × Keyword)) (p : ValuePart) :
    replaced (pair :: pairs) p =
      replaced pairs (if p = ⟨.word, pair.1.text⟩ then ⟨.word, pair.2.text⟩ else p) := by
  by_cases hp : ∃ k : Keyword, p = ⟨.word, k.text⟩
  · obtain ⟨k, rfl⟩ := hp
    rw [replaced_keyword, Keyword.replaced, List.foldl_cons]
    by_cases hk : k = pair.1
    · rw [if_pos hk, if_pos (by rw [hk]), replaced_keyword, Keyword.replaced]
    · have hne : (⟨.word, k.text⟩ : ValuePart) ≠ ⟨.word, pair.1.text⟩ := fun h =>
        hk (Keyword.text_injective (ValuePart.mk.inj h).2)
      rw [if_neg hk, if_neg hne, replaced_keyword, Keyword.replaced]
  · have hother : ∀ k : Keyword, p ≠ ⟨.word, k.text⟩ := fun k hk => hp ⟨k, hk⟩
    rw [if_neg (hother pair.1), replaced_other _ hother, replaced_other _ hother]

theorem replace_keywords_map (pairs : List (Keyword × Keyword)) (ps : List ValuePart) :
    replaceKeywords pairs ps = ps.map (replaced pairs) := by
  induction pairs generalizing ps with
  | nil =>
    rw [List.map_congr_left fun p _ => replaced_nil p, List.map_id']
    rfl
  | cons pair pairs ih =>
    rw [List.map_congr_left fun p _ => replaced_cons pair pairs p]
    show replaceKeywords pairs (replaceWord pair.1.text pair.2.text ps) = _
    rw [ih, replaceWord, List.map_map]
    rfl

/-! ## Tokens of the words -/

theorem word_iff {k : Token.Kind} : Kind.ofToken k = .word ↔ k = .ident := by
  cases k <;> simp [Kind.ofToken]

theorem word_of_opens {t : Token} {b : Bracket} (h : t.opens? = some b) :
    Kind.ofToken t.kind ≠ .word := by
  intro hw
  rw [Token.opens?, word_iff.mp hw] at h
  cases h

section
variable {old new : Text} (ho : IsLetters old) (hn : IsLetters new)
include ho hn

theorem exchange_token {t : Token} (ht : t.opens? = none) :
    ∃ t', Exchange t t' ∧ t'.opens? = none ∧ (⟨.ofToken t'.kind, t'.text⟩ : ValuePart) =
      if (⟨.ofToken t.kind, t.text⟩ : ValuePart) = ⟨.word, old⟩ then ⟨.word, new⟩
      else ⟨.ofToken t.kind, t.text⟩ := by
  split
  · rename_i hold
    obtain ⟨kind, text⟩ := t
    obtain ⟨hkind, rfl⟩ := ValuePart.mk.inj hold
    obtain rfl : kind = .ident := word_iff.mp hkind
    exact ⟨⟨.ident, new⟩, .word ho hn, rfl, rfl⟩
  · exact ⟨t, .kept t, ht, rfl⟩

/-- The parts with a word replaced are those of other tokens. An unclosed part is no word. -/
theorem group_replaced (ts : List Token) (u : Option Unclosed)
    (hu : ∀ v, u = some v → v.kind ≠ .word) :
    ∃ ts', List.Forall₂ Exchange ts ts' ∧ group u ts' = replaceWord old new (group u ts) := by
  induction ts generalizing u with
  | nil =>
    refine ⟨[], .nil, ?_⟩
    cases u with
    | none => rfl
    | some v =>
      have hkind := hu v rfl
      simp [group, replaceWord, hkind]
  | cons t rest ih =>
    cases u with
    | none =>
      cases ht : t.opens? with
      | some b =>
        obtain ⟨ts', hts', hgroup⟩ := ih (some ⟨.ofToken t.kind, t.text, [b]⟩) (by
          rintro _ ⟨⟩
          exact word_of_opens ht)
        exact ⟨t :: ts', .cons (.kept t) hts', by simp only [group, ht, hgroup]⟩
      | none =>
        obtain ⟨ts', hts', hgroup⟩ := ih none (by rintro _ ⟨⟩)
        obtain ⟨t', hexchange, ht', hpart⟩ := exchange_token ho hn ht
        refine ⟨t' :: ts', .cons hexchange hts', ?_⟩
        simp only [group, ht, ht', hgroup, hpart, replaceWord, List.map_cons]
    | some v =>
      have hkind := hu v rfl
      cases hstep : v.nesting.step t with
      | nil =>
        obtain ⟨ts', hts', hgroup⟩ := ih none (by rintro _ ⟨⟩)
        refine ⟨t :: ts', .cons (.kept t) hts', ?_⟩
        simp [group, hstep, hgroup, replaceWord, hkind]
      | cons b outer =>
        obtain ⟨ts', hts', hgroup⟩ := ih (some ⟨v.kind, v.text ++ t.text, b :: outer⟩) (by
          rintro _ ⟨⟩
          exact hkind)
        exact ⟨t :: ts', .cons (.kept t) hts', by simp only [group, hstep, hgroup]⟩

/-- One replacement: parts that are those of their text stay so. -/
theorem reparse_replaced {ps : List ValuePart} (h : valueParts (textOf ps) = ps) :
    valueParts (textOf (replaceWord old new ps)) = replaceWord old new ps := by
  obtain ⟨ts, hts, hgroup⟩ := group_replaced ho hn (lex (textOf ps)) none (by rintro _ ⟨⟩)
  rw [show group none (lex (textOf ps)) = ps from h] at hgroup
  have hlex : lex (Token.textOf ts) = ts := by
    refine lex_exchange hts ?_
    rw [text_of_lex]
  have htext : textOf (replaceWord old new ps) = Token.textOf ts := by
    rw [← hgroup, text_of_group]
    rfl
  rw [htext, valueParts, hlex, hgroup]

end

theorem reparse_keywords (pairs : List (Keyword × Keyword)) {ps : List ValuePart}
    (h : valueParts (textOf ps) = ps) :
    valueParts (textOf (replaceKeywords pairs ps)) = replaceKeywords pairs ps := by
  induction pairs generalizing ps with
  | nil => exact h
  | cons pair pairs ih => exact ih (reparse_replaced pair.1.letters pair.2.letters h)

/-- A value in which keywords have been replaced is split into the very parts in which they
were replaced, and each word that is a keyword has become what the replacements make of it. -/
theorem replaced_keywords_kept (value : Text) (pairs : List (Keyword × Keyword)) :
    valueParts (textOf (replaceKeywords pairs (valueParts value))) =
        replaceKeywords pairs (valueParts value) ∧
      replaceKeywords pairs (valueParts value) = (valueParts value).map (replaced pairs) := by
  refine ⟨reparse_keywords pairs ?_, replace_keywords_map pairs _⟩
  rw [text_of_value_parts]

end ValuePart
end CssFallback
